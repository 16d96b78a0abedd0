import Mathlib.Data.List.Nodup
import ContractAudit.Value.Json
import ContractAudit.Value.JsonReader

/-! # Texts of JSON values -/

namespace ContractAudit.Json
open Text List
variable {n fuel : Nat} {c : Char}

theorem hexValue?_hexDigit (h : n < 16) : hexValue? (hexDigit n) = some n := by
  have : ∀ m : Fin 16, hexValue? (hexDigit m) = some m.val := by decide
  exact this ⟨n, h⟩

theorem readUnit?_hexDigits (h : n < 0x10000) (s : List Char) : readUnit? (hexDigits 4 n ++ s) = some (n, s) := by
  have h0 : n % 16 < 16 := Nat.mod_lt _ (by decide)
  have h1 : n / 16 % 16 < 16 := Nat.mod_lt _ (by decide)
  have h2 : n / 16 / 16 % 16 < 16 := Nat.mod_lt _ (by decide)
  have h3 : n / 16 / 16 / 16 % 16 < 16 := Nat.mod_lt _ (by decide)
  simp only [hexDigits, nil_append, cons_append, readUnit?, hexValue?_hexDigit, h0, h1, h2, h3,
    Option.bind_eq_bind, Option.bind_some]
  congr 2
  omega

theorem readEscaped?_unit (h : n < 0x10000) (hs : ¬(0xd800 ≤ n ∧ n < 0xdc00)) (s : List Char) :
    readEscaped? (hexDigits 4 n ++ s) = some (Char.ofNat n, s) := by
  unfold readEscaped?
  simp only [readUnit?_hexDigits h, Option.bind_eq_bind, Option.bind_some]
  rw [if_neg (by simpa using hs)]

/-- Two units, a high one and a low one, stand for a character beyond the first plane. -/
theorem readEscaped?_units (h : n < 0x100000) (s : List Char) :
    readEscaped? (hexDigits 4 (0xd800 + n / 0x400) ++ (unitEscape (0xdc00 + n % 0x400) ++ s)) =
      some (Char.ofNat (0x10000 + n), s) := by
  have hhigh : 0xd800 + n / 0x400 < 0xdc00 := by omega
  have hlow : 0xdc00 + n % 0x400 < 0xe000 := by omega
  unfold readEscaped? unitEscape
  simp only [readUnit?_hexDigits (Nat.lt_trans hhigh (by decide)), Option.bind_eq_bind, Option.bind_some, cons_append]
  rw [if_pos (by simp; omega)]
  simp only [readUnit?_hexDigits (Nat.lt_trans hlow (by decide)), Option.bind_some]
  have hsum : 0x10000 + (0xd800 + n / 0x400 - 0xd800) * 0x400 + (0xdc00 + n % 0x400 - 0xdc00) = 0x10000 + n := by
    omega
  rw [if_pos (by simp; omega), hsum]

theorem not_surrogate (c : Char) : ¬(0xd800 ≤ c.toNat ∧ c.toNat < 0xdc00) := by
  have h : c.toNat < 0xd800 ∨ 0xdfff < c.toNat ∧ c.toNat < 0x110000 := c.valid
  omega

theorem readString?_letter_of_eq {e c' : Char} (hc : c = c') (hu : e ≠ 'u')
    (he : escapeLetter? e = some c') (s : List Char) :
    readString? (fuel + 1) ('\\' :: e :: s) = (readString? fuel s).map fun (r, s) => (c :: r, s) := by
  subst hc
  rw [readString?]
  · simp only [he, Option.bind_eq_bind, Option.bind_some]
    cases readString? fuel s <;> rfl
  · exact hu

theorem readString?_unit {s t : List Char} (h : readEscaped? s = some (c, t)) :
    readString? (fuel + 1) ('\\' :: 'u' :: s) = (readString? fuel t).map fun (r, s) => (c :: r, s) := by
  rw [readString?]
  simp only [h, Option.bind_eq_bind, Option.bind_some]
  cases readString? fuel t <;> rfl

theorem readString?_plain (hq : c ≠ '"') (hb : c ≠ '\\') (s : List Char) :
    readString? (fuel + 1) (c :: s) = (readString? fuel s).map fun (r, s) => (c :: r, s) := by
  rw [readString?]
  · cases readString? fuel s <;> rfl
  · exact hq
  · exact fun _ h => absurd h hb
  · exact fun _ _ h => absurd h hb

/-- A character is read from its escape, of whatever form. -/
theorem readString?_escapeChar (fuel : Nat) (c : Char) (s : List Char) :
    readString? (fuel + 1) (escapeChar c ++ s) = (readString? fuel s).map fun (r, s) => (c :: r, s) := by
  have control : ∀ n, c.toNat = n → c = Char.ofNat n := fun n h => h ▸ (Char.ofNat_toNat c).symm
  unfold escapeChar
  iterate 5
    split
    · next h => exact readString?_letter_of_eq (beq_iff_eq.mp h) (by decide) rfl s
  split
  · next h => exact readString?_letter_of_eq (control 8 (beq_iff_eq.mp h)) (by decide) rfl s
  split
  · next h => exact readString?_letter_of_eq (control 12 (beq_iff_eq.mp h)) (by decide) rfl s
  split
  · next hq hb _ _ _ _ _ _ => exact readString?_plain (by simpa using hq) (by simpa using hb) s
  split
  · next h =>
    have hread := readEscaped?_unit h (not_surrogate c) s
    rw [Char.ofNat_toNat] at hread
    exact readString?_unit hread
  · next h =>
    -- beyond the first plane: the offset from its end is split over two units
    have hlt : c.toNat < 0x110000 := by
      have h : c.toNat < 0xd800 ∨ 0xdfff < c.toNat ∧ c.toNat < 0x110000 := c.valid
      omega
    have hc : c = Char.ofNat (0x10000 + (c.toNat - 0x10000)) := by
      rw [Nat.add_sub_cancel' (by omega), Char.ofNat_toNat]
    rw [append_assoc]
    refine (readString?_unit (readEscaped?_units (n := c.toNat - 0x10000) (by omega) s)).trans ?_
    rw [← hc]

/-- A string is read back up to its closing quote. -/
theorem readString?_written (s rest : List Char) (fuel : Nat) (h : s.length < fuel) :
    readString? fuel (s.flatMap escapeChar ++ '"' :: rest) = some (s, rest) := by
  induction s generalizing fuel with
  | nil =>
    obtain ⟨n, rfl⟩ : ∃ n, fuel = n + 1 := ⟨fuel - 1, by simp at h; omega⟩
    rfl
  | cons c s ih =>
    obtain ⟨n, rfl⟩ : ∃ n, fuel = n + 1 := ⟨fuel - 1, by simp at h; omega⟩
    rw [flatMap_cons, append_assoc, readString?_escapeChar, ih n (by simpa using h)]
    rfl

theorem toList_string (s : String) : (string s).toList = '"' :: (s.toList.flatMap escapeChar ++ ['"']) := by
  simp [string]

theorem not_mem_hexDigits (hc : ∀ m : Fin 16, c ≠ hexDigit m) (w n : Nat) : c ∉ hexDigits w n := by
  induction w generalizing n with
  | zero => exact not_mem_nil
  | succ w ih => simp [hexDigits, ih, hc ⟨n % 16, Nat.mod_lt _ (by decide)⟩]

theorem newline_not_mem_escapeChar (c : Char) : '\n' ∉ escapeChar c := by
  have hunit (n : Nat) : '\n' ∉ unitEscape n := by
    simp [unitEscape, not_mem_hexDigits (show ∀ m : Fin 16, '\n' ≠ hexDigit m by decide)]
  unfold escapeChar
  iterate 7
    split
    · decide
  split
  · next hn _ _ _ _ _ =>
    rw [mem_singleton]
    rintro rfl
    exact hn rfl
  split
  · exact hunit _
  · simp [hunit]

/-- A string is on one line, whatever its text. -/
theorem newline_not_mem_string (s : String) : '\n' ∉ (string s).toList := by
  simp [toList_string, newline_not_mem_escapeChar]

/-! ### Texts of values -/

theorem isDigit_or_minus_of_mem_toString {n : Int} (h : c ∈ (toString n).toList) : c.isDigit = true ∨ c = '-' := by
  have hdigits {m : Nat} (hm : c ∈ Nat.toDigits 10 m) : c.isDigit = true :=
    Nat.isDigit_of_mem_toDigits (by decide) (by decide) hm
  rw [Int.toString_eq_repr, Int.repr_eq_if] at h
  split at h
  · rw [Nat.toList_repr] at h
    exact Or.inl (hdigits h)
  · rw [String.toList_append, Nat.toList_repr] at h
    rcases mem_append.mp h with h | h
    · exact Or.inr (mem_singleton.mp h)
    · exact Or.inl (hdigits h)

theorem renderItems_eq_map (f : Format) (n : Nat) (items : List Value) :
    renderItems f n items = items.map (renderAt f n) := by
  induction items with
  | nil => rfl
  | cons v items ih => rw [renderItems, ih, map_cons]

theorem renderEntries_eq_map (f : Format) (n : Nat) (entries : List (Scalar × Value)) :
    renderEntries f n entries = entries.map fun e => (keyText e.1, renderAt f n e.2) := by
  induction entries with
  | nil => rfl
  | cons e entries ih =>
    obtain ⟨k, v⟩ := e
    rw [renderEntries, ih, map_cons]

theorem mem_arrange {f : Format} {e : String × String} {es : List (String × String)} : e ∈ arrange f es ↔ e ∈ es := by
  unfold arrange
  split
  · exact mem_mergeSort
  · exact Iff.rfl

end ContractAudit.Json

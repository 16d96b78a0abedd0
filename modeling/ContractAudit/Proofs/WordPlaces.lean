import ContractAudit.Proofs.PatternChoice

/-! # Where a word stands

A word of a text has no word character right before or after it. It cannot reach over a character
that is none, so the words of a text are those of its parts (`WordAt.cut`). -/

namespace ContractAudit.Text
open List
variable {c : Char}

theorem isAlphanum_iff : c.isAlphanum = true ↔
    65 ≤ c.toNat ∧ c.toNat ≤ 90 ∨ 97 ≤ c.toNat ∧ c.toNat ≤ 122 ∨ 48 ≤ c.toNat ∧ c.toNat ≤ 57 := by
  have hranges : c.isAlphanum = ((decide (c.val ≥ 65 ∧ c.val ≤ 90) ||
      (decide (c.val ≥ 97) && decide (c.val ≤ 122))) || (decide (c.val ≥ 48) && decide (c.val ≤ 57))) := rfl
  simp only [hranges, Bool.or_eq_true, Bool.and_eq_true, decide_eq_true_eq, ge_iff_le, UInt32.le_iff_toNat_le,
    Char.toNat, or_assoc]
  rfl

/-- The tables of blanks and of word characters have nothing in common. -/
theorem isWordChar_of_isBlank (h : isBlank c = true) : isWordChar c = false := by
  have hapart : (blankRanges.all fun b => alphanumericRanges.all fun a =>
      decide (a.2 < b.1) || decide (b.2 < a.1)) = true := by decide +kernel
  have hascii : (blankRanges.all fun b => decide (b.2 < 48) || decide (122 < b.1)) = true := by decide
  obtain ⟨b, hb, hlow, hhigh⟩ := inRanges_iff.mp h
  have hb' := all_eq_true.mp hascii b hb
  simp only [Bool.or_eq_true, decide_eq_true_eq] at hb'
  have hunderscore : (c == '_') = false := by
    refine beq_eq_false_iff_ne.mpr fun hc => ?_
    rw [hc] at hlow hhigh
    have : '_'.toNat = 95 := rfl
    omega
  rw [isWordChar, hunderscore, Bool.false_or, isAlphanumeric]
  split
  · refine Bool.eq_false_iff.mpr fun halpha => ?_
    have := isAlphanum_iff.mp halpha
    omega
  · refine Bool.eq_false_iff.mpr fun halpha => ?_
    obtain ⟨a, ha, halow, hahigh⟩ := inRanges_iff.mp halpha
    have hab := all_eq_true.mp (all_eq_true.mp hapart b hb) a ha
    simp only [Bool.or_eq_true, decide_eq_true_eq] at hab
    omega

theorem isWordChar_of_isIdentChar (h : isIdentChar c = true) : isWordChar c = true := by
  rw [isIdentChar, Bool.or_eq_true] at h
  rcases h with h | h
  · have hlt : c.toNat < 128 := by
      have := isAlphanum_iff.mp h
      omega
    rw [isWordChar, isAlphanumeric, if_pos hlt, h, Bool.or_true]
  · rw [isWordChar, h, Bool.true_or]

theorem isIdentChar_of_isBlank (h : isBlank c = true) : isIdentChar c = false := by
  refine Bool.eq_false_iff.mpr fun hident => ?_
  have hword := isWordChar_of_isBlank h
  rw [isWordChar_of_isIdentChar hident] at hword
  cases hword

theorem isIdentChar_of_isIdentStart (h : isIdentStart c = true) : isIdentChar c = true := by
  rw [isIdentStart, Bool.or_eq_true] at h
  rcases h with h | h
  · rw [isIdentChar, Char.isAlphanum, h, Bool.true_or, Bool.true_or]
  · rw [isIdentChar, h, Bool.or_true]

theorem isBlank_of_isIdentStart (h : isIdentStart c = true) : isBlank c = false := by
  refine Bool.eq_false_iff.mpr fun hblank => ?_
  have hident := isIdentChar_of_isBlank hblank
  rw [isIdentChar_of_isIdentStart h] at hident
  cases hident

/-- The word has characters, and they are all word characters. -/
def IsWord (w : List Char) : Prop := w ≠ [] ∧ w.all isWordChar = true

/-- The word stands in the text at the position, and no word character is next to it. -/
def WordAt (w s : List Char) (i : Nat) : Prop :=
  ∃ u v, s = u ++ w ++ v ∧ u.length = i ∧ u.getLast?.any isWordChar = false ∧
    v.head?.any isWordChar = false

/-- The word stands nowhere in the text. -/
def Lacks (w s : List Char) : Prop := ∀ i, ¬ WordAt w s i

variable {w s a b : List Char} {d : Char} {i : Nat}

theorem lacks_nil (hw : IsWord w) : Lacks w [] := by
  rintro i ⟨u, v, hs, -⟩
  simp only [nil_eq, append_eq_nil_iff] at hs
  exact hw.1 hs.1.2

theorem any_head?_append_left (h : (a ++ b).head?.any isWordChar = false) : a.head?.any isWordChar = false := by
  cases a with
  | nil => rfl
  | cons c a => exact h

theorem any_getLast?_append_right (h : (a ++ b).getLast?.any isWordChar = false) :
    b.getLast?.any isWordChar = false := by
  cases hb : b.getLast? with
  | none => rfl
  | some c =>
    rw [getLast?_append, hb] at h
    exact h

/-- A word stands on one side of a character that is no part of a word. -/
theorem WordAt.cut (hw : IsWord w) (hd : isWordChar d = false) (h : WordAt w (a ++ d :: b) i) :
    WordAt w a i ∨ ∃ j, i = a.length + 1 + j ∧ WordAt w b j := by
  have hdw : d ∉ w := by
    intro hmem
    rw [all_eq_true.mp hw.2 d hmem] at hd
    cases hd
  obtain ⟨u, v, hs, hi, hu, hv⟩ := h
  rcases append_eq_append_iff.mp hs with ⟨x, hx, hb⟩ | ⟨x, hx, hv'⟩
  · -- the text before the character ends within `u ++ w`
    rcases append_eq_append_iff.mp hx with ⟨y, hy, hw'⟩ | ⟨y, hy, hx'⟩
    · -- it ends within `w`, which has only word characters
      cases x with
      | nil =>
        refine .inl ⟨u, [], by rw [hx]; simp, hi, hu, rfl⟩
      | cons c x =>
        obtain ⟨rfl, -⟩ := List.cons.inj hb
        exact absurd (by rw [hw']; simp) hdw
    · cases y with
      | nil =>
        obtain ⟨c, r, hcr⟩ := exists_cons_of_ne_nil hw.1
        rw [hx', nil_append, hcr] at hb
        obtain ⟨rfl, -⟩ := List.cons.inj hb
        exact absurd (by rw [hcr]; exact .head _) hdw
      | cons c y =>
        rw [hx', cons_append, cons_append] at hb
        obtain ⟨rfl, htail⟩ := List.cons.inj hb
        refine .inr ⟨y.length, by rw [← hi, hy]; simp; omega, y, v, htail, rfl, ?_, hv⟩
        rw [hy] at hu
        cases y with
        | nil => rfl
        | cons e y => exact any_getLast?_append_right (a := a ++ [d]) (by simpa using hu)
  · refine .inl ⟨u, x, hx, hi, hu, any_head?_append_left (b := d :: b) (by rwa [← hv'])⟩

theorem Lacks.cut (hw : IsWord w) (hd : isWordChar d = false) (ha : Lacks w a) (hb : Lacks w b) :
    Lacks w (a ++ d :: b) := by
  intro i h
  rcases h.cut hw hd with h | ⟨j, -, h⟩
  · exact ha i h
  · exact hb j h

/-- No word begins among characters that are no part of a word. -/
theorem WordAt.skip (hw : IsWord w) (ha : ∀ c ∈ a, isWordChar c = false) (h : WordAt w (a ++ s) i) :
    ∃ j, i = a.length + j ∧ WordAt w s j := by
  induction a generalizing i with
  | nil => exact ⟨i, by simp, h⟩
  | cons c a ih =>
    rcases WordAt.cut (a := []) hw (ha c (.head _)) h with h | ⟨j, rfl, hj⟩
    · exact absurd h (lacks_nil hw i)
    · obtain ⟨k, rfl, hk⟩ := ih (fun d hd => ha d (.tail _ hd)) hj
      exact ⟨k, by simp only [length_cons, length_nil]; omega, hk⟩

theorem WordAt.leave (hw : IsWord w) (ha : ∀ c ∈ a, isWordChar c = false) (h : WordAt w (s ++ a) i) :
    WordAt w s i := by
  cases a with
  | nil => rwa [append_nil] at h
  | cons c a =>
    rcases h.cut hw (ha c (.head _)) with h | ⟨j, -, hj⟩
    · exact h
    · rw [← append_nil a] at hj
      obtain ⟨k, -, hk⟩ := hj.skip hw fun d hd => ha d (.tail _ hd)
      exact absurd hk (lacks_nil hw k)

/-- In a text of word characters alone, the only word is the text. -/
theorem WordAt.eq_self (hs : s.all isWordChar = true) (h : WordAt w s i) : s = w ∧ i = 0 := by
  obtain ⟨u, v, rfl, rfl, hu, hv⟩ := h
  simp only [all_append, Bool.and_eq_true] at hs
  have hnil : u = [] := by
    cases hlast : u.getLast? with
    | none => exact getLast?_eq_none_iff.mp hlast
    | some c =>
      rw [hlast, Option.any_some, all_eq_true.mp hs.1.1 c (mem_of_getLast? hlast)] at hu
      cases hu
  have hnil' : v = [] := by
    cases v with
    | nil => rfl
    | cons c v =>
      rw [head?_cons, Option.any_some, all_eq_true.mp hs.2 c (.head _)] at hv
      cases hv
  subst hnil hnil'
  simp

theorem lacks_of_ne (hs : s.all isWordChar = true) (hne : s ≠ w) : Lacks w s := fun _ h => hne (h.eq_self hs).1

/-- The text, which follows the character `last`, has a word. -/
def hasWordAfter (w : List Char) (last : Option Char) : List Char → Bool
  | [] => false
  | c :: s => (!last.any isWordChar && w.isPrefixOf (c :: s) &&
      !((c :: s).drop w.length).head?.any isWordChar) || hasWordAfter w (some c) s

def hasWord (w s : List Char) : Bool := hasWordAfter w none s

/-- The search that runs finds every word. -/
theorem lacks_of_hasWord (hw : IsWord w) (h : hasWord w s = false) : Lacks w s := by
  have hgo : ∀ (u v : List Char) (last : Option Char), (u.getLast?.or last).any isWordChar = false →
      v.head?.any isWordChar = false → hasWordAfter w last (u ++ w ++ v) = true := by
    intro u
    induction u with
    | nil =>
      intro v last hlast hv
      obtain ⟨c, r, hcr⟩ := exists_cons_of_ne_nil hw.1
      have hbegins : w.isPrefixOf (c :: (r ++ v)) = true := by
        rw [← cons_append, ← hcr]
        exact isPrefixOf_iff_prefix.mpr (prefix_append w v)
      have hdrop : (c :: (r ++ v)).drop w.length = v := by
        rw [← cons_append, ← hcr, drop_left]
      rw [nil_append, hcr, cons_append, hasWordAfter, ← hcr, hbegins, hdrop, hv,
        show last.any isWordChar = false from hlast]
      rfl
    | cons c u ih =>
      intro v last hlast hv
      rw [cons_append, cons_append, hasWordAfter, ih v (some c) ?_ hv, Bool.or_true]
      rw [getLast?_cons] at hlast
      cases hu : u.getLast? with
      | none =>
        rw [hu] at hlast
        exact hlast
      | some d =>
        rw [hu] at hlast
        exact hlast
  rintro i ⟨u, v, rfl, -, hu, hv⟩
  have hfound := hgo u v none (by rwa [Option.or_none]) hv
  rw [hasWord, hfound] at h
  cases h

namespace Pattern
variable {u v t : List Char} {m : Captures}
variable {kw : String}

theorem any_head?_of_isWord (hw : IsWord w) (v : List Char) : (w ++ v).head?.any isWordChar = true := by
  cases w with
  | nil => exact absurd rfl hw.1
  | cons c w =>
    have hall := hw.2
    rw [all_cons, Bool.and_eq_true] at hall
    exact hall.1

theorem any_getLast?_of_isWord (hw : IsWord w) (u : List Char) : (u ++ w).getLast?.any isWordChar = true := by
  rw [getLast?_append, getLast?_eq_some_getLast hw.1]
  exact all_eq_true.mp hw.2 _ (getLast_mem hw.1)

theorem path_wordEdge_lit (hw : IsWord kw.toList) {c : Cursor} {n : Captures}
    (h : (wordEdge ++ lit kw).Path (.after u t) m c n) :
    ∃ v, t = kw.toList ++ v ∧ c = .after (u ++ kw.toList) v ∧ u.getLast?.any isWordChar = false := by
  obtain ⟨c₁, m₁, ⟨hedge, rfl, -⟩, hlit⟩ := h
  obtain ⟨v, rfl, rfl⟩ := path_lit hlit
  refine ⟨v, rfl, rfl, ?_⟩
  simp only [Cursor.after, any_head?_of_isWord hw, bne_iff_ne, ne_eq, Bool.not_eq_true] at hedge
  exact hedge

/-- A match of a pattern that ends with a word shows where the word stands. -/
theorem wordAt_of_path {p : Pattern} (hw : IsWord kw.toList) {c : Cursor} {n : Captures}
    (h : (p ++ wordEdge ++ lit kw ++ blanks1).Path (.after u t) m c n) :
    ∃ x v l, t = x ++ v ∧ p.Path (.after u t) m (.after (u ++ x) v) l ∧
      WordAt kw.toList (u ++ t) (u.length + x.length) := by
  obtain ⟨c₃, m₃, ⟨c₂, m₂, ⟨c₁, m₁, hp, hedge⟩, hlit⟩, hblanks⟩ := h
  obtain ⟨x, v, rfl, rfl⟩ := exists_after_of_path hp
  obtain ⟨v, rfl, rfl, hlast⟩ := path_wordEdge_lit hw ⟨c₂, m₂, hedge, hlit⟩
  obtain ⟨b, g, r, rfl, hb, -, -⟩ := path_some1_cons hblanks
  refine ⟨x, kw.toList ++ (b :: g ++ r), m₁, rfl, hp, u ++ x, b :: g ++ r, by simp, by simp, hlast, ?_⟩
  exact isWordChar_of_isBlank hb

/-- The pattern of a word does not match where the text lacks it. -/
theorem fails_word (hw : IsWord kw.toList) (h : Lacks kw.toList (u ++ t)) : (word kw).Fails u t := by
  rintro m c n ⟨c₁, m₁, hword, hedge, -⟩
  obtain ⟨v, rfl, rfl, hlast⟩ := path_wordEdge_lit hw hword
  refine h u.length ⟨u, v, by simp, rfl, hlast, ?_⟩
  simp only [Cursor.after, any_getLast?_of_isWord hw] at hedge
  simpa using hedge

end Pattern

end ContractAudit.Text

import ContractAudit.Proofs.LineOffsets
import ContractAudit.Proofs.Seam

/-! # Scans over a seam

Scans for line numbers, closing brackets, type parameters and separators end, with the blank, at the place
that belongs to the one where they end without it. -/

namespace ContractAudit.Source
open Text List

namespace Seam
variable {s : Seam} {i i' : Nat}
variable {t : List Char} {a : Char} {last last' : Option Char} {j : Nat}
variable {p : Char → Bool} {b : Char} {n n' c c' : Nat} {chunk chunk' : List Char}

theorem lineOf_at (h : s.At i i') : lineOf (lineStarts s.wide) i' = lineOf (lineStarts s.text) i := by
  rw [lineOf_lineStarts, lineOf_lineStarts, (widens_take h).count_newline]

theorem drop_of_getElem? (h : t[i]? = some a) : t.drop i = a :: t.drop (i + 1) := by
  obtain ⟨hi, rfl⟩ := List.getElem?_eq_some_iff.mp h
  exact List.drop_eq_getElem_cons hi

theorem drop_gap (s : Seam) : s.wide.drop s.pre.length = s.blank :: s.wide.drop (s.pre.length + 1) :=
  drop_of_getElem? s.getElem?_gap

/-- A scan reads the same characters in both texts, apart from the blank. -/
theorem at_induction {P : Nat → Nat → Prop} (finished : ∀ i, s.text.length ≤ i → P i (s.shift i))
    (next : ∀ i a, s.text[i]? = some a → s.wide[s.shift i]? = some a → P (i + 1) (s.shift i + 1) → P i (s.shift i))
    (skip : P s.pre.length (s.pre.length + 1) → P s.pre.length s.pre.length) (h : s.At i i') : P i i' := by
  induction hn : s.wide.length - i' using Nat.strong_induction_on generalizing i i' with
  | _ n ih =>
    rcases h with rfl | ⟨rfl, rfl⟩
    · by_cases hi : i < s.text.length
      · have hget := getElem?_eq_getElem hi
        have hi' := shift_lt hi
        exact next i _ hget ((s.getElem?_shift i).trans hget) (ih _ (by omega) (s.at_succ i) rfl)
      · exact finished i (by omega)
    · have hlt := s.length_pre_lt
      exact skip (ih _ (by omega) (.inl (shift_of_le (Nat.le_refl _)).symm) rfl)

theorem drop_shift_of_length_le (h : s.text.length ≤ i) : s.wide.drop (s.shift i) = [] := by
  refine drop_of_length_le ?_
  rw [← shift_length_text]
  exact strictMono_shift.monotone h

theorem findChar_of_getElem? (h : t[i]? = some a) : findChar t p i = if p a then some i else findChar t p (i + 1) := by
  rw [findChar, findChar, drop_of_getElem? h, findIdx?_cons]
  split
  · simp
  · rw [Option.map_map]
    congr 1
    funext n
    simp only [Function.comp_apply]
    omega

theorem findChar_at (hp : p ' ' = false ∧ p '\t' = false) (h : s.At i i') :
    findChar s.wide p i' = (findChar s.text p i).map s.shift := by
  have hblank : p s.blank = false := by rcases s.indents with hb | hb <;> rw [hb] <;> simp [hp]
  refine at_induction (P := fun i i' => findChar s.wide p i' = (findChar s.text p i).map s.shift)
    (fun i hi => ?_) (fun i a ha ha' ih => ?_) (fun ih => ?_) h
  · rw [findChar, findChar, drop_shift_of_length_le hi, drop_of_length_le hi]
    rfl
  · rw [findChar_of_getElem? ha, findChar_of_getElem? ha', ih]
    split <;> rfl
  · rw [findChar_of_getElem? s.getElem?_gap, hblank, ih]
    rfl

theorem closeFrom_at {opener closer : Char} (hopener : s.blank ≠ opener) (hcloser : s.blank ≠ closer)
    (depth : Nat) (h : s.At i i') : closeFrom opener closer depth i' (s.wide.drop i') =
      (closeFrom opener closer depth i (s.text.drop i)).map s.shift := by
  refine at_induction (P := fun i i' => ∀ depth, closeFrom opener closer depth i' (s.wide.drop i') =
    (closeFrom opener closer depth i (s.text.drop i)).map s.shift)
    (fun i hi depth => ?_) (fun i a ha ha' ih depth => ?_) (fun ih depth => ?_) h depth
  · rw [drop_shift_of_length_le hi, drop_of_length_le hi]
    rfl
  · rw [drop_of_getElem? ha, drop_of_getElem? ha', closeFrom, closeFrom, ih, ih, ih]
    split
    · rfl
    · split
      · split <;> rfl
      · rfl
  · rw [drop_gap, closeFrom, if_neg (by simpa using hopener), if_neg (by simpa using hcloser), ih]

theorem blank_ne_of_closer? (h : closer? a = some b) : s.blank ≠ a ∧ s.blank ≠ b := by
  unfold closer? at h
  split at h <;> cases h <;> rcases s.indents with hb | hb <;> rw [hb] <;> decide

theorem blockEnd_of_none (h : t[i]?.bind closer? = none) : blockEnd t i = i := by
  unfold blockEnd matchDelimiter
  cases ha : t[i]? with
  | none => rfl
  | some a =>
    rw [ha, Option.bind_some] at h
    simp only [h]

theorem blockEnd_of_some (ha : t[i]? = some a) (hb : closer? a = some b) :
    blockEnd t i = (closeFrom a b 0 i (t.drop i)).getD (t.length - 1) := by
  unfold blockEnd matchDelimiter
  simp only [ha, hb]
  cases closeFrom a b 0 i (t.drop i) <;> rfl

theorem at_last_succ (h : i < s.text.length) : s.At (s.text.length - 1 + 1) (s.wide.length - 1 + 1) := by
  rw [Nat.sub_add_cancel (by omega), Nat.sub_add_cancel (by rw [length_wide]; omega), ← shift_length_text]
  exact s.at_shift _

theorem blockEnd_cases (s : Seam) (i : Nat) : blockEnd s.wide (s.shift i) = s.shift (blockEnd s.text i) ∨
    i < s.text.length ∧ blockEnd s.text i = s.text.length - 1 ∧ blockEnd s.wide (s.shift i) = s.wide.length - 1 := by
  cases h : s.text[i]?.bind closer? with
  | none => exact .inl (by rw [blockEnd_of_none h, blockEnd_of_none (by rwa [getElem?_shift])])
  | some b =>
    obtain ⟨a, ha, hb⟩ := Option.bind_eq_some_iff.mp h
    have hne := blank_ne_of_closer? (s := s) hb
    rw [blockEnd_of_some ha hb, blockEnd_of_some ((s.getElem?_shift i).trans ha) hb,
      closeFrom_at hne.1 hne.2 0 (s.at_shift i)]
    cases closeFrom a b 0 i (s.text.drop i) with
    | some n => exact .inl rfl
    | none => exact .inr ⟨(List.getElem?_eq_some_iff.mp ha).1, rfl, rfl⟩

theorem at_blockEnd_succ (s : Seam) (i : Nat) : s.At (blockEnd s.text i + 1) (blockEnd s.wide (s.shift i) + 1) := by
  rcases s.blockEnd_cases i with h | ⟨hi, h, h'⟩
  · rw [h]
    exact s.at_succ _
  · rw [h, h']
    exact at_last_succ hi

theorem blockEnd_shift (hs : s.post ≠ []) (i : Nat) : blockEnd s.wide (s.shift i) = s.shift (blockEnd s.text i) := by
  rcases s.blockEnd_cases i with h | ⟨-, h, h'⟩
  · exact h
  · have hpost : 0 < s.post.length := length_pos_iff.mpr hs
    have hlength : s.text.length = s.pre.length + s.post.length := length_append
    rw [h, h', shift_of_le (by omega), length_wide]
    omega

def pastBlanks (t : List Char) (i : Nat) : Nat := i + ((t.drop i).takeWhile isBlank).length

theorem pastBlanks_of_getElem? (h : t[i]? = some a) :
    pastBlanks t i = if isBlank a then pastBlanks t (i + 1) else i := by
  rw [pastBlanks, pastBlanks, drop_of_getElem? h]
  split
  · next ha =>
    rw [takeWhile_cons_of_pos ha, length_cons]
    omega
  · next ha =>
    rw [takeWhile_cons_of_neg ha]
    rfl

theorem pastBlanks_at (h : s.At i i') : pastBlanks s.wide i' = s.shift (pastBlanks s.text i) := by
  refine at_induction (P := fun i i' => pastBlanks s.wide i' = s.shift (pastBlanks s.text i))
    (fun i hi => ?_) (fun i a ha ha' ih => ?_) (fun ih => ?_) h
  · rw [pastBlanks, pastBlanks, drop_shift_of_length_le hi, drop_of_length_le hi]
    rfl
  · rw [pastBlanks_of_getElem? ha, pastBlanks_of_getElem? ha', ih]
    split <;> rfl
  · rw [pastBlanks_of_getElem? s.getElem?_gap, if_pos s.isBlank_blank, ih]

theorem blank_bne_dash (h : last ≠ some '-') : (some s.blank != some '-') = (last != some '-') := by
  rw [bne_iff_ne.mpr h]
  rcases s.indents with h | h <;> rw [h] <;> decide

theorem ne_dash_of_getElem? (ha : s.text[i]? = some a) (hi : i + 1 = s.pre.length) : some a ≠ some '-' := by
  rw [← ha, getElem?_newline hi]
  decide

/-- The ends of a parameter list. What matters about the character before a place is whether it is the
    dash of an arrow, and there is no dash before the start of a line. -/
theorem rel_angleFrom (depth : Nat)
    (hlast : (last' != some '-') = (last != some '-')) (hdash : i = s.pre.length → last ≠ some '-')
    (hi : 0 < i) (h : s.At i i') :
    Option.Rel (fun e e' => s.At (e + 1) (e' + 1)) (angleFrom last depth i (s.text.drop i))
      (angleFrom last' depth i' (s.wide.drop i')) := by
  refine at_induction (P := fun i i' => ∀ last last' depth, (last' != some '-') = (last != some '-') →
    (i = s.pre.length → last ≠ some '-') → 0 < i →
    Option.Rel (fun e e' => s.At (e + 1) (e' + 1)) (angleFrom last depth i (s.text.drop i))
      (angleFrom last' depth i' (s.wide.drop i')))
    (fun i hi last last' depth _ _ _ => ?_) (fun i a ha ha' ih last last' depth hlast _ hi => ?_)
    (fun ih last last' depth hlast hdash hi => ?_) h last last' depth hlast hdash hi
  · rw [drop_shift_of_length_le hi, drop_of_length_le hi]
    exact .none
  · have hgo (depth : Nat) := ih (some a) (some a) depth rfl (ne_dash_of_getElem? ha) (Nat.succ_pos i)
    rw [drop_of_getElem? ha, drop_of_getElem? ha', angleFrom, angleFrom, hlast]
    split
    · exact hgo _
    split
    · split
      · exact .some (s.at_succ i)
      · exact hgo _
    split
    · refine .some ?_
      rw [Nat.sub_add_cancel hi, Nat.sub_add_cancel (hi.trans_le le_shift)]
      exact s.at_shift i
    · exact hgo _
  · have hskip : angleFrom last' depth s.pre.length (s.wide.drop s.pre.length) =
        angleFrom (some s.blank) depth (s.pre.length + 1) (s.wide.drop (s.pre.length + 1)) := by
      rw [drop_gap, angleFrom]
      rcases s.indents with hb | hb <;> simp [hb]
    rw [hskip]
    exact ih last (some s.blank) depth (blank_bne_dash (hdash rfl)) hdash hi

theorem angleEnd_of_getElem? (h : t[i]? = some '<') :
    angleEnd t i = (angleFrom (some '<') 1 (i + 1) (t.drop (i + 1))).getD (t.length - 1) := by
  rw [angleEnd, drop_of_getElem? h, angleFrom, if_pos (by rfl)]
  cases angleFrom (some '<') (0 + 1) (i + 1) (t.drop (i + 1)) <;> rfl

theorem at_angleEnd_succ (h : s.text[i]? = some '<') :
    s.At (angleEnd s.text i + 1) (angleEnd s.wide (s.shift i) + 1) := by
  have hrel : Option.Rel (fun e e' => s.At (e + 1) (e' + 1)) (angleFrom (some '<') 1 (i + 1) (s.text.drop (i + 1)))
      (angleFrom (some '<') 1 (s.shift i + 1) (s.wide.drop (s.shift i + 1))) :=
    rel_angleFrom 1 rfl (fun _ => by decide) (Nat.succ_pos i) (s.at_succ i)
  rw [angleEnd_of_getElem? h, angleEnd_of_getElem? ((s.getElem?_shift i).trans h)]
  obtain ⟨he, he'⟩ | ⟨e, e', he, he', hat⟩ := rel_cases hrel
  · rw [he, he']
    exact at_last_succ (List.getElem?_eq_some_iff.mp h).1
  · rw [he, he']
    exact hat

theorem at_afterTypeParams (h : s.At i i') : s.At (afterTypeParams s.text i) (afterTypeParams s.wide i') := by
  have hpast := pastBlanks_at h
  show s.At (if s.text[pastBlanks s.text i]? == some '<' then angleEnd s.text (pastBlanks s.text i) + 1
      else pastBlanks s.text i)
    (if s.wide[pastBlanks s.wide i']? == some '<' then angleEnd s.wide (pastBlanks s.wide i') + 1
      else pastBlanks s.wide i')
  rw [hpast, getElem?_shift]
  split
  · next ha => exact at_angleEnd_succ (beq_iff_eq.mp ha)
  · exact s.at_shift _

theorem between_of_le {i : Nat} (h : j ≤ i) : between t i j = [] := by
  rw [between, Nat.sub_eq_zero_of_le h, take_zero]

theorem between_cons {i : Nat} (ha : t[i]? = some a) (h : i < j) : between t i j = a :: between t (i + 1) j := by
  rw [between, drop_of_getElem? ha, show j - i = j - (i + 1) + 1 by omega, take_succ_cons]
  rfl

theorem between_succ {i : Nat} (ha : t[j]? = some a) (h : i ≤ j) : between t i (j + 1) = between t i j ++ [a] := by
  have hget : (t.drop i)[j - i]? = some a := by rwa [getElem?_drop, Nat.add_sub_cancel' h]
  rw [between, Nat.succ_sub h, take_add_one, hget]
  rfl

theorem add_length_between {i : Nat} (h : i ≤ j) (hj : j ≤ t.length) : i + (between t i j).length = j := by
  rw [between, length_take, length_drop]
  omega

/-- Chunks between places that belong together, each with its place. -/
structure ChunkAt (s : Seam) (x x' : Nat × List Char) : Prop where
  start : s.At x.1 x'.1
  stop : s.At (x.1 + x.2.length) (x'.1 + x'.2.length)
  text : x.2 = between s.text x.1 (x.1 + x.2.length)
  wide : x'.2 = between s.wide x'.1 (x'.1 + x'.2.length)

structure ReadAt (s : Seam) (n n' c c' : Nat) (chunk chunk' : List Char) : Prop where
  start : s.At c c'
  stop : s.At n n'
  le : c ≤ n
  le' : c' ≤ n'
  le_length : n ≤ s.text.length
  le_length' : n' ≤ s.wide.length
  text : chunk.reverse = between s.text c n
  wide : chunk'.reverse = between s.wide c' n'

theorem ReadAt.chunkAt (h : s.ReadAt n n' c c' chunk chunk') : s.ChunkAt (c, chunk.reverse) (c', chunk'.reverse) := by
  have htext := add_length_between h.le h.le_length
  have hwide := add_length_between h.le' h.le_length'
  rw [← h.text] at htext
  rw [← h.wide] at hwide
  refine ⟨h.start, ?_, ?_, ?_⟩
  · rw [htext, hwide]
    exact h.stop
  · rw [htext]
    exact h.text
  · rw [hwide]
    exact h.wide

theorem isBracket_congr (h : (last' != some '-') = (last != some '-'))
    (a : Char) : isBracket last' a = isBracket last a ∧ depthStep last' a = depthStep last a := by
  rw [isBracket, isBracket, depthStep, depthStep, h]
  exact ⟨rfl, rfl⟩

theorem ReadAt.push (h : s.ReadAt i (s.shift i) c c' chunk chunk') (ha : s.text[i]? = some a) :
    s.ReadAt (i + 1) (s.shift i + 1) c c' (a :: chunk) (a :: chunk') where
  start := h.start
  stop := s.at_succ i
  le := Nat.le_succ_of_le h.le
  le' := Nat.le_succ_of_le h.le'
  le_length := (List.getElem?_eq_some_iff.mp ha).1
  le_length' := shift_lt (List.getElem?_eq_some_iff.mp ha).1
  text := by rw [reverse_cons, h.text, between_succ ha h.le]
  wide := by rw [reverse_cons, h.wide, between_succ ((s.getElem?_shift i).trans ha) h.le']

theorem ReadAt.push_blank (h : s.ReadAt s.pre.length s.pre.length c c' chunk chunk') :
    s.ReadAt s.pre.length (s.pre.length + 1) c c' chunk (s.blank :: chunk') :=
  { h with
    stop := .inl (shift_of_le (Nat.le_refl _)).symm
    le' := Nat.le_succ_of_le h.le'
    le_length' := s.length_pre_lt
    wide := by rw [reverse_cons, h.wide, between_succ s.getElem?_gap h.le'] }

theorem readAt_nil (hi : i < s.text.length) : s.ReadAt (i + 1) (s.shift i + 1) (i + 1) (s.shift i + 1) [] [] where
  start := s.at_succ i
  stop := s.at_succ i
  le := Nat.le_refl _
  le' := Nat.le_refl _
  le_length := hi
  le_length' := shift_lt hi
  text := (between_of_le (Nat.le_refl _)).symm
  wide := (between_of_le (Nat.le_refl _)).symm

theorem chunksFrom_gap {isSep : Char → Bool} (hsep : isSep ' ' = false ∧ isSep '\t' = false) {depth : Int}
    (hj : s.pre.length < j) : chunksFrom isSep last depth c chunk s.pre.length (between s.wide s.pre.length j) =
      chunksFrom isSep (some s.blank) depth c (s.blank :: chunk) (s.pre.length + 1)
        (between s.wide (s.pre.length + 1) j) := by
  rw [between_cons s.getElem?_gap hj, chunksFrom]
  rcases s.indents with hb | hb <;> simp [hb, isBracket, hsep]

theorem forall₂_chunksFrom {isSep : Char → Bool} (hsep : isSep ' ' = false ∧ isSep '\t' = false)
    {j' : Nat} (hj : s.At j j') {depth : Int} (hlast : (last' != some '-') = (last != some '-'))
    (hdash : n = s.pre.length → last ≠ some '-') (h : s.ReadAt n n' c c' chunk chunk') :
    Forall₂ s.ChunkAt (chunksFrom isSep last depth c chunk n (between s.text n j))
      (chunksFrom isSep last' depth c' chunk' n' (between s.wide n' j')) := by
  refine at_induction (P := fun n n' => ∀ c c' chunk chunk' last last' depth,
    (last' != some '-') = (last != some '-') → (n = s.pre.length → last ≠ some '-') →
    s.ReadAt n n' c c' chunk chunk' →
    Forall₂ s.ChunkAt (chunksFrom isSep last depth c chunk n (between s.text n j))
      (chunksFrom isSep last' depth c' chunk' n' (between s.wide n' j')))
    (fun i hi c c' chunk chunk' last last' depth _ _ h => ?_)
    (fun i a ha ha' ih c c' chunk chunk' last last' depth hlast _ h => ?_)
    (fun ih c c' chunk chunk' last last' depth hlast hdash h => ?_)
    h.stop c c' chunk chunk' last last' depth hlast hdash h
  · have hnil : between s.text i j = [] := by
      rw [between, drop_of_length_le hi, take_nil]
    have hnil' : between s.wide (s.shift i) j' = [] := by
      rw [between, drop_shift_of_length_le hi, take_nil]
    rw [hnil, hnil']
    exact .cons h.chunkAt .nil
  · by_cases hij : i < j
    · have hi : i < s.text.length := (List.getElem?_eq_some_iff.mp ha).1
      rw [between_cons ha hij, between_cons ha' ((shift_lt_iff hj).mpr hij), chunksFrom, chunksFrom,
        (isBracket_congr hlast a).1, (isBracket_congr hlast a).2]
      split
      · exact ih _ _ _ _ _ _ _ rfl (ne_dash_of_getElem? ha) (h.push ha)
      split
      · exact .cons h.chunkAt (ih _ _ _ _ _ _ _ rfl (ne_dash_of_getElem? ha) (readAt_nil hi))
      · exact ih _ _ _ _ _ _ _ rfl (ne_dash_of_getElem? ha) (h.push ha)
    · rw [between_of_le (not_lt.mp hij), between_of_le (not_lt.mp (mt (shift_lt_iff hj).mp hij))]
      exact .cons h.chunkAt .nil
  · by_cases hj' : s.pre.length < j'
    · rw [chunksFrom_gap hsep hj']
      exact ih _ _ _ _ _ _ _ (blank_bne_dash (hdash rfl)) hdash h.push_blank
    · have hle : j ≤ s.pre.length := by
        rcases hj with rfl | ⟨rfl, -⟩
        · exact (le_shift (s := s)).trans (by omega)
        · exact Nat.le_refl _
      rw [between_of_le hle, between_of_le (not_lt.mp hj')]
      exact .cons h.chunkAt .nil

end Seam

end ContractAudit.Source

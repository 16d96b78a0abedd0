import Mathlib.Data.List.TakeDrop
import Mathlib.Data.Option.Basic
import Mathlib.Order.Monotone.Basic
import ContractAudit.Source.Parser

/-! # A blank at the start of a line

A seam is a place at the start of a line, with a space or a tab that can be put in there: which places of
the text with the blank (`wide`) belong to which of the text without it (`text`). -/

namespace ContractAudit.Source
open Text List

section
variable {α β : Type} {R : α → β → Prop} {x y : Option α} {x' y' : Option β}

theorem rel_or (hx : Option.Rel R x x') (hy : Option.Rel R y y') : Option.Rel R (x.or y) (x'.or y') := by
  cases hx with
  | some h => exact .some h
  | none => exact hy

theorem rel_orElse (hx : Option.Rel R x x') (hy : Option.Rel R y y') : Option.Rel R (x <|> y) (x' <|> y') := by
  rw [Option.orElse_eq_orElse, Option.orElse_eq_or, Option.orElse_eq_orElse, Option.orElse_eq_or]
  exact rel_or hx hy

theorem eq_none_of_rel (h : Option.Rel R none y') : y' = none := by
  cases h
  rfl

theorem exists_of_rel {a : α} (h : Option.Rel R (some a) y') : ∃ b, y' = some b ∧ R a b := by
  cases h with
  | some h => exact ⟨_, rfl, h⟩

section
variable (h : Option.Rel R x x')
include h

theorem rel_cases : x = none ∧ x' = none ∨ ∃ a b, x = some a ∧ x' = some b ∧ R a b := by
  cases h with
  | none => exact .inl ⟨rfl, rfl⟩
  | some h => exact .inr ⟨_, _, rfl, rfl, h⟩

theorem map_eq_of_rel {γ : Type} {f : α → γ} {g : β → γ} (hfg : ∀ a b, R a b → g b = f a) : x'.map g = x.map f := by
  cases h with
  | some h => exact congrArg some (hfg _ _ h)
  | none => rfl

theorem rel_imp {S : α → β → Prop} (hS : ∀ a b, x = some a → R a b → S a b) : Option.Rel S x x' := by
  cases h with
  | some h => exact .some (hS _ _ rfl h)
  | none => exact .none

theorem rel_bind {γ δ : Type} {S : γ → δ → Prop} {f : α → Option γ} {g : β → Option δ}
    (hfg : ∀ a b, x = some a → R a b → Option.Rel S (f a) (g b)) : Option.Rel S (x.bind f) (x'.bind g) := by
  cases h with
  | some h => exact hfg _ _ rfl h
  | none => exact .none

theorem isSome_of_rel : x.isSome = x'.isSome := by
  cases h <;> rfl

end

end

/-- The place that belongs to a place if a character is put in at the place `c`. What stood at `c`
    stands behind that character. -/
def shiftAt (c i : Nat) : Nat := if i < c then i else i + 1

/-- At the place of the new character, the place before it will do as well. -/
def Beside (c i i' : Nat) : Prop := i' = shiftAt c i ∨ (i = c ∧ i' = c)

section
variable {c i : Nat}

theorem shiftAt_of_lt (h : i < c) : shiftAt c i = i := if_pos h

theorem shiftAt_of_le (h : c ≤ i) : shiftAt c i = i + 1 := if_neg (by omega)

theorem strictMono_shiftAt (c : Nat) : StrictMono (shiftAt c) := by
  intro i j h
  unfold shiftAt
  split <;> split <;> omega

theorem shiftAt_succ (h : i + 1 ≠ c) : shiftAt c (i + 1) = shiftAt c i + 1 := by
  unfold shiftAt
  split <;> split <;> omega

theorem beside_shiftAt (c i : Nat) : Beside c i (shiftAt c i) := .inl rfl

theorem beside_zero (c : Nat) : Beside c 0 0 := by
  by_cases h : 0 < c
  · exact .inl (shiftAt_of_lt h).symm
  · exact .inr ⟨by omega, by omega⟩

theorem beside_succ (c i : Nat) : Beside c (i + 1) (shiftAt c i + 1) := by
  by_cases h : i + 1 = c
  · refine .inr ⟨h, ?_⟩
    rw [shiftAt_of_lt (by omega), h]
  · exact .inl (shiftAt_succ h).symm

theorem shiftAt_lt_iff {j j' : Nat} (h : Beside c j j') : shiftAt c i < j' ↔ i < j := by
  rcases h with rfl | ⟨rfl, rfl⟩
  · exact (strictMono_shiftAt c).lt_iff_lt
  · unfold shiftAt
    split <;> omega

theorem beside_skip (c i j : Nat) :
    Beside c (i + 1 + (j - i - 1)) (shiftAt c i + 1 + (shiftAt c j - shiftAt c i - 1)) := by
  by_cases hij : i < j
  · have hij' : shiftAt c i < shiftAt c j := strictMono_shiftAt c hij
    rw [show i + 1 + (j - i - 1) = j by omega,
      show shiftAt c i + 1 + (shiftAt c j - shiftAt c i - 1) = shiftAt c j by omega]
    exact beside_shiftAt c j
  · have hji : shiftAt c j ≤ shiftAt c i := (strictMono_shiftAt c).monotone (by omega)
    rw [show i + 1 + (j - i - 1) = i + 1 by omega,
      show shiftAt c i + 1 + (shiftAt c j - shiftAt c i - 1) = shiftAt c i + 1 by omega]
    exact beside_succ c i

end

/-- A text that is cut at the start of a line, and a space or tab to be put in there. -/
structure Seam where
  pre : List Char
  blank : Char
  post : List Char
  indents : blank = ' ' ∨ blank = '\t'
  ends : ∀ c, pre.getLast? = some c → c = '\n'

namespace Seam
variable (s : Seam)

def text : List Char := s.pre ++ s.post

def wide : List Char := s.pre ++ s.blank :: s.post

/-- The place in the text with the blank that belongs to a place in the text without it. The start of
    the line belongs to the place after the blank. -/
def shift (i : Nat) : Nat := shiftAt s.pre.length i

/-- Where the line starts, both the place before the blank and the place after it will do. -/
def At (i i' : Nat) : Prop := i' = s.shift i ∨ (i = s.pre.length ∧ i' = s.pre.length)

theorem isBlank_blank : isBlank s.blank = true := by
  rcases s.indents with h | h <;> rw [h] <;> decide

theorem blank_ne_newline : s.blank ≠ '\n' := by
  rcases s.indents with h | h <;> rw [h] <;> decide

theorem pre_eq : s.pre = [] ∨ ∃ p, s.pre = p ++ ['\n'] := by
  rcases eq_nil_or_concat s.pre with h | ⟨p, c, h⟩
  · exact .inl h
  · have hc : c = '\n' := s.ends c (by rw [h, concat_eq_append, getLast?_concat])
    exact .inr ⟨p, by rw [h, hc, concat_eq_append]⟩

variable {s} {i j : Nat}

theorem shift_of_lt (h : i < s.pre.length) : s.shift i = i := shiftAt_of_lt h

theorem shift_of_le (h : s.pre.length ≤ i) : s.shift i = i + 1 := shiftAt_of_le h

theorem strictMono_shift : StrictMono s.shift := strictMono_shiftAt _

theorem shift_lt_iff {j' : Nat} (h : s.At j j') : s.shift i < j' ↔ i < j := shiftAt_lt_iff h

theorem shift_succ (h : i + 1 ≠ s.pre.length) : s.shift (i + 1) = s.shift i + 1 := shiftAt_succ h

theorem at_shift (s : Seam) (i : Nat) : s.At i (s.shift i) := beside_shiftAt _ _

theorem at_zero (s : Seam) : s.At 0 0 := beside_zero _

theorem at_succ (s : Seam) (i : Nat) : s.At (i + 1) (s.shift i + 1) := beside_succ _ _

theorem length_wide : s.wide.length = s.text.length + 1 := by
  simp only [wide, text, length_append, length_cons]
  omega

theorem shift_length_text : s.shift s.text.length = s.wide.length := by
  rw [length_wide]
  exact shift_of_le (by simp [text])

theorem le_shift : i ≤ s.shift i := by
  unfold shift shiftAt
  split <;> omega

theorem shift_le (hi : i ≤ s.text.length) : s.shift i ≤ s.wide.length := by
  rw [← shift_length_text]
  exact strictMono_shift.monotone hi

theorem shift_lt (hi : i < s.text.length) : s.shift i < s.wide.length := by
  rw [← shift_length_text]
  exact strictMono_shift hi

theorem length_pre_lt (s : Seam) : s.pre.length < s.wide.length := by simp [wide]

theorem getElem?_shift (s : Seam) (i : Nat) : s.wide[s.shift i]? = s.text[i]? := by
  unfold shift shiftAt text wide
  split
  · next h => rw [getElem?_append_left h, getElem?_append_left h]
  · next h =>
    rw [getElem?_append_right (by omega), getElem?_append_right (by omega),
      Nat.succ_sub (by omega), getElem?_cons_succ]

theorem getElem?_gap (s : Seam) : s.wide[s.pre.length]? = some s.blank := by
  rw [wide, getElem?_append_right (Nat.le_refl _), Nat.sub_self, getElem?_cons_zero]

theorem getElem?_newline (h : i + 1 = s.pre.length) : s.text[i]? = some '\n' := by
  rcases s.pre_eq with hp | ⟨p, hp⟩
  · rw [hp] at h
    cases h
  · have hi : i = p.length := by
      rw [hp, length_append, length_singleton] at h
      omega
    rw [text, hp, hi, append_assoc, getElem?_append_right (Nat.le_refl _), Nat.sub_self]
    rfl

end Seam

/-- The texts are the same, or the second has one blank more, at the start of a line. -/
def Widens (u u' : List Char) : Prop := u = u' ∨ ∃ s : Seam, s.text = u ∧ s.wide = u'

namespace Widens

theorem refl (u : List Char) : Widens u u := .inl rfl

theorem of_seam (s : Seam) : Widens s.text s.wide := .inr ⟨s, rfl, rfl⟩

end Widens

/-- The texts are the same, or the second has one blank more, after a newline. -/
def WidensInside (u u' : List Char) : Prop := u = u' ∨ ∃ s : Seam, s.pre ≠ [] ∧ s.text = u ∧ s.wide = u'

theorem WidensInside.widens {u u' : List Char} (h : WidensInside u u') : Widens u u' :=
  h.imp_right fun ⟨s, _, hu⟩ => ⟨s, hu⟩

namespace Seam
variable {s : Seam} {i j i' j' : Nat}

def ofSuffix (s : Seam) (pre : List Char) (h : pre <:+ s.pre) : Seam where
  pre := pre
  blank := s.blank
  post := s.post
  indents := s.indents
  ends c hc := by
    obtain ⟨q, hq⟩ := h
    refine s.ends c ?_
    rw [← hq, getLast?_append, hc]
    rfl

def dropPre (s : Seam) (i : Nat) : Seam := s.ofSuffix (s.pre.drop i) (drop_suffix ..)

def withPost (s : Seam) (post : List Char) : Seam := { s with post := post }

section
variable (h : s.pre.length ≤ i)
include h

theorem take_text_of_le : s.text.take i = (s.withPost (s.post.take (i - s.pre.length))).text := by
  rw [text, text, take_append, take_of_length_le (l := s.pre) h]
  rfl

theorem take_wide_of_le : s.wide.take (i + 1) = (s.withPost (s.post.take (i - s.pre.length))).wide := by
  rw [wide, wide, take_append, take_of_length_le (l := s.pre) (by omega), Nat.succ_sub h, take_succ_cons]
  rfl

theorem drop_text_of_le : s.text.drop i = s.post.drop (i - s.pre.length) := by
  rw [text, drop_append, drop_of_length_le (l := s.pre) h, nil_append]

theorem drop_wide_of_le : s.wide.drop (i + 1) = s.post.drop (i - s.pre.length) := by
  rw [wide, drop_append, drop_of_length_le (l := s.pre) (by omega), Nat.succ_sub h, drop_succ_cons, nil_append]

end

theorem drop_text_of_lt (h : i < s.pre.length) : s.text.drop i = (s.dropPre i).text :=
  drop_append_of_le_length (by omega)

theorem drop_wide_of_lt (h : i < s.pre.length) : s.wide.drop i = (s.dropPre i).wide :=
  drop_append_of_le_length (by omega)

theorem take_of_le (h : i ≤ s.pre.length) : s.wide.take i = s.text.take i := by
  rw [text, wide, take_append_of_le_length h, take_append_of_le_length h]

theorem take_cases (h : s.At i i') : s.text.take i = s.wide.take i' ∨
    ∃ post, (s.withPost post).text = s.text.take i ∧ (s.withPost post).wide = s.wide.take i' := by
  rcases h with rfl | ⟨rfl, rfl⟩
  · by_cases h : i < s.pre.length
    · rw [shift_of_lt h, take_of_le h.le]
      exact .inl rfl
    · rw [shift_of_le (by omega), take_text_of_le (by omega), take_wide_of_le (by omega)]
      exact .inr ⟨_, rfl, rfl⟩
  · exact .inl (take_of_le (Nat.le_refl _)).symm

theorem widens_take (h : s.At i i') : Widens (s.text.take i) (s.wide.take i') :=
  (take_cases h).imp_right fun ⟨_, h⟩ => ⟨_, h⟩

theorem inside_take (hs : s.pre ≠ []) (h : s.At i i') : WidensInside (s.text.take i) (s.wide.take i') :=
  (take_cases h).imp_right fun ⟨post, h⟩ => ⟨s.withPost post, hs, h⟩

def atStart (s : Seam) : Seam := s.ofSuffix [] nil_suffix

theorem drop_text_pre (s : Seam) : s.text.drop s.pre.length = s.atStart.text := by
  rw [text, drop_left]
  rfl

theorem drop_wide_pre (s : Seam) : s.wide.drop s.pre.length = s.atStart.wide := by
  rw [wide, drop_left]
  rfl

theorem widens_drop (h : s.At i i') : Widens (s.text.drop i) (s.wide.drop i') := by
  rcases h with rfl | ⟨rfl, rfl⟩
  · by_cases h : i < s.pre.length
    · rw [shift_of_lt h, drop_text_of_lt h, drop_wide_of_lt h]
      exact .of_seam _
    · rw [shift_of_le (by omega), drop_text_of_le (by omega), drop_wide_of_le (by omega)]
      exact .refl _
  · rw [drop_text_pre, drop_wide_pre]
    exact .of_seam _

theorem At.sub {k : Nat} (h : s.At (k + i) j) (hk : k < s.pre.length) : (s.dropPre k).At i (j - k) := by
  have hlength : (s.dropPre k).pre.length = s.pre.length - k := length_drop ..
  rcases h with rfl | ⟨hi, rfl⟩
  · refine .inl ?_
    unfold shift shiftAt
    rw [hlength]
    split <;> split <;> omega
  · exact .inr ⟨by omega, by omega⟩

theorem At.sub_atStart (h : s.At j j') : s.atStart.At (j - s.pre.length) (j' - s.pre.length) := by
  rcases h with rfl | ⟨rfl, rfl⟩
  · by_cases hj : j < s.pre.length
    · rw [shift_of_lt hj]
      exact .inr ⟨Nat.sub_eq_zero_of_le hj.le, Nat.sub_eq_zero_of_le hj.le⟩
    · rw [shift_of_le (by omega), Nat.succ_sub (by omega)]
      exact .inl rfl
  · exact .inr ⟨Nat.sub_self _, Nat.sub_self _⟩

theorem inside_between (i : Nat) (hj : s.At j j') :
    WidensInside (between s.text i j) (between s.wide (s.shift i) j') := by
  unfold between
  by_cases h : i < s.pre.length
  · rw [shift_of_lt h, drop_text_of_lt h, drop_wide_of_lt h]
    by_cases hij : i ≤ j
    · refine inside_take ?_ (At.sub (by rwa [Nat.add_sub_cancel' hij]) h)
      exact ne_nil_of_length_pos (by rw [dropPre, ofSuffix, length_drop]; omega)
    · have hj' : j' = j := by
        rcases hj with rfl | ⟨rfl, -⟩
        · exact shift_of_lt (by omega)
        · omega
      rw [hj', Nat.sub_eq_zero_of_le (by omega), take_zero, take_zero]
      exact .inl rfl
  · have hlength : j' - (i + 1) = j - i := by
      rcases hj with rfl | ⟨rfl, rfl⟩
      · unfold shift shiftAt
        split <;> omega
      · omega
    rw [shift_of_le (by omega), drop_text_of_le (by omega), drop_wide_of_le (by omega), hlength]
    exact .inl rfl

theorem widens_between (hi : s.At i i') (hj : s.At j j') : Widens (between s.text i j) (between s.wide i' j') := by
  rcases hi with rfl | ⟨rfl, rfl⟩
  · exact (inside_between i hj).widens
  · rw [between, between, drop_text_pre, drop_wide_pre]
    exact widens_take hj.sub_atStart

theorem between_shift_of_le (h : s.pre.length ≤ i) (j : Nat) :
    between s.wide (s.shift i) (s.shift j) = between s.text i j := by
  have hlength : s.shift j - (i + 1) = j - i := by
    unfold shift shiftAt
    split <;> omega
  rw [between, between, shift_of_le h, drop_wide_of_le h, drop_text_of_le h, hlength]

theorem between_eq_drop (t : List Char) (i j : Nat) : between t i j = (t.take j).drop i := by
  rw [between, drop_take]

theorem between_shift (h : '\n' ∉ between s.text i j) :
    between s.wide (s.shift i) (s.shift j) = between s.text i j := by
  by_cases hi : s.pre.length ≤ i
  · exact between_shift_of_le hi j
  · by_cases hj : s.pre.length ≤ j
    · refine absurd (mem_of_getElem? (i := s.pre.length - 1 - i) ?_) h
      rw [between, getElem?_take_of_lt (by omega), getElem?_drop]
      exact getElem?_newline (by omega)
    · rw [between_eq_drop, between_eq_drop, shift_of_lt (by omega), shift_of_lt (by omega), take_of_le (by omega)]

end Seam

theorem consWord_append (v : List Char) (x y : List (List Char)) : consWord v (x ++ y) = consWord v x ++ y := by
  unfold consWord
  split <;> rfl

/-- White space ends a word, so the words before it and after it are read apart. -/
theorem wordsFrom_append_blank {c : Char} (hc : isBlank c = true) (v x y : List Char) :
    wordsFrom v (x ++ c :: y) = wordsFrom v x ++ words y := by
  induction x generalizing v with
  | nil =>
    rw [nil_append, wordsFrom.eq_2, if_pos hc, wordsFrom.eq_1, ← consWord_append]
    rfl
  | cons d x ih =>
    rw [cons_append, wordsFrom, wordsFrom]
    split
    · rw [ih, consWord_append]
    · exact ih _

theorem words_append_blank {c : Char} (hc : isBlank c = true) (x y : List Char) :
    words (x ++ c :: y) = words x ++ words y := wordsFrom_append_blank hc [] x y

namespace Widens
variable {u u' : List Char}

section
variable (h : Widens u u')
include h

theorem words_eq : words u' = words u := by
  rcases h with rfl | ⟨s, rfl, rfl⟩
  · rfl
  · rw [Seam.wide, words_append_blank s.isBlank_blank, Seam.text]
    rcases s.pre_eq with hp | ⟨p, hp⟩
    · rw [hp]
      rfl
    · have hnil : words [] = [] := rfl
      have hn : isBlank '\n' = true := by decide
      rw [hp, words_append_blank hn, hnil, append_nil, append_assoc, singleton_append, words_append_blank hn]

theorem collapse_eq : collapse u' = collapse u := by
  rw [collapse, collapse, h.words_eq]

theorem filter_eq : u'.filter (!isBlank ·) = u.filter (!isBlank ·) := by
  rcases h with rfl | ⟨s, rfl, rfl⟩
  · rfl
  · simp [Seam.text, Seam.wide, s.isBlank_blank]

theorem all_isBlank : u'.all isBlank = u.all isBlank := by
  rcases h with rfl | ⟨s, rfl, rfl⟩
  · rfl
  · simp [Seam.text, Seam.wide, s.isBlank_blank]

theorem count_newline : u'.count '\n' = u.count '\n' := by
  rcases h with rfl | ⟨s, rfl, rfl⟩
  · rfl
  · simp [Seam.text, Seam.wide, s.blank_ne_newline]

end

end Widens

namespace WidensInside
variable {u u' : List Char}

theorem append (h : WidensInside u u') (a b : List Char) : WidensInside (a ++ u ++ b) (a ++ u' ++ b) := by
  rcases h with rfl | ⟨s, hs, rfl, rfl⟩
  · exact .inl rfl
  · refine .inr ⟨⟨a ++ s.pre, s.blank, s.post ++ b, s.indents, fun c hc => s.ends c ?_⟩, ?_, ?_, ?_⟩
    · rw [getLast?_append, getLast?_eq_some_getLast hs, Option.some_or] at hc
      rw [getLast?_eq_some_getLast hs, hc]
    · exact fun h => hs (append_eq_nil_iff.mp h).2
    · simp [Seam.text]
    · simp [Seam.wide]

theorem head?_eq (h : WidensInside u u') : u'.head? = u.head? := by
  rcases h with rfl | ⟨s, hs, rfl, rfl⟩
  · rfl
  · obtain ⟨c, p, hp⟩ := exists_cons_of_ne_nil hs
    rw [Seam.text, Seam.wide, hp]
    rfl

end WidensInside

theorem Widens.inside_trimStart {u u' : List Char} (h : Widens u u') : WidensInside (trimStart u) (trimStart u') := by
  rcases h with rfl | ⟨s, rfl, rfl⟩
  · exact .inl rfl
  · rw [trimStart, trimStart, Seam.text, Seam.wide, dropWhile_append, dropWhile_append]
    split
    · rw [dropWhile_cons_of_pos s.isBlank_blank]
      exact .inl rfl
    · next h =>
      exact .inr ⟨s.ofSuffix _ (dropWhile_suffix _), fun hnil => h (List.isEmpty_iff.mpr hnil), rfl, rfl⟩

theorem Seam.trimEnd_eq (s : Seam) : trimEnd s.wide = trimEnd s.text ∨
    trimEnd s.post ≠ [] ∧ trimEnd s.text = (s.withPost (trimEnd s.post)).text ∧
      trimEnd s.wide = (s.withPost (trimEnd s.post)).wide := by
  have hsplit (x y : List Char) : trimEnd (x ++ y) =
      if (y.reverse.dropWhile isBlank).isEmpty then trimEnd x else x ++ trimEnd y := by
    rw [trimEnd, reverse_append, dropWhile_append]
    split
    · rfl
    · rw [reverse_append, reverse_reverse]
      rfl
  have hblank : trimEnd (s.pre ++ [s.blank]) = trimEnd s.pre := by
    rw [hsplit, if_pos (by simp [s.isBlank_blank])]
  have hwide : s.wide = s.pre ++ [s.blank] ++ s.post := by simp [wide]
  rw [hwide, text, hsplit (s.pre ++ [s.blank]), hsplit s.pre s.post, hblank]
  split
  · exact .inl rfl
  · next h =>
    refine .inr ⟨fun hnil => h ?_, rfl, by simp [wide, withPost]⟩
    rw [trimEnd, reverse_eq_nil_iff] at hnil
    rw [hnil, isEmpty_nil]

theorem WidensInside.inside_trimEnd {u u' : List Char} (h : WidensInside u u') :
    WidensInside (trimEnd u) (trimEnd u') := by
  rcases h with rfl | ⟨s, hs, rfl, rfl⟩
  · exact .inl rfl
  · rcases s.trimEnd_eq with h | ⟨-, htext, hwide⟩
    · exact .inl h.symm
    · exact .inr ⟨s.withPost (trimEnd s.post), hs, htext.symm, hwide.symm⟩

theorem Widens.inside_trim {u u' : List Char} (h : Widens u u') : WidensInside (Text.trim u) (Text.trim u') :=
  h.inside_trimStart.inside_trimEnd

end ContractAudit.Source

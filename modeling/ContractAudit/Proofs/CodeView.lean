import ContractAudit.Proofs.Lexemes
import ContractAudit.Source.Unit

/-! # What masked code shows

Two sources that are masked alike show the same items. A masked text is its source with blanks in place of
some characters, none of them a newline (`blanksOut_mask`). -/

namespace ContractAudit.Source
open Text List

section
variable {α β : Type} {R : α → β → Prop} {p : α → Bool} {q : β → Bool} {l : List α} {l' : List β}

theorem any_of_forall₂ (h : Forall₂ R l l') (hp : ∀ a b, R a b → p a = q b) : l.any p = l'.any q := by
  induction h with
  | nil => rfl
  | cons hab _ ih => rw [any_cons, any_cons, hp _ _ hab, ih]

theorem find?_of_forall₂ (h : Forall₂ R l l') (hp : ∀ a b, R a b → p a = q b) :
    Option.Rel R (l.find? p) (l'.find? q) := by
  induction h with
  | nil => exact .none
  | @cons a b _ _ hab _ ih =>
    rw [find?_cons, find?_cons, hp a b hab]
    cases q b with
    | true => exact .some hab
    | false => exact ih

end

variable (t : List Char)

theorem splitLines_eq_splitOnChar : splitLines t = splitOnChar '\n' t := by
  induction t with
  | nil => rfl
  | cons c t ih =>
    rw [splitLines.eq_2, ih]
    rfl

theorem splitLines_ne_nil : splitLines t ≠ [] :=
  splitLines_eq_splitOnChar t ▸ splitOnChar_ne_nil '\n' t

theorem intercalate_splitLines : ['\n'].intercalate (splitLines t) = t :=
  splitLines_eq_splitOnChar t ▸ intercalate_splitOnChar '\n' t

theorem length_splitLines : (splitLines t).length = t.count '\n' + 1 :=
  splitLines_eq_splitOnChar t ▸ length_splitOnChar '\n' t

theorem splitLines_newline (p r : List Char) : splitLines (p ++ '\n' :: r) = splitLines p ++ splitLines r := by
  simp only [splitLines_eq_splitOnChar, splitOnChar_append]

variable {s m : List Char}

namespace BlanksOut

section
variable (h : BlanksOut s m)
include h

theorem getElem?_eq (i : Nat) : m[i]? = s[i]? ∨ m[i]? = some ' ' := by
  induction h generalizing i with
  | nil => exact .inl rfl
  | cons hc _ ih =>
    cases i with
    | zero =>
      rcases hc with rfl | ⟨rfl, -⟩
      · exact .inl rfl
      · exact .inr rfl
    | succ i => simpa using ih i

theorem getElem?_newline (i : Nat) : m[i]? = some '\n' ↔ s[i]? = some '\n' := by
  induction h generalizing i with
  | nil => rfl
  | cons hc _ ih =>
    cases i with
    | zero => simpa using newline_iff hc
    | succ i => simpa using ih i

theorem getLast?_newline : m.getLast? = some '\n' ↔ s.getLast? = some '\n' := by
  rw [getLast?_eq_getElem?, getLast?_eq_getElem?, h.length_eq]
  exact h.getElem?_newline _

theorem splitLines : Forall₂ BlanksOut (splitLines s) (splitLines m) := by
  induction h with
  | nil => exact .cons .nil .nil
  | @cons c d s m hc _ ih =>
    rw [splitLines.eq_2, splitLines.eq_2]
    by_cases hnl : c = '\n'
    · rw [if_pos (by simpa using hnl), if_pos (by simpa using (newline_iff hc).mpr hnl)]
      exact .cons .nil ih
    · rw [if_neg (by simpa using hnl), if_neg (by simpa using mt (newline_iff hc).mp hnl)]
      generalize Source.splitLines s = ls at ih ⊢
      generalize Source.splitLines m = ks at ih ⊢
      cases ih with
      | nil => exact .cons (.cons hc .nil) .nil
      | cons hl hls => exact .cons (.cons hc hl) hls

theorem fileLines : Forall₂ BlanksOut (fileLines s) (fileLines m) := by
  have hlines := h.splitLines
  unfold Source.fileLines
  by_cases hlast : s.getLast? = some '\n'
  · rw [if_pos (by simpa using hlast), if_pos (by simpa using h.getLast?_newline.mpr hlast),
      dropLast_eq_take, dropLast_eq_take, hlines.length_eq]
    exact forall₂_take _ hlines
  · rw [if_neg (by simpa using hlast), if_neg (by simpa using mt h.getLast?_newline.mp hlast)]
    exact hlines

end

end BlanksOut

/-- What comes after the last line: its newline, if the text ends with one. -/
def lastBreak (s : List Char) : List Char := if s.getLast? = some '\n' then ['\n'] else []

theorem newline_not_mem_of_mem_splitLines {l : List Char} (h : l ∈ splitLines s) : '\n' ∉ l :=
  not_mem_of_mem_splitOnChar (splitLines_eq_splitOnChar s ▸ h)

theorem fileLines_concat (s : List Char) : fileLines (s ++ ['\n']) = splitLines s := by
  rw [fileLines, if_pos (by simp), splitLines_newline]
  exact dropLast_concat

theorem fileLines_of_getLast? (h : s.getLast? ≠ some '\n') : fileLines s = splitLines s := by
  rw [fileLines, if_neg (by simpa using h)]

theorem newline_not_mem_of_mem_fileLines {l : List Char} (h : l ∈ fileLines s) : '\n' ∉ l := by
  unfold fileLines at h
  split at h
  · exact newline_not_mem_of_mem_splitLines (dropLast_subset _ h)
  · exact newline_not_mem_of_mem_splitLines h

theorem intercalate_fileLines (s : List Char) : ['\n'].intercalate (fileLines s) ++ lastBreak s = s := by
  by_cases hlast : s.getLast? = some '\n'
  · obtain ⟨s, rfl⟩ := getLast?_eq_some_iff.mp hlast
    rw [fileLines_concat, intercalate_splitLines, lastBreak, if_pos hlast]
  · rw [fileLines_of_getLast? hlast, intercalate_splitLines, lastBreak, if_neg hlast, append_nil]

theorem length_fileLines (s : List Char) :
    (fileLines s).length = s.count '\n' + if s.getLast? = some '\n' then 0 else 1 := by
  by_cases hlast : s.getLast? = some '\n'
  · obtain ⟨s, rfl⟩ := getLast?_eq_some_iff.mp hlast
    rw [fileLines_concat, length_splitLines, if_pos hlast, count_append]
    rfl
  · rw [fileLines_of_getLast? hlast, length_splitLines, if_neg hlast]

/-- A masked text is as long as its source, each of its characters is that of the source or a blank,
    and its newlines are those of the source. So the model has all lines of the source, numbered from
    1, each with the text and the code of one and the same line. -/
theorem masking_keeps_positions (text : String) :
    (maskText text).length = text.length ∧
    (∀ i : Nat, (maskText text).toList[i]? = text.toList[i]? ∨ (maskText text).toList[i]? = some ' ') ∧
    (∀ i : Nat, (maskText text).toList[i]? = some '\n' ↔ text.toList[i]? = some '\n') ∧
    ∃ rows : List (List Char × List Char),
      (∀ r ∈ rows, r.1.length = r.2.length ∧ '\n' ∉ r.1 ∧ '\n' ∉ r.2) ∧
      rows.length = text.toList.count '\n' + (if text.toList.getLast? = some '\n' then 0 else 1) ∧
      ['\n'].intercalate (rows.map (·.1)) ++ lastBreak text.toList = text.toList ∧
      ['\n'].intercalate (rows.map (·.2)) ++ lastBreak text.toList = (maskText text).toList ∧
      (Model.ofText text).lines = rows.zipIdx.map fun r =>
        ⟨r.2 + 1, String.ofList (dropReturns r.1.1), String.ofList (dropReturns r.1.2)⟩ := by
  have hmask : BlanksOut text.toList (maskText text).toList := by
    rw [maskText, String.toList_ofList]
    exact blanksOut_mask _
  have hlines := hmask.fileLines
  have hlength := hlines.length_eq
  have hraw : ((fileLines text.toList).zip (fileLines (maskText text).toList)).map (·.1) = _ :=
    List.map_fst_zip (Nat.le_of_eq hlength)
  have hcode : ((fileLines text.toList).zip (fileLines (maskText text).toList)).map (·.2) = _ :=
    List.map_snd_zip (Nat.le_of_eq hlength.symm)
  refine ⟨hmask.length_eq, hmask.getElem?_eq, hmask.getElem?_newline,
    (fileLines text.toList).zip (fileLines (maskText text).toList), fun r hr => ?_, ?_, ?_, ?_, ?_⟩
  · have hpair := (forall₂_iff_zip.mp hlines).2 hr
    exact ⟨hpair.length_eq.symm, newline_not_mem_of_mem_fileLines (List.of_mem_zip hr).1,
      newline_not_mem_of_mem_fileLines (List.of_mem_zip hr).2⟩
  · rw [List.length_zip, ← hlength, Nat.min_self, length_fileLines]
  · rw [hraw, intercalate_fileLines]
  · have hbreak : lastBreak text.toList = lastBreak (maskText text).toList := by
      simp only [lastBreak, hmask.getLast?_newline]
    rw [hcode, hbreak, intercalate_fileLines]
  · rw [maskText, String.toList_ofList]
    rfl

end ContractAudit.Source

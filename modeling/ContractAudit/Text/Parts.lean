/-! # Parts of a text -/

namespace ContractAudit.Text
open List

def splitOnChar (sep : Char) : List Char → List (List Char)
  | [] => [[]]
  | c :: s =>
    if c == sep then [] :: splitOnChar sep s
    else match splitOnChar sep s with
      | [] => [[c]]
      | p :: ps => (c :: p) :: ps

theorem splitOnChar_ne_nil (sep : Char) (s : List Char) : splitOnChar sep s ≠ [] := by
  cases s with
  | nil => simp [splitOnChar]
  | cons c s =>
    rw [splitOnChar]
    split
    · simp
    · split <;> simp

theorem intercalate_splitOnChar (sep : Char) (s : List Char) : [sep].intercalate (splitOnChar sep s) = s := by
  induction s with
  | nil => simp [splitOnChar]
  | cons c s ih =>
    rw [splitOnChar]
    cases h : splitOnChar sep s with
    | nil => exact absurd h (splitOnChar_ne_nil sep s)
    | cons p ps =>
      rw [h] at ih
      by_cases hc : c = sep
      · subst hc
        simp [intercalate_cons_cons, ih]
      · cases ps with
        | nil => simp_all
        | cons q qs => simp_all [intercalate_cons_cons]

variable {sep c : Char} {s part : List Char}

theorem mem_of_mem_intercalate {l : List (List Char)} (hpart : part ∈ l) (h : c ∈ part) : c ∈ [sep].intercalate l := by
  induction l with
  | nil => cases hpart
  | cons a l ih =>
    cases l with
    | nil =>
      obtain rfl := mem_singleton.mp hpart
      simpa using h
    | cons b l =>
      rw [intercalate_cons_cons]
      rcases mem_cons.mp hpart with rfl | hpart
      · exact mem_append_left _ (mem_append_left _ h)
      · exact mem_append_right _ (ih hpart)

theorem mem_intercalate {gap : List Char} {l : List (List Char)} (h : c ∈ gap.intercalate l) :
    c ∈ gap ∨ ∃ part ∈ l, c ∈ part := by
  induction l with
  | nil => cases h
  | cons a l ih =>
    cases l with
    | nil => exact Or.inr ⟨a, .head _, by simpa using h⟩
    | cons b l =>
      rw [intercalate_cons_cons, mem_append, mem_append] at h
      rcases h with (h | h) | h
      · exact Or.inr ⟨a, .head _, h⟩
      · exact Or.inl h
      · exact (ih h).imp_right fun ⟨part, hpart, hc⟩ => ⟨part, .tail _ hpart, hc⟩

theorem mem_of_mem_splitOnChar (hpart : part ∈ splitOnChar sep s) (h : c ∈ part) : c ∈ s :=
  intercalate_splitOnChar sep s ▸ mem_of_mem_intercalate hpart h

theorem not_mem_of_mem_splitOnChar (h : part ∈ splitOnChar sep s) : sep ∉ part := by
  induction s generalizing part with
  | nil => simp_all [splitOnChar]
  | cons c s ih =>
    rw [splitOnChar] at h
    split at h
    · rcases mem_cons.mp h with rfl | h
      · simp
      · exact ih h
    · next hc =>
      cases hs : splitOnChar sep s with
      | nil => exact absurd hs (splitOnChar_ne_nil sep s)
      | cons p ps =>
        rw [hs] at h ih
        rcases mem_cons.mp h with rfl | h
        · rw [mem_cons, not_or]
          exact ⟨fun heq => hc (by simp [heq]), ih (.head _)⟩
        · exact ih (.tail _ h)

theorem splitOnChar_of_not_mem (h : sep ∉ s) : splitOnChar sep s = [s] := by
  induction s with
  | nil => rfl
  | cons c s ih =>
    rw [mem_cons, not_or] at h
    rw [splitOnChar, if_neg (by simpa using Ne.symm h.1), ih h.2]

theorem length_splitOnChar (sep : Char) (s : List Char) : (splitOnChar sep s).length = s.count sep + 1 := by
  induction s with
  | nil => rfl
  | cons c s ih =>
    rw [splitOnChar, count_cons]
    split
    · rw [length_cons, ih]
    · split
      · next h => exact absurd h (splitOnChar_ne_nil sep s)
      · next h =>
        rw [h] at ih
        exact ih

theorem splitOnChar_append (sep : Char) (s r : List Char) :
    splitOnChar sep (s ++ sep :: r) = splitOnChar sep s ++ splitOnChar sep r := by
  induction s with
  | nil => simp [splitOnChar]
  | cons c s ih =>
    rw [cons_append, splitOnChar, splitOnChar, ih]
    split
    · rfl
    · cases h : splitOnChar sep s with
      | nil => exact absurd h (splitOnChar_ne_nil sep s)
      | cons p ps => rfl

theorem splitOnChar_append_cons (h : sep ∉ part) : splitOnChar sep (part ++ sep :: s) = part :: splitOnChar sep s := by
  rw [splitOnChar_append, splitOnChar_of_not_mem h, singleton_append]

theorem splitOnChar_intercalate {l : List (List Char)} (hne : l ≠ []) (h : ∀ part ∈ l, sep ∉ part) :
    splitOnChar sep ([sep].intercalate l) = l := by
  induction l with
  | nil => exact absurd rfl hne
  | cons a l ih =>
    cases l with
    | nil => simpa using splitOnChar_of_not_mem (h a (.head _))
    | cons b l =>
      rw [intercalate_cons_cons, append_assoc, singleton_append,
        splitOnChar_append_cons (h a (.head _)), ih (cons_ne_nil b l) fun part hp => h part (.tail _ hp)]

end ContractAudit.Text

import ContractAudit.Proofs.ItemSpans

/-! # Chunks at top level

A text is split exactly at the separators before which all brackets are closed. -/

namespace ContractAudit.Source
open List
variable {sep c : Char} {s : List Char} {j : Nat}

variable (s)

def opensAt (i : Nat) : Bool := s[i]?.any (['(', '[', '{', '<'].contains ·)

/-- The head of an arrow closes nothing. -/
def closesAt (i : Nat) : Bool :=
  s[i]?.any ([')', ']', '}'].contains ·) || s[i]? == some '>' && (i == 0 || s[i - 1]? != some '-')

def depthBefore (j : Nat) : Int := (range j).countP (opensAt s) - (range j).countP (closesAt s)

def lastBefore (j : Nat) : Option Char := if j = 0 then none else s[j - 1]?

variable {s}

theorem depthBefore_succ (h : s[j]? = some c) :
    depthBefore s (j + 1) = depthBefore s j + depthStep (lastBefore s j) c := by
  have harrow : (j == 0 || s[j - 1]? != some '-') = (lastBefore s j != some '-') := by
    rw [lastBefore]
    split <;> simp_all
  have hstep : depthStep (lastBefore s j) c = (if opensAt s j then 1 else 0) - (if closesAt s j then 1 else 0) := by
    rw [depthStep, opensAt, closesAt, h, harrow]
    grind
  rw [depthBefore, depthBefore, range_succ, countP_append, countP_append, countP_singleton, countP_singleton, hstep]
  split <;> split <;> omega

theorem depthStep_eq_zero {last : Option Char} (h : isBracket last c = false) : depthStep last c = 0 := by
  simp [isBracket] at h
  simp [depthStep, h.1]
  exact h.2

/-- The separators from an offset on before which all brackets are closed. -/
def splitPoints (sep : Char) (s : List Char) (n len : Nat) : List Nat :=
  (range' n len).filter fun j => s[j]? == some sep && depthBefore s j == 0

theorem offsets_chunksFrom (hsep : sep ∉ ['(', '[', '{', '<', ')', ']', '}', '>']) (s rest : List Char) (n start : Nat)
    (chunk : List Char) (hrest : s.drop n = rest) :
    (chunksFrom (· == sep) (lastBefore s n) (depthBefore s n) start chunk n rest).map (·.1) =
      start :: (splitPoints sep s n rest.length).map (· + 1) := by
  induction rest generalizing start chunk n with
  | nil => rfl
  | cons c rest ih =>
    have hc : s[n]? = some c := by rw [← head?_drop, hrest, head?_cons]
    have hrest' : s.drop (n + 1) = rest := by rw [← tail_drop, hrest, tail_cons]
    have hlast : some c = lastBefore s (n + 1) := hc.symm
    have hdepth := depthBefore_succ hc
    have hpoints : splitPoints sep s n (c :: rest).length =
        if c == sep && depthBefore s n == 0 then n :: splitPoints sep s (n + 1) rest.length
        else splitPoints sep s (n + 1) rest.length := by
      rw [splitPoints, length_cons, range'_succ, filter_cons, hc]
      rfl
    rw [chunksFrom, hlast, hpoints]
    split
    · next hbracket =>
      have hne : (c == sep) = false :=
        beq_eq_false_iff_ne.mpr fun e => hsep (e ▸ by simp [isBracket] at hbracket; grind)
      rw [← hdepth, ih _ _ _ hrest', hne]
      rfl
    next hbracket =>
    rw [depthStep_eq_zero (by simpa using hbracket), Int.add_zero] at hdepth
    rw [← hdepth]
    split
    · rw [map_cons, ih _ _ _ hrest']
      rfl
    · exact ih _ _ _ hrest'

theorem chunksFrom_ne_nil (isSep : Char → Bool) (last : Option Char) (depth : Int) (start n : Nat)
    (chunk l : List Char) :
    chunksFrom isSep last depth start chunk n l ≠ [] := by
  induction l generalizing last depth n chunk with
  | nil => simp [chunksFrom]
  | cons c l ih =>
    rw [chunksFrom]
    split
    · exact ih _ _ _ _
    · split
      · exact cons_ne_nil _ _
      · exact ih _ _ _ _

theorem intercalate_chunksFrom (sep : Char) (last : Option Char) (depth : Int) (start n : Nat) (chunk l : List Char) :
    [sep].intercalate ((chunksFrom (· == sep) last depth start chunk n l).map (·.2)) = chunk.reverse ++ l := by
  induction l generalizing last depth start n chunk with
  | nil => simp [chunksFrom]
  | cons c l ih =>
    rw [chunksFrom]
    split
    · rw [ih, reverse_cons, append_assoc, singleton_append]
    split
    · next hsplit =>
      obtain ⟨rfl, -⟩ : c = sep ∧ _ := by simpa using hsplit
      rw [map_cons, intercalate_cons_of_ne_nil (by simp [chunksFrom_ne_nil]), ih]
      simp
    · rw [ih, reverse_cons, append_assoc, singleton_append]

/-- Joined by the separator the chunks give the text back, each stands at its offset, and a separator
    ends a chunk exactly if all brackets before it are closed. -/
theorem chunks_exact (sep : Char) (s : List Char) : [sep].intercalate ((splitTopLevel (· == sep) s).map (·.2)) = s ∧
    (∀ c ∈ splitTopLevel (· == sep) s, ∃ a b, s = a ++ (c.2 ++ b) ∧ c.1 = a.length) ∧
    (sep ∉ ['(', '[', '{', '<', ')', ']', '}', '>'] → ∀ j, s[j]? = some sep →
      (j + 1 ∈ (splitTopLevel (· == sep) s).map (·.1) ↔ depthBefore s j = 0)) := by
  refine ⟨intercalate_chunksFrom sep none 0 0 0 [] s, fun c hc => ?_, fun hsep j hj => ?_⟩
  · obtain ⟨a, b, hab, hstart, -⟩ := exists_parts_of_mem_chunksFrom (u := []) (w := []) hc
    exact ⟨a, b, hab, hstart⟩
  · have hoffsets : (splitTopLevel (· == sep) s).map (·.1) = 0 :: (splitPoints sep s 0 s.length).map (· + 1) :=
      offsets_chunksFrom hsep s s 0 0 [] rfl
    obtain ⟨hlt, hget⟩ := List.getElem?_eq_some_iff.mp hj
    rw [hoffsets]
    simp [splitPoints, hlt, hget]

/-- The text is split at the comma after the arrow and not at the one in brackets. -/
theorem chunks_exact_arrow : 8 ∈ (splitTopLevel (· == ',') "(a,b)->,c".toList).map (·.1) ∧
    3 ∉ (splitTopLevel (· == ',') "(a,b)->,c".toList).map (·.1) := by
  have hsplit := (chunks_exact ',' "(a,b)->,c".toList).2.2 (by decide)
  exact ⟨(hsplit 7 (by decide)).mpr (by decide), fun h => absurd ((hsplit 2 (by decide)).mp h) (by decide)⟩

end ContractAudit.Source

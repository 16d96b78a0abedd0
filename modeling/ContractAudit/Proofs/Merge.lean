import ContractAudit.Proofs.Duplicates
import ContractAudit.Proofs.Sorting

/-! # Merging a group

The merged finding of a group is its preferred member with the evidence and the occurrences of all members,
sorted and each once. -/

namespace ContractAudit
open Std List
variable {l : Location} {s t : List Finding} {groups : List (List Finding)}
  {order : RuleOrder} {f g first first' : Finding} {rest rest' : List Finding}

theorem representative_cons (order : RuleOrder) (first g : Finding) (rest : List Finding) :
    representative order first (g :: rest) =
      representative order (if (preferenceCmp order first g).isLE then first else g) rest := rfl

theorem representative_mem (order : RuleOrder) (first : Finding) (rest : List Finding) :
    representative order first rest ∈ first :: rest := by
  induction rest generalizing first with
  | nil => exact mem_cons_self ..
  | cons g rest ih =>
    rw [representative_cons]
    split
    · rcases mem_cons.mp (ih first) with h | h
      · rw [h]
        exact mem_cons_self ..
      · exact mem_cons_of_mem _ (mem_cons_of_mem _ h)
    · exact mem_cons_of_mem _ (ih g)

/-- The representative is preferred to every member. -/
theorem representative_isLE (hg : g ∈ first :: rest) :
    (preferenceCmp order (representative order first rest) g).isLE = true := by
  induction rest generalizing first g with
  | nil =>
    rw [mem_singleton.mp hg]
    exact ReflCmp.isLE_rfl
  | cons b rest ih =>
    rw [representative_cons]
    by_cases h : (preferenceCmp order first b).isLE = true
    · rw [if_pos h]
      rcases mem_cons.mp hg with hg | hg
      · rw [hg]
        exact ih (mem_cons_self ..)
      rcases mem_cons.mp hg with hg | hg
      · rw [hg]
        exact TransCmp.isLE_trans (ih (mem_cons_self ..)) h
      · exact ih (mem_cons_of_mem _ hg)
    · rw [if_neg h]
      have hb : (preferenceCmp order b first).isLE = true := by
        simpa [h] using isLE_total (preferenceCmp order) first b
      rcases mem_cons.mp hg with hg | hg
      · rw [hg]
        exact TransCmp.isLE_trans (ih (mem_cons_self ..)) hb
      · exact ih hg

/-- The members alone decide on the representative, as no two of them tie. -/
theorem representative_congr (h : ∀ f, f ∈ first :: rest ↔ f ∈ first' :: rest') :
    representative order first rest = representative order first' rest' := by
  have hle : (preferenceCmp order (representative order first rest) (representative order first' rest')).isLE = true :=
    representative_isLE ((h _).mpr (representative_mem order first' rest'))
  have hge : (preferenceCmp order (representative order first' rest') (representative order first rest)).isLE = true :=
    representative_isLE ((h _).mp (representative_mem order first rest))
  exact LawfulEqCmp.eq_of_compare (OrientedCmp.isLE_antisymm hle hge)

theorem Severity.eq_of_rank_eq {a b : Severity} (h : a.rank = b.rank) : a = b := by
  cases a <;> cases b <;> simp_all [rank]

theorem Severity.rank_worse (a b : Severity) : (a.worse b).rank = max a.rank b.rank := by
  unfold worse
  split <;> omega

theorem rank_foldl_worse (s : Severity) (rest : List Finding) :
    s.rank ≤ (rest.foldl (fun s f => s.worse f.severity) s).rank ∧
      (∀ g ∈ rest, g.severity.rank ≤ (rest.foldl (fun s f => s.worse f.severity) s).rank) ∧
      (rest.foldl (fun s f => s.worse f.severity) s = s ∨
        ∃ g ∈ rest, rest.foldl (fun s f => s.worse f.severity) s = g.severity) := by
  induction rest generalizing s with
  | nil => simp
  | cons g rest ih =>
    obtain ⟨hs, hrest, hfrom⟩ := ih (s.worse g.severity)
    rw [Severity.rank_worse] at hs
    refine ⟨by rw [foldl_cons]; omega, ?_, ?_⟩
    · intro g' hg'
      rcases mem_cons.mp hg' with rfl | hg'
      · rw [foldl_cons]
        omega
      · exact hrest g' hg'
    · rw [foldl_cons]
      rcases hfrom with h | ⟨g', hg', h⟩
      · rw [h]
        unfold Severity.worse
        split
        · exact Or.inr ⟨g, mem_cons_self .., rfl⟩
        · exact Or.inl rfl
      · exact Or.inr ⟨g', mem_cons_of_mem _ hg', h⟩

theorem Evidence.isOrder_text : IsOrder fun a b : Evidence => decide (a.text ≤ b.text) where
  trans _ _ _ := ContractAudit.isOrder_text.trans _ _ _
  total _ _ := ContractAudit.isOrder_text.total _ _
  antisymm _ _ hab hba := text_inj (ContractAudit.isOrder_text.antisymm _ _ hab hba)

/-- Items with one text are equal. -/
theorem mergeEvidence_eq (items : List Evidence) :
    mergeEvidence items = items.eraseDups.mergeSort fun a b => decide (a.text ≤ b.text) := by
  have htext : (fun a b : Evidence => a.text == b.text) = fun a b => a == b := by
    funext a b
    rw [Bool.eq_iff_iff, beq_iff_eq, beq_iff_eq]
    exact ⟨Evidence.text_inj, congrArg Evidence.text⟩
  rw [mergeEvidence, htext]
  rfl

theorem mem_mergeEvidence {v : Evidence} {items : List Evidence} : v ∈ mergeEvidence items ↔ v ∈ items := by
  rw [mergeEvidence_eq, mem_mergeSort, mem_eraseDups]

theorem mergeEvidence_congr {items items' : List Evidence} (h : ∀ v, v ∈ items ↔ v ∈ items') :
    mergeEvidence items = mergeEvidence items' := by
  rw [mergeEvidence_eq, mergeEvidence_eq]
  exact mergeSort_eraseDups_congr Evidence.isOrder_text h

/-- The finding stands for the members: it is one of the most severe, with the evidence and the
    occurrences of all of them. -/
structure StandsFor (f : Finding) (member : Finding → Prop) : Prop where
  /-- All fields but evidence and occurrences are those of one member, its severity among them. -/
  origin : ∃ g, member g ∧ f = { g with evidence := f.evidence, occurrences := f.occurrences }
  worst : ∀ g, member g → g.severity ≤ f.severity
  mem_evidence : ∀ v, v ∈ f.evidence ↔ ∃ g, member g ∧ v ∈ g.evidence
  /-- The texts of the evidence ascend, so that no two of them are equal. -/
  evidence_sorted : (f.evidence.map Evidence.text).Pairwise (· < ·)
  mem_occurrences : ∀ l, l ∈ f.occurrences ↔ ∃ g, member g ∧ l ∈ g.occurrences
  occurrences_sorted : f.occurrences.Pairwise fun a b => (a.cmp b).isLE = true ∧ a ≠ b

theorem StandsFor.congr {member member' : Finding → Prop} (h : StandsFor f member)
    (hm : ∀ g, member g ↔ member' g) : StandsFor f member' := by
  rwa [← funext fun g => propext (hm g)]

variable [SetOrder]

theorem rank_le_mergeGroup (hg : g ∈ first :: rest) :
    g.severity.rank ≤ (mergeGroup order first rest).severity.rank := by
  obtain ⟨hfirst, hrest, -⟩ := rank_foldl_worse first.severity rest
  rcases mem_cons.mp hg with rfl | hg
  · exact hfirst
  · exact hrest g hg

/-- The representative is one of the most severe members. -/
theorem mergeGroup_severity (order : RuleOrder) (first : Finding) (rest : List Finding) :
    (mergeGroup order first rest).severity = (representative order first rest).severity := by
  apply Severity.eq_of_rank_eq
  apply Nat.le_antisymm
  · obtain ⟨-, -, h⟩ := rank_foldl_worse first.severity rest
    have hmem : ∃ g ∈ first :: rest, (mergeGroup order first rest).severity = g.severity := by
      rcases h with h | ⟨g, hg, h⟩
      · exact ⟨first, mem_cons_self .., h⟩
      · exact ⟨g, mem_cons_of_mem _ hg, h⟩
    obtain ⟨g, hg, hs⟩ := hmem
    rw [hs]
    exact rank_le_of_preferenceCmp (representative_isLE hg)
  · exact rank_le_mergeGroup (representative_mem order first rest)

/-- Each occurrence is kept once, in whatever order the set gave it. -/
theorem mergeOccurrences_perm (items : List Location) : (mergeOccurrences items).Perm items.eraseDups :=
  (mergeSort_perm _ _).trans (SetOrder.perm _)

theorem mem_mergeOccurrences {items : List Location} : l ∈ mergeOccurrences items ↔ l ∈ items := by
  rw [(mergeOccurrences_perm items).mem_iff, mem_eraseDups]

theorem mergeGroup_eq (order : RuleOrder) (first : Finding) (rest : List Finding) :
    mergeGroup order first rest =
      { representative order first rest with
        evidence := mergeEvidence ((first :: rest).flatMap (·.evidence))
        occurrences := mergeOccurrences ((first :: rest).flatMap (·.occurrences)) } := by
  have hseverity := mergeGroup_severity order first rest
  simp only [mergeGroup] at hseverity ⊢
  rw [hseverity]

theorem standsFor_mergeGroup (order : RuleOrder) (first : Finding) (rest : List Finding) :
    StandsFor (mergeGroup order first rest) (· ∈ first :: rest) where
  origin := ⟨representative order first rest, representative_mem order first rest, mergeGroup_eq order first rest⟩
  worst g hg := rank_le_mergeGroup hg
  mem_evidence v := by
    simp only [mergeGroup, mem_mergeEvidence, mem_flatMap]
  evidence_sorted := by
    simp only [mergeGroup, mergeEvidence_eq]
    refine pairwise_map.mpr ((pairwise_mergeSort_eraseDups Evidence.isOrder_text _).imp fun {a b} h => ?_)
    exact Std.lt_of_le_of_ne (of_decide_eq_true h.1) fun heq => h.2 (Evidence.text_inj heq)
  mem_occurrences l := by
    simp only [mergeGroup, mem_mergeOccurrences, mem_flatMap]
  occurrences_sorted := by
    refine (pairwise_mergeSort_isLE Location.cmp _).and ?_
    exact (mergeOccurrences_perm _).nodup_iff.mpr (nodup_eraseDups _)

/-- The merged finding does not depend on members that are repeated. -/
theorem mergeGroup?_congr (h : s.eraseDups = t.eraseDups) : mergeGroup? order s = mergeGroup? order t := by
  have hm := mem_iff_of_eraseDups_eq h
  have hevidence : ∀ v, v ∈ s.flatMap (·.evidence) ↔ v ∈ t.flatMap (·.evidence) := by
    simp only [mem_flatMap, hm, implies_true]
  have hoccurrences : (s.flatMap (·.occurrences)).eraseDups = (t.flatMap (·.occurrences)).eraseDups := by
    rw [← eraseDups_flatMap, h, eraseDups_flatMap]
  cases s with
  | nil =>
    cases t with
    | nil => rfl
    | cons first' rest' => exact absurd ((hm first').mpr (mem_cons_self ..)) not_mem_nil
  | cons first rest =>
    cases t with
    | nil => exact absurd ((hm first).mp (mem_cons_self ..)) not_mem_nil
    | cons first' rest' =>
      rw [mergeGroup?, mergeGroup?, mergeGroup_eq, mergeGroup_eq, representative_congr hm,
        mergeEvidence_congr hevidence, mergeOccurrences, hoccurrences]
      rfl

theorem mergeGroup?_eq_some {group : List Finding} :
    mergeGroup? order group = some f ↔ ∃ first rest, group = first :: rest ∧ mergeGroup order first rest = f := by
  cases group with
  | nil => simp [mergeGroup?]
  | cons first rest => simp [mergeGroup?]

theorem mem_mergeGroups :
    f ∈ mergeGroups order groups ↔ ∃ first rest, first :: rest ∈ groups ∧ mergeGroup order first rest = f := by
  rw [mergeGroups, mem_filterMap]
  constructor
  · rintro ⟨group, hg, h⟩
    obtain ⟨first, rest, rfl, hmerge⟩ := mergeGroup?_eq_some.mp h
    exact ⟨first, rest, hg, hmerge⟩
  · rintro ⟨first, rest, hg, h⟩
    exact ⟨first :: rest, hg, congrArg some h⟩

theorem exists_group_of_mem_aggregate {raw : List Finding} {diagnostics : List Diagnostic} {metadata : Entries}
    (hf : f ∈ (aggregate raw diagnostics order metadata).findings) :
    ∃ first rest, (∀ g ∈ first :: rest, g ∈ raw) ∧ mergeGroup order first rest = f := by
  rw [aggregate, mem_mergeSort] at hf
  obtain ⟨first, rest, hgroup, rfl⟩ := mem_mergeGroups.mp hf
  exact ⟨first, rest, fun g hg => mem_mergeSort.mp (mem_of_mem_group hgroup hg), rfl⟩

theorem mergeGroups_congr {groups' : List (List Finding)}
    (h : Forall₂ (fun s t => s.eraseDups = t.eraseDups) groups groups') :
    mergeGroups order groups = mergeGroups order groups' := by
  unfold mergeGroups
  induction h with
  | nil => rfl
  | cons hst _ ih => rw [filterMap_cons, filterMap_cons, mergeGroup?_congr hst, ih]

end ContractAudit

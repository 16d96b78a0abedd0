import ContractAudit.Proofs.Merge

/-! # The order of raw findings does not matter

Findings are sorted before they are grouped, by an order in which no two of them tie. A finding that is
repeated joins the group of its first occurrence. -/

namespace ContractAudit
open Std Relation List Finding

variable {l l' s s' t t' : List Finding} {f g : Finding} {i j : Nat}

/-- A chain of duplicates among the members of the list leads from one finding to the other. -/
def Linked (l : List Finding) : Finding → Finding → Prop :=
  EqvGen fun a b => a ∈ l ∧ b ∈ l ∧ isDuplicate a b = true

theorem linked_congr (h : ∀ f, f ∈ l ↔ f ∈ l') : Linked l = Linked l' := by
  simp only [Linked, h]

theorem linked_of_connected (h : Connected l i j) (hf : l[i]? = some f) (hg : l[j]? = some g) : Linked l f g := by
  obtain ⟨hi, rfl⟩ := List.getElem?_eq_some_iff.mp hf
  obtain ⟨hj, rfl⟩ := List.getElem?_eq_some_iff.mp hg
  refine Forest.eqvGen_lift (EqvGen.is_equivalence _) l.get (fun i j hd => ?_) ((connected_iff ⟨i, hi⟩ ⟨j, hj⟩).mp h)
  exact EqvGen.rel _ _ ⟨get_mem l i, get_mem l j, hd⟩

theorem mem_iff_of_linked (h : Linked l f g) : f ∈ l ↔ g ∈ l :=
  Forest.eqvGen_lift ⟨Iff.refl, Iff.symm, Iff.trans⟩ (· ∈ l) (fun _ _ h => iff_of_true h.1 h.2.1) h

theorem bucket_eq_of_connected (h : Connected l i j) (hf : l[i]? = some f) (hg : l[j]? = some g) :
    f.bucket = g.bucket :=
  Forest.eqvGen_lift eq_equivalence bucket (fun _ _ hab => bucket_eq_of_isDuplicate hab.2.2)
    (linked_of_connected h hf hg)

/-- The first list has a member that comes before all members of the second. -/
def Before (s t : List Finding) : Prop := ∃ f ∈ s, ∀ g ∈ t, canonicalCmp f g = .lt

theorem Before.irrefl (s : List Finding) : ¬Before s s := by
  rintro ⟨f, hf, h⟩
  have hself : canonicalCmp f f = .eq := ReflCmp.compare_self
  rw [h f hf] at hself
  cases hself

theorem Before.asymm (s t : List Finding) (hst : Before s t) : ¬Before t s := by
  rintro ⟨g, hg, hts⟩
  obtain ⟨f, hf, hst⟩ := hst
  have hgt : canonicalCmp f g = .gt := OrientedCmp.gt_iff_lt.mpr (hts f hf)
  rw [hst g hg] at hgt
  cases hgt

theorem Before.congr (hs : s.eraseDups = t.eraseDups) (hs' : s'.eraseDups = t'.eraseDups) :
    Before s s' ↔ Before t t' := by
  simp only [Before, mem_iff_of_eraseDups_eq hs, mem_iff_of_eraseDups_eq hs']

theorem pairwise_of_mem_duplicateGroups {p : Finding → Finding → Prop} (h : l.Pairwise p)
    (hs : s ∈ duplicateGroups l) : s.Pairwise p := by
  obtain ⟨r, -, -, rfl⟩ := mem_duplicateGroups.mp hs
  rw [groupAt, pairwise_filterMap]
  refine (pairwise_lt_range.filter _).imp fun {i j} hij f hf g hg => ?_
  obtain ⟨hi, rfl⟩ := List.getElem?_eq_some_iff.mp hf
  obtain ⟨hj, rfl⟩ := List.getElem?_eq_some_iff.mp hg
  exact pairwise_iff_getElem.mp h i j hi hj hij

section Ordered
variable (ordered : ∀ f ∈ l, f.location.Ordered)
include ordered

theorem connected_of_linked (h : Linked l f g) (hi : l[i]? = some f) (hj : l[j]? = some g) : Connected l i j := by
  induction h generalizing i j with
  | rel f g h => exact DuplicateAt.connected ⟨f, g, hi, hj, h.2.2⟩
  | refl f =>
    -- the two positions of one finding are connected, as it is a duplicate of itself
    exact DuplicateAt.connected ⟨f, f, hi, hj, isDuplicate_self (ordered f (mem_of_getElem? hi))⟩
  | symm f g _ ih => exact (ih hj hi).symm
  | trans f c g hfc _ ih₁ ih₂ =>
    obtain ⟨k, hk⟩ := mem_iff_getElem?.mp ((mem_iff_of_linked hfc).mp (mem_of_getElem? hi))
    exact (ih₁ hi hk).trans (ih₂ hk hj)

theorem mem_groupAt_iff_linked (hi : l[i]? = some f) : g ∈ groupAt l (groupRoot l i) ↔ g ∈ l ∧ Linked l f g := by
  rw [mem_groupAt]
  constructor
  · rintro ⟨j, hj, hr⟩
    exact ⟨mem_of_getElem? hj, linked_of_connected (groupRoot_eq_iff.mp hr.symm) hi hj⟩
  · rintro ⟨hg, h⟩
    obtain ⟨j, hj⟩ := mem_iff_getElem?.mp hg
    exact ⟨j, hj, groupRoot_eq_iff.mpr (connected_of_linked ordered h hi hj).symm⟩

theorem exists_group_of_mem_iff (h : ∀ f, f ∈ l ↔ f ∈ l') (hs : s ∈ duplicateGroups l) :
    ∃ t ∈ duplicateGroups l', ∀ f, f ∈ s ↔ f ∈ t := by
  obtain ⟨r, hr, hroot, rfl⟩ := mem_duplicateGroups.mp hs
  have ordered' : ∀ f ∈ l', f.location.Ordered := fun f hf => ordered f ((h f).mpr hf)
  have hi : l[r]? = some l[r] := getElem?_eq_getElem hr
  obtain ⟨j, hj⟩ := mem_iff_getElem?.mp ((h l[r]).mp (getElem_mem hr))
  refine ⟨_, groupAt_groupRoot_mem (List.getElem?_eq_some_iff.mp hj).1, fun g => ?_⟩
  have := mem_groupAt_iff_linked (g := g) ordered hi
  rw [hroot] at this
  rw [this, mem_groupAt_iff_linked ordered' hj, linked_congr h, h g]

/-- In a sorted list the groups come in the order of their first findings: a finding that occurs in two
    groups would be a duplicate of itself. -/
theorem duplicateGroups_before (sorted : l.Pairwise fun a b => (canonicalCmp a b).isLE = true) :
    (duplicateGroups l).Pairwise Before := by
  refine pairwise_duplicateGroups fun r r' hlt hr' hroot hroot' => ?_
  have hr : r < l.length := Nat.lt_trans hlt hr'
  have hi : l[r]? = some l[r] := getElem?_eq_getElem hr
  refine ⟨l[r], mem_groupAt.mpr ⟨r, hi, hroot⟩, fun g hg => ?_⟩
  obtain ⟨j, hj, hjr⟩ := mem_groupAt.mp hg
  obtain ⟨hjl, rfl⟩ := List.getElem?_eq_some_iff.mp hj
  have hrj : r < j := Nat.lt_of_lt_of_le hlt (hjr ▸ groupRoot_le l j)
  have hle : (canonicalCmp l[r] l[j]).isLE = true := pairwise_iff_getElem.mp sorted r j hr hjl hrj
  cases hc : canonicalCmp l[r] l[j] with
  | lt => rfl
  | gt =>
    rw [hc] at hle
    cases hle
  | eq =>
    have hdup : isDuplicate l[r] l[j] = true := by
      rw [← LawfulEqCmp.eq_of_compare hc]
      exact isDuplicate_self (ordered _ (getElem_mem hr))
    have := groupRoot_eq_iff.mpr (DuplicateAt.connected ⟨_, _, hi, hj, hdup⟩)
    omega

end Ordered

theorem duplicateGroups_of_mem_iff (ordered : ∀ f ∈ l, f.location.Ordered) (h : ∀ f, f ∈ l ↔ f ∈ l')
    (sorted : l.Pairwise fun a b => (canonicalCmp a b).isLE = true)
    (sorted' : l'.Pairwise fun a b => (canonicalCmp a b).isLE = true) :
    Forall₂ (fun s t => s.eraseDups = t.eraseDups) (duplicateGroups l) (duplicateGroups l') := by
  have ordered' : ∀ f ∈ l', f.location.Ordered := fun f hf => ordered f ((h f).mpr hf)
  have hsame {s t : List Finding} (hs : s ∈ duplicateGroups l) (ht : t ∈ duplicateGroups l')
      (hm : ∀ f, f ∈ s ↔ f ∈ t) : s.eraseDups = t.eraseDups :=
    eraseDups_of_sorted (isOrder_isLE canonicalCmp) (pairwise_of_mem_duplicateGroups sorted hs)
      (pairwise_of_mem_duplicateGroups sorted' ht) hm
  refine forall₂_of_sorted ?_ Before.irrefl Before.asymm
    (duplicateGroups_before ordered sorted) (duplicateGroups_before ordered' sorted') (fun s hs => ?_) fun t ht => ?_
  · exact fun hs ht => Before.congr hs ht
  · obtain ⟨t, ht, hm⟩ := exists_group_of_mem_iff ordered h hs
    exact ⟨t, ht, hsame hs ht hm⟩
  · obtain ⟨s, hs, hm⟩ := exists_group_of_mem_iff ordered' (fun f => (h f).symm) ht
    exact ⟨s, hs, hsame hs ht fun f => (hm f).symm⟩

section Ranks
variable {first : Finding} {rest : List Finding} (order order' : RuleOrder)

theorem preferenceCmp_of_ruleId_eq (h : f.ruleId = g.ruleId) : preferenceCmp order f g = preferenceCmp order' f g := by
  have htie : ∀ o : RuleOrder, compare (o.rank g.ruleId) (o.rank g.ruleId) = .eq := fun _ => Std.ReflCmp.compare_self
  simp only [preferenceCmp, compareLex, compareOn, h, htie]

theorem representative_of_ruleId_eq (h : ∀ g ∈ rest, first.ruleId = g.ruleId) :
    representative order first rest = representative order' first rest := by
  induction rest generalizing first with
  | nil => rfl
  | cons b rest ih =>
    have hb := h b (mem_cons_self ..)
    rw [representative_cons, representative_cons, preferenceCmp_of_ruleId_eq order order' hb]
    split
    · exact ih fun g hg => h g (mem_cons_of_mem _ hg)
    · exact ih fun g hg => hb.symm.trans (h g (mem_cons_of_mem _ hg))

theorem ruleId_eq_of_mem_group (hs : s ∈ duplicateGroups l) (hf : f ∈ s) (hg : g ∈ s) : f.ruleId = g.ruleId := by
  obtain ⟨r, -, -, rfl⟩ := mem_duplicateGroups.mp hs
  obtain ⟨i, hi, hir⟩ := mem_groupAt.mp hf
  obtain ⟨j, hj, hjr⟩ := mem_groupAt.mp hg
  exact congrArg Prod.fst (bucket_eq_of_connected (groupRoot_eq_iff.mp (hir.trans hjr.symm)) hi hj)

variable [SetOrder]

theorem mergeGroups_of_order (l : List Finding) :
    mergeGroups order (duplicateGroups l) = mergeGroups order' (duplicateGroups l) := by
  refine filterMap_congr fun s hs => ?_
  cases s with
  | nil => rfl
  | cons first rest =>
    have hrule : ∀ g ∈ rest, first.ruleId = g.ruleId := fun g hg =>
      ruleId_eq_of_mem_group hs (mem_cons_self ..) (mem_cons_of_mem _ hg)
    simp only [mergeGroup?, mergeGroup, representative_of_ruleId_eq order order' hrule]

theorem aggregate_of_order (raw : List Finding) (diagnostics : List Diagnostic) (metadata : Entries) :
    aggregate raw diagnostics order metadata = aggregate raw diagnostics order' metadata := by
  rw [aggregate, aggregate, mergeGroups_of_order order order']

end Ranks

section Reports
variable [SetOrder] {raw raw' : List Finding} {diagnostics diagnostics' : List Diagnostic}

theorem aggregate_of_perm (order : RuleOrder) (metadata : Entries) (h : raw.Perm raw')
    (hd : ∀ d, d ∈ diagnostics ↔ d ∈ diagnostics') :
    aggregate raw diagnostics order metadata = aggregate raw' diagnostics' order metadata := by
  rw [aggregate, aggregate, mergeSort_eq_of_perm (isOrder_isLE canonicalCmp) h,
    mergeSort_eraseDups_congr (isOrder_isLE Diagnostic.cmp) hd]

end Reports

end ContractAudit

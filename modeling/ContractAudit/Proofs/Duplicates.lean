import ContractAudit.Proofs.Forest
import ContractAudit.Proofs.JsonReading

/-! # Orders of findings, duplicates and their groups

Findings have three orders, all of them total preorders. Being duplicates is symmetric, and a finding is a
duplicate of itself unless its range of lines ends before it begins. -/

namespace ContractAudit
open Std Json List Location

/-- Records that are read as the same hold what is read as the same under each name. -/
theorem Json.mem_of_decoded_record {m n : List (String × Value)} (h : decoded (.record m) = decoded (.record n)) :
    ∀ e ∈ m, ∃ e' ∈ n, e.1 = e'.1 ∧ decoded e.2 = decoded e'.2 := by
  have h : ((m.map namedEntry).mergeSort keyLe).map decodedEntry =
      ((n.map namedEntry).mergeSort keyLe).map decodedEntry :=
    Value.map.inj ((decoded_map _).symm.trans (h.trans (decoded_map _)))
  intro e he
  have hmem : decodedEntry (namedEntry e) ∈ ((m.map namedEntry).mergeSort keyLe).map decodedEntry :=
    mem_map_of_mem (mem_mergeSort.mpr (mem_map_of_mem he))
  rw [h] at hmem
  obtain ⟨_, hmem, heq⟩ := mem_map.mp hmem
  obtain ⟨e', he', rfl⟩ := mem_map.mp (mem_mergeSort.mp hmem)
  exact ⟨e', he', Scalar.str.inj (congrArg Prod.fst heq.symm), congrArg Prod.snd heq.symm⟩

theorem Json.decoded_ofString?_inj {s t : Option String} (h : decoded (.ofString? s) = decoded (.ofString? t)) :
    s = t := by
  cases s <;> cases t <;> cases h <;> rfl

theorem Json.decoded_ofInt?_inj {m n : Option Int} (h : decoded (.ofInt? m) = decoded (.ofInt? n)) : m = n := by
  cases m <;> cases n <;> cases h <;> rfl

theorem Location.lines_eq {l l' : Location} (hstart : l.startLine? = l'.startLine?)
    (hend : l.endLine? = l'.endLine?) : l.lines = l'.lines := by
  unfold startLine? at hstart
  unfold endLine? at hend
  cases hl : l.lines with
  | none =>
    rw [hl] at hstart
    exact (Option.map_eq_none_iff.mp hstart.symm).symm
  | some r =>
    rw [hl] at hstart hend
    obtain ⟨r', hr', hfirst⟩ := Option.map_eq_some_iff.mp hstart.symm
    rw [hr'] at hend ⊢
    cases r
    cases r'
    simp_all

theorem Location.eq_of_decoded_eq {a b : Location} (h : decoded a.toValue = decoded b.toValue) : a = b := by
  have h := mem_of_decoded_record h
  simp only [forall_mem_cons, exists_mem_cons_iff, not_mem_nil, false_and, exists_false, or_false, String.reduceEq,
    false_or, true_and] at h
  obtain ⟨hpath, hstart, hend, hsymbol, -⟩ := h
  have hlines := lines_eq (decoded_ofInt?_inj hstart) (decoded_ofInt?_inj hend)
  cases a
  cases b
  cases hpath
  cases hlines
  cases decoded_ofString?_inj hsymbol
  rfl

theorem Severity.eq_of_name_eq {a b : Severity} (h : a.name = b.name) : a = b := by
  cases a <;> cases b <;> simp_all [name]

theorem Evidence.eq_of_decoded_eq {a b : Evidence} (h : decoded a.value = decoded b.value) : a = b := by
  rw [a.data, b.data] at h
  cases a
  cases h
  rfl

theorem Evidence.text_inj {a b : Evidence} (h : a.text = b.text) : a = b :=
  eq_of_decoded_eq (decoded_eq_of_canonical_eq h)

/-- The text of a finding holds all of its fields. -/
theorem Finding.eq_of_canonical_eq {f g : Finding} (h : f.canonical = g.canonical) : f = g := by
  have h := mem_of_decoded_record (decoded_eq_of_canonical_eq h)
  simp only [forall_mem_cons, exists_mem_cons_iff, not_mem_nil, false_and, exists_false, or_false, String.reduceEq,
    false_or, true_and] at h
  obtain ⟨hid, hrule, hseverity, hlocation, hmessage, hdescription, hremediation, hevidence, hfingerprint,
    hoccurrences, hsource, -⟩ := h
  rw [decoded, decoded, decodedItems_eq_map, decodedItems_eq_map, map_map, map_map, Value.list.injEq]
    at hevidence hoccurrences
  have hevidence := (map_inj_right fun a b => Evidence.eq_of_decoded_eq).mp hevidence
  have hoccurrences := (map_inj_right fun _ _ => Location.eq_of_decoded_eq).mp hoccurrences
  cases f
  cases g
  cases hid
  cases hrule
  cases hmessage
  cases Severity.eq_of_name_eq (Scalar.str.inj (Value.scalar.inj hseverity))
  cases Location.eq_of_decoded_eq hlocation
  cases decoded_ofString?_inj hdescription
  cases decoded_ofString?_inj hremediation
  cases decoded_ofString?_inj hfingerprint
  cases decoded_ofString?_inj hsource
  cases hevidence
  cases hoccurrences
  rfl

theorem transCmp_on {α β : Type} (cmp : β → β → Ordering) [TransCmp cmp] (f : α → β) :
    TransCmp fun a b => cmp (f a) (f b) where
  eq_swap := OrientedCmp.eq_swap
  isLE_trans := TransCmp.isLE_trans

instance : TransCmp Key.cmp := inferInstanceAs (TransCmp (compareLex _ (compareLex _ (compareLex _ _))))

instance : LawfulEqCmp Key.cmp where
  compare_self := ReflCmp.compare_self
  eq_of_compare {a b} h := by
    simp only [Key.cmp, compareLex_eq_eq, compareOn, LawfulEqOrd.compare_eq_iff_eq] at h
    cases a
    cases b
    simp_all

instance : TransCmp fun a b : Location => a.key.cmp b.key := transCmp_on Key.cmp key

instance : TransCmp fun a b : Finding => a.location.key.cmp b.location.key :=
  transCmp_on Key.cmp fun f : Finding => f.location.key

instance : TransCmp fun a b : Finding => compare b.severity.rank a.severity.rank :=
  transCmp_on (fun m n : Nat => compare n m) fun f : Finding => f.severity.rank

instance : TransCmp cmp := inferInstanceAs (TransCmp (compareLex _ _))

instance : TransCmp Diagnostic.cmp := inferInstanceAs (TransCmp (compareLex _ (compareLex _ (compareLex _ _))))

instance : TransCmp canonicalCmp := inferInstanceAs (TransCmp (compareLex _ (compareLex _ (compareLex _ _))))

instance (order : RuleOrder) : TransCmp (preferenceCmp order) :=
  inferInstanceAs (TransCmp (compareLex _ (compareLex _ (compareLex _ (compareLex _ _)))))

instance : TransCmp presentationCmp :=
  inferInstanceAs (TransCmp (compareLex _ (compareLex _ (compareLex _ (compareLex _ (compareLex _ _))))))

instance : LawfulEqCmp Diagnostic.cmp where
  compare_self := ReflCmp.compare_self
  eq_of_compare {a b} h := by
    simp only [Diagnostic.cmp, compareLex_eq_eq, compareOn, LawfulEqOrd.compare_eq_iff_eq] at h
    cases a
    cases b
    simp_all

instance : LawfulEqCmp canonicalCmp where
  compare_self := ReflCmp.compare_self
  eq_of_compare {f g} h := by
    simp only [canonicalCmp, compareLex_eq_eq, compareOn, LawfulEqOrd.compare_eq_iff_eq] at h
    exact Finding.eq_of_canonical_eq h.2.2.2

instance (order : RuleOrder) : LawfulEqCmp (preferenceCmp order) where
  compare_self := ReflCmp.compare_self
  eq_of_compare {f g} h := by
    simp only [preferenceCmp, compareLex_eq_eq, compareOn, LawfulEqOrd.compare_eq_iff_eq] at h
    exact Finding.eq_of_canonical_eq h.2.2.2.2

variable {f g : Finding} {order : RuleOrder}

theorem rank_le_of_preferenceCmp (h : (preferenceCmp order f g).isLE = true) : g.severity.rank ≤ f.severity.rank := by
  have h' : (compare g.severity.rank f.severity.rank).isLE = true := by
    rw [preferenceCmp, compareLex] at h
    cases hc : compare g.severity.rank f.severity.rank with
    | lt => rfl
    | eq => rfl
    | gt =>
      rw [hc] at h
      cases h
  exact Nat.isLE_compare.mp h'

/-- The range of lines, if there is one, does not end before it begins. -/
def Location.Ordered (l : Location) : Prop := ∀ r ∈ l.lines, r.first ≤ r.last

instance (l : Location) : Decidable l.Ordered := inferInstanceAs (Decidable (∀ r ∈ l.lines, r.first ≤ r.last))

open Relation Forest

section Relation
variable {a a' b b' f : Finding}

/-- Only the rules, the places and the fingerprints are compared. -/
theorem isDuplicate_congr (hra : a.ruleId = a'.ruleId) (hla : a.location = a'.location)
    (hfa : a.fingerprint = a'.fingerprint) (hrb : b.ruleId = b'.ruleId) (hlb : b.location = b'.location)
    (hfb : b.fingerprint = b'.fingerprint) : isDuplicate a b = isDuplicate a' b' := by
  simp only [isDuplicate, hra, hla, hfa, hrb, hlb, hfb]

theorem bucket_eq_of_isDuplicate (h : isDuplicate a b = true) : a.bucket = b.bucket := by
  simp only [isDuplicate, Bool.and_eq_true, beq_iff_eq] at h
  exact Prod.ext h.1.1 h.1.2

theorem Location.overlaps_comm (l l' : Location) : l.overlaps l' = l'.overlaps l := by
  unfold overlaps
  cases l.lines with
  | none => cases l'.lines <;> rfl
  | some r =>
    cases l'.lines with
    | none => rfl
    | some r' => exact Bool.and_comm _ _

theorem isDuplicate_comm (a b : Finding) : isDuplicate a b = isDuplicate b a := by
  have hfp : (a.fingerprint.any (!·.isEmpty) && a.fingerprint == b.fingerprint) =
      (b.fingerprint.any (!·.isEmpty) && b.fingerprint == a.fingerprint) := by
    by_cases h : a.fingerprint = b.fingerprint
    · rw [h]
    · have h' : ¬b.fingerprint = a.fingerprint := fun e => h e.symm
      rw [beq_eq_false_iff_ne.mpr h, beq_eq_false_iff_ne.mpr h', Bool.and_false, Bool.and_false]
  simp only [isDuplicate]
  rw [hfp, BEq.comm (a := a.ruleId), BEq.comm (a := a.location.normalized.path),
    BEq.comm (a := a.location.normalized.symbol), overlaps_comm]
  generalize a.location.normalized = la
  generalize b.location.normalized = lb
  cases la.lines <;> cases lb.lines <;> cases la.symbol <;> cases lb.symbol <;> simp

theorem isDuplicate_eq_false_symm (h : isDuplicate a b = false) : isDuplicate b a = false := isDuplicate_comm a b ▸ h

/-- A finding is a duplicate of itself, if its lines are in order. -/
theorem isDuplicate_self (h : f.location.Ordered) : isDuplicate f f = true := by
  simp only [isDuplicate, normalized, overlaps, beq_self_eq_true, Bool.true_and]
  unfold Ordered at h
  cases hl : f.location.lines with
  | none => cases normalSymbol f.location.symbol <;> simp
  | some r =>
    have := h r hl
    simp [this]

end Relation

section Groups
variable {l l' : List Finding} {s : List Finding} {f g : Finding} {i j r : Nat}

/-- The findings at two positions are duplicates. -/
def DuplicateAt (l : List Finding) (i j : Nat) : Prop :=
  ∃ a b, l[i]? = some a ∧ l[j]? = some b ∧ isDuplicate a b = true

/-- A chain of duplicates leads from one position to the other. -/
def Connected (l : List Finding) : Nat → Nat → Prop := EqvGen (DuplicateAt l)

theorem Connected.symm (h : Connected l i j) : Connected l j i := EqvGen.symm _ _ h

theorem Connected.trans {k : Nat} (h : Connected l i j) (h' : Connected l j k) : Connected l i k :=
  EqvGen.trans _ _ _ h h'

theorem DuplicateAt.connected (h : DuplicateAt l i j) : Connected l i j := EqvGen.rel _ _ h

theorem Connected.map {φ : Nat → Nat} (hφ : ∀ i j, DuplicateAt l i j → DuplicateAt l' (φ i) (φ j))
    (h : Connected l i j) : Connected l' (φ i) (φ j) :=
  eqvGen_lift (EqvGen.is_equivalence _) φ (fun i j hd => (hφ i j hd).connected) h

/-- The chains between positions that exist go through such positions alone. -/
theorem connected_iff (i j : Fin l.length) :
    Connected l i j ↔ EqvGen (fun i j : Fin l.length => isDuplicate (l.get i) (l.get j) = true) i j := by
  constructor
  · intro h
    have chain : ∀ {i j}, Connected l i j → i = j ∨ ∃ (hi : i < l.length) (hj : j < l.length),
        EqvGen (fun i j : Fin l.length => isDuplicate (l.get i) (l.get j) = true) ⟨i, hi⟩ ⟨j, hj⟩ := by
      intro i j h
      induction h with
      | rel i j h =>
        obtain ⟨a, b, ha, hb, hab⟩ := h
        obtain ⟨hi, rfl⟩ := List.getElem?_eq_some_iff.mp ha
        obtain ⟨hj, rfl⟩ := List.getElem?_eq_some_iff.mp hb
        exact Or.inr ⟨hi, hj, EqvGen.rel _ _ hab⟩
      | refl i => exact Or.inl rfl
      | symm i j _ ih =>
        rcases ih with rfl | ⟨hi, hj, hij⟩
        · exact Or.inl rfl
        · exact Or.inr ⟨hj, hi, EqvGen.symm _ _ hij⟩
      | trans i k j _ _ ih₁ ih₂ =>
        rcases ih₁ with rfl | ⟨hi, hk, hik⟩
        · exact ih₂
        rcases ih₂ with rfl | ⟨_, hj, hkj⟩
        · exact Or.inr ⟨hi, hk, hik⟩
        · exact Or.inr ⟨hi, hj, EqvGen.trans _ _ _ hik hkj⟩
    rcases chain h with hij | ⟨_, _, hij⟩
    · obtain rfl := Fin.ext hij
      exact EqvGen.refl _
    · exact hij
  · refine eqvGen_lift (EqvGen.is_equivalence _) Fin.val fun i j h => DuplicateAt.connected ?_
    exact ⟨l.get i, l.get j, getElem?_eq_getElem i.2, getElem?_eq_getElem j.2, h⟩

section Pairs
variable {α κ : Type} {related : α → α → Bool} {s : List α} {members : List (α × Nat)}

theorem mem_pairsIn : (i, j) ∈ pairsIn related members ↔
      i < j ∧ ∃ a b, (a, i) ∈ members ∧ (b, j) ∈ members ∧ related a b = true := by
  simp only [pairsIn, mem_flatMap, mem_map, mem_filter, Prod.exists, Prod.mk.injEq, Bool.and_eq_true,
    decide_eq_true_eq]
  constructor
  · rintro ⟨a, i, ha, b, j, ⟨hb, hij, hab⟩, rfl, rfl⟩
    exact ⟨hij, a, b, ha, hb, hab⟩
  · rintro ⟨hij, a, b, ha, hb, hab⟩
    exact ⟨a, i, ha, b, j, ⟨hb, hij, hab⟩, rfl, rfl⟩

theorem mem_relatedPairs : (i, j) ∈ relatedPairs related s ↔
      i < j ∧ ∃ a b, s[i]? = some a ∧ s[j]? = some b ∧ related a b = true := by
  simp only [relatedPairs, mem_pairsIn, mem_zipIdx_iff_getElem?]

/-- The pairs inside the buckets are all related pairs, as long as related members have one key. -/
theorem mem_bucketPairs [BEq κ] [LawfulBEq κ] {key : α → κ} (hkey : ∀ a b, related a b = true → key a = key b) :
    (i, j) ∈ (buckets key s).flatMap (pairsIn related) ↔ (i, j) ∈ relatedPairs related s := by
  simp only [buckets, mem_flatMap, mem_map, mem_eraseDups, mem_pairsIn, mem_relatedPairs]
  constructor
  · rintro ⟨-, ⟨k, -, rfl⟩, hij, a, b, ha, hb, hab⟩
    exact ⟨hij, a, b, mem_zipIdx_iff_getElem?.mp (mem_filter.mp ha).1,
      mem_zipIdx_iff_getElem?.mp (mem_filter.mp hb).1, hab⟩
  · rintro ⟨hij, a, b, ha, hb, hab⟩
    refine ⟨_, ⟨key a, ⟨a, mem_of_getElem? ha, rfl⟩, rfl⟩, hij, a, b, mem_filter.mpr ⟨?_, ?_⟩,
      mem_filter.mpr ⟨?_, ?_⟩, hab⟩
    · exact mem_zipIdx_iff_getElem?.mpr ha
    · exact beq_self_eq_true _
    · exact mem_zipIdx_iff_getElem?.mpr hb
    · exact beq_iff_eq.mpr (hkey a b hab).symm

end Pairs

/-- No pair of duplicates is lost by comparing findings with those of their bucket only. -/
theorem mem_duplicatePairs : (i, j) ∈ duplicatePairs l ↔ (i, j) ∈ relatedPairs isDuplicate l :=
  mem_bucketPairs fun _ _ => bucket_eq_of_isDuplicate

theorem lt_length_of_mem (h : (i, j) ∈ relatedPairs isDuplicate l) : i < l.length ∧ j < l.length := by
  obtain ⟨-, a, b, ha, hb, -⟩ := mem_relatedPairs.mp h
  exact ⟨(List.getElem?_eq_some_iff.mp ha).1, (List.getElem?_eq_some_iff.mp hb).1⟩

/-- The first position of the group that a position is in. -/
def groupRoot (l : List Finding) (i : Nat) : Nat :=
  ((discrete l.length).joinAll (duplicatePairs l)).root i

/-- Only pairs in ascending order are joined, which connects the same positions. -/
theorem groupRoot_eq_iff : groupRoot l i = groupRoot l j ↔ Connected l i j := by
  rw [groupRoot, groupRoot, root_joinAll_eq_iff fun _ h => lt_length_of_mem (mem_duplicatePairs.mp h)]
  simp only [mem_duplicatePairs]
  constructor
  · refine EqvGen.mono (fun i j h => ?_) i j
    obtain ⟨-, a, b, ha, hb, hab⟩ := mem_relatedPairs.mp h
    exact ⟨a, b, ha, hb, hab⟩
  · refine eqvGen_lift (EqvGen.is_equivalence _) id fun i j h => ?_
    obtain ⟨a, b, ha, hb, hab⟩ := h
    rcases Nat.lt_trichotomy i j with hij | rfl | hij
    · exact EqvGen.rel _ _ (mem_relatedPairs.mpr ⟨hij, a, b, ha, hb, hab⟩)
    · exact EqvGen.refl _
    · exact EqvGen.symm _ _ (EqvGen.rel _ _ (mem_relatedPairs.mpr ⟨hij, b, a, hb, ha, isDuplicate_comm a b ▸ hab⟩))

theorem groupRoot_le (l : List Finding) (i : Nat) : groupRoot l i ≤ i := root_le _ i

@[simp] theorem groupRoot_groupRoot (l : List Finding) (i : Nat) : groupRoot l (groupRoot l i) = groupRoot l i :=
  root_root _ i

theorem groupRoot_lt (h : i < l.length) : groupRoot l i < l.length := Nat.lt_of_le_of_lt (groupRoot_le l i) h

/-- The findings of the group with the given first position, in their order. -/
def groupAt (l : List Finding) (r : Nat) : List Finding :=
  ((List.range l.length).filter fun i => groupRoot l i == r).filterMap (l[·]?)

/-- The first positions of the groups. -/
def groupRoots (l : List Finding) : List Nat := (List.range l.length).filter fun i => groupRoot l i == i

theorem mem_groupRoots : r ∈ groupRoots l ↔ r < l.length ∧ groupRoot l r = r := by
  simp only [groupRoots, mem_filter, mem_range, beq_iff_eq]

theorem pairwise_groupRoots (l : List Finding) : (groupRoots l).Pairwise (· < ·) :=
  List.Pairwise.filter _ pairwise_lt_range

theorem groupRoot_mem_groupRoots (h : i < l.length) : groupRoot l i ∈ groupRoots l :=
  mem_groupRoots.mpr ⟨groupRoot_lt h, groupRoot_groupRoot l i⟩

theorem duplicateGroups_eq (l : List Finding) : duplicateGroups l = (groupRoots l).map (groupAt l) := by
  simp only [duplicateGroups, classes, List.map_map]
  rfl

theorem mem_groupAt : f ∈ groupAt l r ↔ ∃ i, l[i]? = some f ∧ groupRoot l i = r := by
  simp only [groupAt, mem_filterMap, mem_filter, mem_range, beq_iff_eq]
  constructor
  · rintro ⟨i, ⟨-, hr⟩, hf⟩
    exact ⟨i, hf, hr⟩
  · rintro ⟨i, hf, hr⟩
    exact ⟨i, ⟨(List.getElem?_eq_some_iff.mp hf).1, hr⟩, hf⟩

theorem mem_duplicateGroups : s ∈ duplicateGroups l ↔ ∃ r, r < l.length ∧ groupRoot l r = r ∧ groupAt l r = s := by
  simp only [duplicateGroups_eq, mem_map, mem_groupRoots, and_assoc]

theorem mem_of_mem_group (hs : s ∈ duplicateGroups l) (hf : f ∈ s) : f ∈ l := by
  obtain ⟨r, -, -, rfl⟩ := mem_duplicateGroups.mp hs
  obtain ⟨i, hi, -⟩ := mem_groupAt.mp hf
  exact mem_of_getElem? hi

theorem groupAt_groupRoot_mem (h : i < l.length) : groupAt l (groupRoot l i) ∈ duplicateGroups l :=
  mem_duplicateGroups.mpr ⟨_, groupRoot_lt h, groupRoot_groupRoot l i, rfl⟩

theorem exists_cons_of_mem_groupRoots (h : r ∈ groupRoots l) : ∃ first rest, groupAt l r = first :: rest := by
  obtain ⟨hr, hroot⟩ := mem_groupRoots.mp h
  have hmem : l[r] ∈ groupAt l r := mem_groupAt.mpr ⟨r, getElem?_eq_getElem hr, hroot⟩
  cases hgroup : groupAt l r with
  | nil =>
    rw [hgroup] at hmem
    cases hmem
  | cons first rest => exact ⟨first, rest, rfl⟩

theorem pairwise_duplicateGroups {p : List Finding → List Finding → Prop}
    (h : ∀ r r', r < r' → r' < l.length → groupRoot l r = r → groupRoot l r' = r' → p (groupAt l r) (groupAt l r')) :
    (duplicateGroups l).Pairwise p := by
  rw [duplicateGroups_eq, pairwise_map]
  refine (pairwise_groupRoots l).imp_of_mem fun {r r'} hr hr' hlt => ?_
  exact h r r' hlt (mem_groupRoots.mp hr').1 (mem_groupRoots.mp hr).2 (mem_groupRoots.mp hr').2

/-- No group has a duplicate of a finding in another one. -/
theorem duplicateGroups_apart (l : List Finding) :
    (duplicateGroups l).Pairwise fun s t => ∀ f ∈ s, ∀ g ∈ t, isDuplicate f g = false := by
  refine pairwise_duplicateGroups fun r r' hlt _ _ _ f hf g hg => ?_
  obtain ⟨i, hi, rfl⟩ := mem_groupAt.mp hf
  obtain ⟨j, hj, rfl⟩ := mem_groupAt.mp hg
  cases hd : isDuplicate f g with
  | false => rfl
  | true =>
    have := groupRoot_eq_iff.mpr (DuplicateAt.connected ⟨f, g, hi, hj, hd⟩)
    omega

/-- Without duplicates, each finding is a group of its own. -/
theorem duplicateGroups_of_apart (h : l.Pairwise fun f g => isDuplicate f g = false) :
    duplicateGroups l = l.map ([·]) := by
  have hpairs : duplicatePairs l = [] := by
    rw [eq_nil_iff_forall_not_mem]
    rintro ⟨i, j⟩ hij
    obtain ⟨hlt, a, b, ha, hb, hab⟩ := mem_relatedPairs.mp (mem_duplicatePairs.mp hij)
    obtain ⟨hi, rfl⟩ := List.getElem?_eq_some_iff.mp ha
    obtain ⟨hj, rfl⟩ := List.getElem?_eq_some_iff.mp hb
    rw [pairwise_iff_getElem.mp h i j hi hj hlt] at hab
    cases hab
  have hroot : ∀ i, groupRoot l i = i := by
    intro i
    rw [groupRoot, hpairs]
    exact root_discrete l.length i
  have hgroup : ∀ (r : Nat) (hr : r < l.length), groupAt l r = [l[r]] := by
    intro r hr
    simp [groupAt, hroot, filter_beq, count_range, hr]
  have hroots : groupRoots l = List.range l.length := by
    simp [groupRoots, hroot]
  rw [duplicateGroups_eq, hroots]
  refine ext_getElem (by simp) fun i hi hi' => ?_
  rw [getElem_map, getElem_map, getElem_range, hgroup]

end Groups

def overlappingSample : List Finding :=
  [{ id := "1", ruleId := "overflow", severity := .high, message := "a",
     location := ⟨"src/lib.rs", some ⟨3, 5⟩, none⟩ },
   { id := "2", ruleId := "overflow", severity := .low, message := "b",
     location := ⟨"src/lib.rs", some ⟨5, 9⟩, none⟩ },
   { id := "3", ruleId := "overflow", severity := .low, message := "c",
     location := ⟨"src/lib.rs", some ⟨12, 12⟩, none⟩, evidence := [.of (.int 1)] }]

end ContractAudit

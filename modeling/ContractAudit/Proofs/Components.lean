import Mathlib.Data.Fintype.Card
import Mathlib.Data.Fintype.Sum
import ContractAudit.Proofs.AggregateOrder

/-! # Findings and components -/

namespace ContractAudit
open Relation List Function
variable {raw merged : List Finding} {κ : Nat → Nat}

/-- The places of merged findings that are assigned to the positions of raw findings. -/
structure Assigns (raw merged : List Finding) (κ : Nat → Nat) : Prop where
  lt : ∀ i < raw.length, κ i < merged.length
  onto : ∀ k < merged.length, ∃ i < raw.length, κ i = k
  eq_iff : ∀ i < raw.length, ∀ j < raw.length, (κ i = κ j ↔ Connected raw i j)
  standsFor : ∀ k f, merged[k]? = some f → StandsFor f fun g => ∃ i, raw[i]? = some g ∧ κ i = k

theorem lt_length_iff_of_places {α : Type} {s t : List α} {σ : Nat ≃ Nat} (h : ∀ i, t[σ i]? = s[i]?) (i : Nat) :
    σ i < t.length ↔ i < s.length := by
  rw [← Nat.not_le, ← Nat.not_le, ← getElem?_eq_none_iff, ← getElem?_eq_none_iff, h]

theorem connected_places {l : List Finding} {σ : Nat ≃ Nat} (h : ∀ i, l[σ i]? = raw[i]?) (i j : Nat) :
    Connected l (σ i) (σ j) ↔ Connected raw i j := by
  constructor
  · intro hc
    have hback : Connected raw (σ.symm (σ i)) (σ.symm (σ j)) := by
      refine hc.map fun i j hd => ?_
      obtain ⟨a, b, ha, hb, hab⟩ := hd
      rw [← σ.apply_symm_apply i, h] at ha
      rw [← σ.apply_symm_apply j, h] at hb
      exact ⟨a, b, ha, hb, hab⟩
    rwa [σ.symm_apply_apply, σ.symm_apply_apply] at hback
  · refine Connected.map fun i j hd => ?_
    obtain ⟨a, b, ha, hb, hab⟩ := hd
    exact ⟨a, b, (h i).trans ha, (h j).trans hb, hab⟩

theorem Assigns.perm_raw {l : List Finding} (h : Assigns l merged κ) (hp : raw.Perm l) :
    ∃ κ', Assigns raw merged κ' := by
  obtain ⟨σ, hσ⟩ := exists_places_of_perm hp
  have hlt : ∀ i, i < raw.length → σ i < l.length := fun i => (lt_length_iff_of_places hσ i).mpr
  refine ⟨κ ∘ σ, ⟨fun i hi => h.lt _ (hlt i hi), fun k hk => ?_, fun i hi j hj => ?_, fun k f hf => ?_⟩⟩
  · obtain ⟨i, hi, hik⟩ := h.onto k hk
    refine ⟨σ.symm i, ?_, by simpa using hik⟩
    rw [← lt_length_iff_of_places hσ, Equiv.apply_symm_apply]
    exact hi
  · rw [comp_apply, comp_apply, h.eq_iff _ (hlt i hi) _ (hlt j hj), connected_places hσ]
  · refine (h.standsFor k f hf).congr fun g => ?_
    constructor
    · rintro ⟨i, hi, hik⟩
      exact ⟨σ.symm i, by rw [← hσ, Equiv.apply_symm_apply, hi], by simpa using hik⟩
    · rintro ⟨i, hi, hik⟩
      exact ⟨σ i, by rw [hσ, hi], hik⟩

theorem Assigns.perm_merged {findings : List Finding} (h : Assigns raw merged κ) (hp : merged.Perm findings) :
    ∃ κ', Assigns raw findings κ' := by
  obtain ⟨τ, hτ⟩ := exists_places_of_perm hp
  refine ⟨τ ∘ κ, ⟨fun i hi => (lt_length_iff_of_places hτ _).mpr (h.lt i hi), fun k hk => ?_, fun i hi j hj => ?_,
    fun k f hf => ?_⟩⟩
  · rw [← τ.apply_symm_apply k, lt_length_iff_of_places hτ] at hk
    obtain ⟨i, hi, hik⟩ := h.onto _ hk
    exact ⟨i, hi, by rw [comp_apply, hik, Equiv.apply_symm_apply]⟩
  · rw [comp_apply, comp_apply, τ.apply_eq_iff_eq, h.eq_iff i hi j hj]
  · rw [← τ.apply_symm_apply k, hτ] at hf
    refine (h.standsFor _ f hf).congr fun g => ?_
    simp only [comp_apply, Equiv.eq_symm_apply]

section Sorted
variable {l : List Finding} {order : RuleOrder} {k : Nat} {f : Finding}

theorem idxOf_groupRoot_eq_iff {i r : Nat} (hi : i < l.length) (hk : (groupRoots l)[k]? = some r) :
    (groupRoots l).idxOf (groupRoot l i) = k ↔ groupRoot l i = r := by
  obtain ⟨hlt, rfl⟩ := List.getElem?_eq_some_iff.mp hk
  have hnodup : (groupRoots l).Nodup := (pairwise_groupRoots l).imp Nat.ne_of_lt
  rw [← idxOf_inj (groupRoot_mem_groupRoots hi), hnodup.idxOf_getElem]

variable [SetOrder]

theorem isSome_mergeGroup? {r : Nat} (h : r ∈ groupRoots l) : (mergeGroup? order (groupAt l r)).isSome = true := by
  obtain ⟨first, rest, hgroup⟩ := exists_cons_of_mem_groupRoots h
  rw [hgroup]
  rfl

theorem length_mergeGroups (order : RuleOrder) (l : List Finding) :
    (mergeGroups order (duplicateGroups l)).length = (groupRoots l).length := by
  rw [mergeGroups, duplicateGroups_eq, filterMap_map, filterMap_length_eq_length]
  exact fun r hr => isSome_mergeGroup? hr

theorem exists_group_of_getElem? (h : (mergeGroups order (duplicateGroups l))[k]? = some f) :
    ∃ r first rest, (groupRoots l)[k]? = some r ∧ groupAt l r = first :: rest ∧ mergeGroup order first rest = f := by
  have hsome : ∀ r ∈ groupRoots l, ((mergeGroup? order ∘ groupAt l) r).isSome = true := fun _ => isSome_mergeGroup?
  rw [mergeGroups, duplicateGroups_eq, filterMap_map, getElem?_filterMap_of_isSome hsome, Option.bind_eq_some_iff] at h
  obtain ⟨r, hr, hf⟩ := h
  obtain ⟨first, rest, hgroup, hmerge⟩ := mergeGroup?_eq_some.mp hf
  exact ⟨r, first, rest, hr, hgroup, hmerge⟩

theorem assigns_mergeGroups (order : RuleOrder) (l : List Finding) :
    Assigns l (mergeGroups order (duplicateGroups l)) fun i => (groupRoots l).idxOf (groupRoot l i) where
  lt i hi := by
    rw [length_mergeGroups, idxOf_lt_length_iff]
    exact groupRoot_mem_groupRoots hi
  onto k hk := by
    rw [length_mergeGroups] at hk
    obtain ⟨hlt, hroot⟩ := mem_groupRoots.mp (getElem_mem hk)
    exact ⟨_, hlt, (idxOf_groupRoot_eq_iff hlt (getElem?_eq_getElem hk)).mpr hroot⟩
  eq_iff i hi j hj := by
    rw [idxOf_inj (groupRoot_mem_groupRoots hi), groupRoot_eq_iff]
  standsFor k f hf := by
    obtain ⟨r, first, rest, hk, hgroup, rfl⟩ := exists_group_of_getElem? hf
    refine (standsFor_mergeGroup order first rest).congr fun g => ?_
    rw [← hgroup, mem_groupAt]
    refine exists_congr fun i => and_congr_right fun hi => ?_
    exact (idxOf_groupRoot_eq_iff (List.getElem?_eq_some_iff.mp hi).1 hk).symm

end Sorted

theorem assigns_aggregate [SetOrder] (raw : List Finding) (diagnostics : List Diagnostic) (order : RuleOrder)
    (metadata : Entries) : ∃ κ, Assigns raw (aggregate raw diagnostics order metadata).findings κ := by
  obtain ⟨κ, hκ⟩ := (assigns_mergeGroups order (raw.mergeSort fun a b => (canonicalCmp a b).isLE)).perm_raw
    (mergeSort_perm raw _).symm
  exact hκ.perm_merged (mergeSort_perm _ _).symm

theorem Assigns.exists_equiv (h : Assigns raw merged κ) :
    ∃ e : Quotient (EqvGen.setoid fun i j : Fin raw.length => isDuplicate (raw.get i) (raw.get j) = true) ≃
        Fin merged.length,
      ∀ c, StandsFor (merged.get (e c)) fun g => ∃ i, Quotient.mk _ i = c ∧ raw.get i = g := by
  have hclass : ∀ i j : Fin raw.length, κ i = κ j ↔
      EqvGen (fun i j : Fin raw.length => isDuplicate (raw.get i) (raw.get j) = true) i j := fun i j => by
    rw [h.eq_iff i i.2 j j.2, connected_iff]
  let place : Quotient (EqvGen.setoid fun i j : Fin raw.length => isDuplicate (raw.get i) (raw.get j) = true) →
      Fin merged.length :=
    Quotient.lift (fun i => ⟨κ i, h.lt i i.2⟩) fun i j hij => Fin.ext ((hclass i j).mpr hij)
  have hinj : Injective place := by
    rintro ⟨i⟩ ⟨j⟩ hij
    exact Quotient.sound ((hclass i j).mp (Fin.ext_iff.mp hij))
  have honto : Surjective place := by
    intro k
    obtain ⟨i, hi, hik⟩ := h.onto k k.2
    exact ⟨Quotient.mk _ ⟨i, hi⟩, Fin.ext hik⟩
  refine ⟨Equiv.ofBijective place ⟨hinj, honto⟩, fun c => ?_⟩
  refine (h.standsFor (place c) _ (getElem?_eq_getElem (place c).2)).congr fun g => ?_
  constructor
  · rintro ⟨i, hi, hik⟩
    obtain ⟨hlt, rfl⟩ := List.getElem?_eq_some_iff.mp hi
    exact ⟨⟨i, hlt⟩, hinj (Fin.ext hik), rfl⟩
  · rintro ⟨i, rfl, rfl⟩
    exact ⟨i, getElem?_eq_getElem i.2, rfl⟩

variable {a b merged merged' : List Finding} {κ κ' : Nat → Nat} {f g : Finding} {i j : Nat}

/-- The finding is about the same rule and file as another one and says at least as much. -/
structure Finding.Covers (g f : Finding) : Prop where
  ruleId : g.ruleId = f.ruleId
  path : normalizePath g.location.path = normalizePath f.location.path
  severity : f.severity ≤ g.severity
  evidence : ∀ v ∈ f.evidence, v ∈ g.evidence
  occurrences : ∀ l ∈ f.occurrences, l ∈ g.occurrences

theorem StandsFor.covers {member member' : Finding → Prop} (hf : StandsFor f member) (hg : StandsFor g member')
    (hmem : ∀ x, member x → member' x) (hrule : ∀ x y, member' x → member' y → x.ruleId = y.ruleId)
    (hpath : ∀ x y, member' x → member' y → normalizePath x.location.path = normalizePath y.location.path) :
    g.Covers f := by
  obtain ⟨x, hx, hfx⟩ := hf.origin
  obtain ⟨y, hy, hgy⟩ := hg.origin
  constructor
  · rw [hfx, hgy]
    exact hrule y x hy (hmem x hx)
  · rw [hfx, hgy]
    exact hpath y x hy (hmem x hx)
  · rw [hfx]
    exact hg.worst x (hmem x hx)
  · intro v hv
    obtain ⟨z, hz, hvz⟩ := (hf.mem_evidence v).mp hv
    exact (hg.mem_evidence v).mpr ⟨z, hmem z hz, hvz⟩
  · intro l hl
    obtain ⟨z, hz, hlz⟩ := (hf.mem_occurrences l).mp hl
    exact (hg.mem_occurrences l).mpr ⟨z, hmem z hz, hlz⟩

variable (b)

theorem getElem?_append_of_some (h : a[i]? = some f) : (a ++ b)[i]? = some f := by
  rw [List.getElem?_append_left (List.getElem?_eq_some_iff.mp h).1, h]

theorem lt_length_append (hi : i < a.length) : i < (a ++ b).length := by
  rw [List.length_append]
  omega

theorem Connected.append (h : Connected a i j) : Connected (a ++ b) i j := by
  refine h.map (φ := id) fun i j hd => ?_
  obtain ⟨x, y, hx, hy, hxy⟩ := hd
  exact ⟨x, y, getElem?_append_of_some b hx, getElem?_append_of_some b hy, hxy⟩

namespace Assigns
variable (h : Assigns a merged κ) (h' : Assigns (a ++ b) merged' κ')
include h h'

variable {b}

theorem place_append (hi : i < a.length) (hj : j < a.length) (hij : κ i = κ j) : κ' i = κ' j := by
  rw [h'.eq_iff i (lt_length_append b hi) j (lt_length_append b hj)]
  exact ((h.eq_iff i hi j hj).mp hij).append b

theorem exists_covers (hf : f ∈ merged) : ∃ g ∈ merged', g.Covers f := by
  obtain ⟨k, hk⟩ := List.mem_iff_getElem?.mp hf
  obtain ⟨i, hi, rfl⟩ := h.onto k (List.getElem?_eq_some_iff.mp hk).1
  have hplace := h'.lt i (lt_length_append b hi)
  have hg := List.getElem?_eq_getElem hplace
  -- the members at the new place lie in one group
  have hconn : ∀ m n x y, (a ++ b)[m]? = some x → κ' m = κ' i → (a ++ b)[n]? = some y → κ' n = κ' i →
      Connected (a ++ b) m n := by
    intro m n x y hx hm hy hn
    rw [← h'.eq_iff m (List.getElem?_eq_some_iff.mp hx).1 n (List.getElem?_eq_some_iff.mp hy).1, hm, hn]
  refine ⟨merged'[κ' i], List.getElem_mem hplace, (h.standsFor _ _ hk).covers (h'.standsFor _ _ hg) ?_ ?_ ?_⟩
  · rintro x ⟨m, hx, hm⟩
    have hlt := (List.getElem?_eq_some_iff.mp hx).1
    exact ⟨m, getElem?_append_of_some b hx, place_append h h' hlt hi hm⟩
  · rintro x y ⟨m, hx, hm⟩ ⟨n, hy, hn⟩
    exact congrArg Prod.fst (bucket_eq_of_connected (hconn m n x y hx hm hy hn) hx hy)
  · rintro x y ⟨m, hx, hm⟩ ⟨n, hy, hn⟩
    exact congrArg Prod.snd (bucket_eq_of_connected (hconn m n x y hx hm hy hn) hx hy)

theorem length_append_le : merged'.length ≤ merged.length + b.length := by
  obtain ⟨first, hfirst⟩ := Classical.skolem.mp fun k : Fin merged.length => h.onto k k.2
  have hadded : ∀ j : Fin b.length, a.length + j < (a ++ b).length := fun j => by
    rw [List.length_append]
    omega
  let place : Fin merged.length ⊕ Fin b.length → Fin merged'.length :=
    Sum.elim (fun k => ⟨κ' (first k), h'.lt _ (lt_length_append b (hfirst k).1)⟩)
      fun j => ⟨κ' (a.length + j), h'.lt _ (hadded j)⟩
  have honto : Surjective place := by
    intro k
    obtain ⟨i, hi, hik⟩ := h'.onto k k.2
    rcases Nat.lt_or_ge i a.length with hia | hia
    · refine ⟨Sum.inl ⟨κ i, h.lt i hia⟩, Fin.ext ?_⟩
      obtain ⟨hlt, hplace⟩ := hfirst ⟨κ i, h.lt i hia⟩
      exact (place_append h h' hlt hia hplace).trans hik
    · rw [List.length_append] at hi
      refine ⟨Sum.inr ⟨i - a.length, by omega⟩, Fin.ext ?_⟩
      have hi' : a.length + (i - a.length) = i := by omega
      exact (congrArg κ' hi').trans hik
  simpa using Fintype.card_le_of_surjective place honto

end Assigns

/-- When raw findings are added, each finding of the report is covered by one of the new report, and
    there is at most one finding more for each raw finding added. -/
theorem aggregate_monotone [SetOrder] (a b : List Finding) (diagnostics diagnostics' : List Diagnostic)
    (order order' : RuleOrder) (metadata metadata' : Entries) :
    let smaller := (aggregate a diagnostics order metadata).findings
    let larger := (aggregate (a ++ b) diagnostics' order' metadata').findings
    (∀ f ∈ smaller, ∃ g ∈ larger, g.Covers f) ∧ larger.length ≤ smaller.length + b.length := by
  obtain ⟨κ, h⟩ := assigns_aggregate a diagnostics order metadata
  obtain ⟨κ', h'⟩ := assigns_aggregate (a ++ b) diagnostics' order' metadata'
  exact ⟨fun f hf => h.exists_covers h' hf, h.length_append_le h'⟩

end ContractAudit

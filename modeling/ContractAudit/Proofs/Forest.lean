import Mathlib.Logic.Relation
import ContractAudit.Report.Aggregate

/-! # Classes of a forest

Looking up a root shortens ways and changes no root, so roots are those of a walk that changes nothing
(`top`). -/

namespace ContractAudit.Forest
open Relation
variable {r : Nat → Nat → Prop} {pairs : List (Nat × Nat)}

def top (f : Forest) (i : Nat) : Nat := if f.up i = i then i else f.top (f.up i)
termination_by i
decreasing_by
  have := f.up_le i
  omega

variable {f g : Forest} {i j k : Nat}

theorem top_of_up_eq (h : f.up i = i) : f.top i = i := by
  rw [top, if_pos h]

theorem top_up (f : Forest) (i : Nat) : f.top (f.up i) = f.top i := by
  by_cases h : f.up i = i
  · rw [h]
  · rw [top.eq_def f i, if_neg h]

theorem up_top (f : Forest) (i : Nat) : f.up (f.top i) = f.top i := by
  fun_induction top f i with
  | case1 i h => exact h
  | case2 i h ih => exact ih

theorem top_le (f : Forest) (i : Nat) : f.top i ≤ i := by
  fun_induction top f i with
  | case1 i h => exact Nat.le_refl i
  | case2 i h ih => exact Nat.le_trans ih (f.up_le i)

theorem top_top (f : Forest) (i : Nat) : f.top (f.top i) = f.top i := top_of_up_eq (f.up_top i)

theorem lt_size_of_up_ne (h : f.up i ≠ i) : i < f.parent.size := by
  rcases Nat.lt_or_ge i f.parent.size with hi | hi
  · exact hi
  · exact absurd (by simp [up, Array.getD, Nat.not_lt.mpr hi]) h

theorem up_point {h : j ≤ i} (hi : i < f.parent.size) (k : Nat) :
    (f.point i j h).up k = if k = i then j else f.up k := by
  by_cases hk : k = i
  · subst hk
    simp [up, point, Array.getD, hi]
  · have hk' : i ≠ k := fun e => hk e.symm
    by_cases hs : k < f.parent.size
    · simp [up, point, Array.getD, hk, hs, Array.getElem_setIfInBounds hs, hk']
    · simp [up, point, Array.getD, hk, hs]

/-- Pointing numbers elsewhere on their way up, without a new root, keeps where the ways end. -/
theorem top_congr (hup : ∀ k, f.top (g.up k) = f.top k) (hroot : ∀ k, g.up k = k → f.up k = k) (k : Nat) :
    g.top k = f.top k := by
  fun_induction top g k with
  | case1 k h => exact (top_of_up_eq (hroot k h)).symm
  | case2 k h ih => rw [ih, hup]

theorem top_halve (hi : f.up i ≠ i) (hle : f.up (f.up i) ≤ i) (k : Nat) :
    (f.point i (f.up (f.up i)) hle).top k = f.top k := by
  have hsize := lt_size_of_up_ne hi
  refine top_congr (fun k => ?_) (fun k hk => ?_) k
  · rw [up_point hsize]
    split
    · next e => rw [top_up, top_up, e]
    · exact f.top_up k
  · rw [up_point hsize] at hk
    split at hk
    · next e =>
      subst e
      have h1 := f.up_le k
      have h2 := f.up_le (f.up k)
      omega
    · exact hk

variable (f i)

theorem find_fst : (f.find i).1 = f.top i := by
  fun_induction find f i with
  | case1 f i h => exact (top_of_up_eq h).symm
  | case2 f i h hle ih => rw [ih, top_halve h, top_up, top_up]

theorem top_find (k : Nat) : (f.find i).2.top k = f.top k := by
  fun_induction find f i with
  | case1 f i h => rfl
  | case2 f i h hle ih => rw [ih, top_halve h]

theorem size_find : (f.find i).2.parent.size = f.parent.size := by
  fun_induction find f i with
  | case1 f i h => rfl
  | case2 f i h hle ih => rw [ih]; simp [point]

theorem root_eq_top : f.root i = f.top i := f.find_fst i

theorem root_find (k : Nat) : (f.find i).2.root k = f.root k := by
  rw [root_eq_top, root_eq_top, top_find]

theorem root_le : f.root i ≤ i := by
  rw [root_eq_top]
  exact f.top_le i

@[simp] theorem root_root : f.root (f.root i) = f.root i := by
  simp only [root_eq_top, top_top]

variable {f i}

@[simp] theorem root_discrete (n i : Nat) : (discrete n).root i = i := by
  rw [root_eq_top]
  apply top_of_up_eq
  by_cases h : i < n <;> simp [up, discrete, Array.getD, h]

/-- Pointing a root at a smaller one moves its whole class and nothing else. -/
theorem top_point_root {h : j ≤ i} (hsize : i < f.parent.size) (hi : f.up i = i) (hj : f.up j = j)
    (hne : i ≠ j) (k : Nat) : (f.point i j h).top k = if f.top k = i then j else f.top k := by
  have hji : (f.point i j h).top j = j := by
    apply top_of_up_eq
    rw [up_point hsize, if_neg (Ne.symm hne), hj]
  fun_induction top f k with
  | case1 k hk =>
    rw [← top_up, up_point hsize]
    split
    · next e => exact hji
    · next e =>
      rw [hk]
      exact top_of_up_eq (by rw [up_point hsize, if_neg e, hk])
  | case2 k hk ih =>
    have e : k ≠ i := fun e => hk (e ▸ hi)
    rw [← ih, ← top_up (f.point i j h), up_point hsize, if_neg e]

/-- Of the roots of `i` and `j`, the greater points at the smaller. -/
def link (f : Forest) (i j : Nat) : Forest :=
  if f.root i = f.root j then f
  else f.point (max (f.root i) (f.root j)) (min (f.root i) (f.root j))
    (Nat.le_trans (Nat.min_le_left ..) (Nat.le_max_left ..))

theorem join_eq_link (f : Forest) (i j : Nat) : f.join i j = ((f.find i).2.find j).2.link i j := by
  have hi : ((f.find i).2.find j).2.root i = (f.find i).1 := by rw [root_find, root_find]; rfl
  have hj : ((f.find i).2.find j).2.root j = ((f.find i).2.find j).1 := root_find ..
  unfold link
  simp only [hi, hj]
  rfl

theorem parent_link (f : Forest) (i j : Nat) : (f.link i j).parent = if f.root i = f.root j then f.parent
    else f.parent.setIfInBounds (max (f.root i) (f.root j)) (min (f.root i) (f.root j)) := by
  unfold link
  split <;> rfl

theorem size_link (f : Forest) (i j : Nat) : (f.link i j).parent.size = f.parent.size := by
  rw [parent_link]
  split
  · rfl
  · exact Array.size_setIfInBounds

theorem root_link (hi : i < f.parent.size) (hj : j < f.parent.size) (k : Nat) : (f.link i j).root k =
      if f.root k = max (f.root i) (f.root j) then min (f.root i) (f.root j) else f.root k := by
  unfold link
  by_cases he : f.root i = f.root j
  · rw [if_pos he, he, Nat.max_self, Nat.min_self]
    split
    · next e => exact e
    · rfl
  · rw [if_neg he]
    have hup : ∀ m, f.up (f.root m) = f.root m := by
      intro m
      rw [root_eq_top]
      exact f.up_top m
    have hends : f.up (max (f.root i) (f.root j)) = max (f.root i) (f.root j) ∧
        f.up (min (f.root i) (f.root j)) = min (f.root i) (f.root j) := by
      rcases Nat.le_total (f.root i) (f.root j) with h | h
      · rw [Nat.max_eq_right h, Nat.min_eq_left h]
        exact ⟨hup j, hup i⟩
      · rw [Nat.max_eq_left h, Nat.min_eq_right h]
        exact ⟨hup i, hup j⟩
    have hsize : max (f.root i) (f.root j) < f.parent.size := by
      have h1 := f.root_le i
      have h2 := f.root_le j
      omega
    rw [root_eq_top, top_point_root hsize hends.1 hends.2 (by omega), ← root_eq_top]

/-- Two numbers have one root after a link iff they had one before, or one of them had the root of
    `i` and the other the root of `j`. -/
theorem root_link_eq_iff (hi : i < f.parent.size) (hj : j < f.parent.size) {x y : Nat} :
    (f.link i j).root x = (f.link i j).root y ↔ f.root x = f.root y ∨ (f.root x = f.root i ∧ f.root y = f.root j) ∨
        (f.root x = f.root j ∧ f.root y = f.root i) := by
  rw [root_link hi hj, root_link hi hj]
  split <;> split <;> omega

theorem eqvGen_lift {α β : Type} {r : α → α → Prop} {s : β → β → Prop} (hs : Equivalence s) (φ : α → β)
    (h : ∀ a b, r a b → s (φ a) (φ b)) {a b : α} (hab : EqvGen r a b) : s (φ a) (φ b) :=
  (hs.comap φ).eqvGen_iff.mp (EqvGen.mono h _ _ hab)

/-- The classes of the forest are those of the equivalence that a relation generates. -/
def Represents (f : Forest) (r : Nat → Nat → Prop) : Prop :=
  ∀ i j, f.root i = f.root j ↔ EqvGen r i j

theorem represents_discrete (n : Nat) : (discrete n).Represents fun _ _ => False := by
  intro i j
  rw [root_discrete, root_discrete]
  exact ⟨fun h => h ▸ EqvGen.refl i, fun h => eqvGen_lift ⟨Eq.refl, Eq.symm, Eq.trans⟩ id (fun _ _ => False.elim) h⟩

theorem Represents.of_root (h : f.Represents r) (hg : ∀ k, g.root k = f.root k) : g.Represents r := by
  intro i j
  rw [hg, hg]
  exact h i j

/-- What one link does: the linked pair is added to the relation. -/
theorem Represents.link (h : f.Represents r) (hi : i < f.parent.size)
    (hj : j < f.parent.size) : (f.link i j).Represents fun a b => r a b ∨ (a, b) = (i, j) := by
  have mono : ∀ {a b}, f.root a = f.root b → EqvGen (fun a b => r a b ∨ (a, b) = (i, j)) a b :=
    fun he => EqvGen.mono (fun _ _ => Or.inl) _ _ ((h _ _).mp he)
  have pair : EqvGen (fun a b => r a b ∨ (a, b) = (i, j)) i j := EqvGen.rel _ _ (Or.inr rfl)
  intro x y
  refine ⟨fun he => ?_, fun he => ?_⟩
  · rcases (root_link_eq_iff hi hj).mp he with he | ⟨hx, hy⟩ | ⟨hx, hy⟩
    · exact mono he
    · exact ((mono hx).trans _ _ _ pair).trans _ _ _ (mono hy.symm)
    · exact ((mono hx).trans _ _ _ (pair.symm _ _)).trans _ _ _ (mono hy.symm)
  · refine eqvGen_lift ⟨Eq.refl, Eq.symm, Eq.trans⟩ (f.link i j).root (fun a b hab => ?_) he
    rcases hab with hab | hab
    · exact (root_link_eq_iff hi hj).mpr (Or.inl ((h a b).mpr (EqvGen.rel a b hab)))
    · cases hab
      exact (root_link_eq_iff hi hj).mpr (Or.inr (Or.inl ⟨rfl, rfl⟩))

theorem size_join (f : Forest) (i j : Nat) : (f.join i j).parent.size = f.parent.size := by
  rw [join_eq_link, size_link, size_find, size_find]

theorem Represents.join (h : f.Represents r) (hi : i < f.parent.size) (hj : j < f.parent.size) :
    (f.join i j).Represents fun a b => r a b ∨ (a, b) = (i, j) := by
  rw [join_eq_link]
  refine (h.of_root fun k => ?_).link ?_ ?_
  · rw [root_find, root_find]
  · rwa [size_find, size_find]
  · rwa [size_find, size_find]

/-- What a run of joins does: all joined pairs are added to the relation. -/
theorem Represents.joinAll (h : f.Represents r) (hp : ∀ p ∈ pairs, p.1 < f.parent.size ∧ p.2 < f.parent.size) :
    (f.joinAll pairs).Represents fun a b => r a b ∨ (a, b) ∈ pairs := by
  induction pairs generalizing f r with
  | nil => simpa [Forest.joinAll] using h
  | cons p pairs ih =>
    have hjoin := h.join (hp p (List.mem_cons_self ..)).1 (hp p (List.mem_cons_self ..)).2
    have hrest := ih hjoin fun q hq => by
      rw [size_join]
      exact hp q (List.mem_cons_of_mem _ hq)
    simpa only [Forest.joinAll, List.foldl_cons, or_assoc, List.mem_cons] using hrest

theorem root_joinAll_eq_iff {n : Nat} (hp : ∀ p ∈ pairs, p.1 < n ∧ p.2 < n) :
    ((discrete n).joinAll pairs).root i = ((discrete n).joinAll pairs).root j ↔
      EqvGen (fun a b => (a, b) ∈ pairs) i j := by
  have hsize : ∀ p ∈ pairs, p.1 < (discrete n).parent.size ∧ p.2 < (discrete n).parent.size := by
    simpa [discrete] using hp
  simpa using (represents_discrete n).joinAll hsize i j

end ContractAudit.Forest

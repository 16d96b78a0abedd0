import Mathlib.Data.List.Perm.Basic
import Mathlib.Data.List.Forall2
import Mathlib.Logic.Equiv.Basic

/-! # Sorted lists

A list without repetition that is sorted by a total order is determined by its members. -/

namespace ContractAudit
open Std List

variable {α β κ : Type}

/-- The test decides a total order. -/
structure IsOrder (le : α → α → Bool) : Prop where
  trans : ∀ a b c, le a b = true → le b c = true → le a c = true
  total : ∀ a b, (le a b || le b a) = true
  antisymm : ∀ a b, le a b = true → le b a = true → a = b

variable (cmp : α → α → Ordering)

theorem isLE_total [OrientedCmp cmp] (a b : α) : ((cmp a b).isLE || (cmp b a).isLE) = true := by
  have h : cmp b a = (cmp a b).swap := OrientedCmp.eq_swap
  rw [h]
  cases cmp a b <;> rfl

theorem isOrder_isLE [TransCmp cmp] [LawfulEqCmp cmp] : IsOrder fun a b => (cmp a b).isLE where
  trans _ _ _ := TransCmp.isLE_trans
  total := isLE_total cmp
  antisymm _ _ hab hba := LawfulEqCmp.eq_of_compare (OrientedCmp.isLE_antisymm hab hba)

theorem isOrder_text : IsOrder fun a b : String => decide (a ≤ b) where
  trans _ _ _ hab hbc := by
    simp only [decide_eq_true_eq] at hab hbc ⊢
    exact Std.le_trans hab hbc
  total a b := by
    simpa using Std.le_total (a := a) (b := b)
  antisymm _ _ hab hba := by
    simp only [decide_eq_true_eq] at hab hba
    exact Std.le_antisymm hab hba

theorem pairwise_mergeSort_isLE [TransCmp cmp] (l : List α) :
    (l.mergeSort fun a b => (cmp a b).isLE).Pairwise fun a b => (cmp a b).isLE = true :=
  pairwise_mergeSort (fun _ _ _ => TransCmp.isLE_trans) (isLE_total cmp) l

theorem mergeSort_eq_of_perm {le : α → α → Bool} (h : IsOrder le) {s t : List α} (hp : s.Perm t) :
    s.mergeSort le = t.mergeSort le := by
  refine Perm.eq_of_pairwise (fun a b _ _ => h.antisymm a b) (pairwise_mergeSort h.trans h.total s)
    (pairwise_mergeSort h.trans h.total t) ?_
  exact (mergeSort_perm s le).trans (hp.trans (mergeSort_perm t le).symm)

section Stability
variable {le : α → α → Bool} {a : α} {s t : List α}

def tied (le : α → α → Bool) (a b : α) : Bool := le a b && le b a

theorem mem_iff_of_ties (refl : ∀ a, le a a = true) (h : ∀ a, s.filter (tied le a) = t.filter (tied le a)) :
    a ∈ s ↔ a ∈ t := by
  have hself : tied le a a = true := by rw [tied, refl, Bool.and_self]
  have := congrArg (a ∈ ·) (h a)
  simpa [hself] using this

theorem le_of_mem_sorted (refl : ∀ a, le a a = true) (hs : (a :: s).Pairwise fun a b => le a b = true) {b : α}
    (hb : b ∈ a :: s) : le a b = true := by
  rcases mem_cons.mp hb with rfl | hb
  · exact refl b
  · exact (pairwise_cons.mp hs).1 b hb

theorem eq_of_sorted_of_ties (refl : ∀ a, le a a = true) (hs : s.Pairwise fun a b => le a b = true)
    (ht : t.Pairwise fun a b => le a b = true) (h : ∀ a, s.filter (tied le a) = t.filter (tied le a)) : s = t := by
  induction s generalizing t with
  | nil => exact (eq_nil_iff_forall_not_mem.mpr fun a ha => not_mem_nil ((mem_iff_of_ties refl h).mpr ha)).symm
  | cons a s ih =>
    cases t with
    | nil => exact absurd ((mem_iff_of_ties refl h).mp (mem_cons_self ..)) not_mem_nil
    | cons b t =>
      have hself : tied le a a = true := by rw [tied, refl, Bool.and_self]
      have htied : tied le a b = true := by
        rw [tied, le_of_mem_sorted refl hs ((mem_iff_of_ties refl h).mpr (mem_cons_self ..)),
          le_of_mem_sorted refl ht ((mem_iff_of_ties refl h).mp (mem_cons_self ..)), Bool.and_self]
      -- the first members are tied, and those tied with them come in one order
      have hfirst := h a
      rw [filter_cons_of_pos hself, filter_cons_of_pos htied] at hfirst
      obtain ⟨rfl, -⟩ := List.cons.inj hfirst
      rw [ih (pairwise_cons.mp hs).2 (pairwise_cons.mp ht).2 fun c => ?_]
      have hc := h c
      by_cases hca : tied le c a = true
      · rw [filter_cons_of_pos hca, filter_cons_of_pos hca] at hc
        exact (List.cons.inj hc).2
      · rwa [filter_cons_of_neg hca, filter_cons_of_neg hca] at hc

section
variable (trans : ∀ a b c, le a b = true → le b c = true → le a c = true)
include trans

theorem filter_tied_mergeSort (total : ∀ a b, (le a b || le b a) = true) (s : List α) (a : α) :
    (s.mergeSort le).filter (tied le a) = s.filter (tied le a) := by
  have hties : (s.filter (tied le a)).Pairwise fun b c => le b c = true := by
    refine pairwise_of_forall_mem_list fun b hb c hc => ?_
    have hb := of_mem_filter hb
    have hc := of_mem_filter hc
    rw [tied, Bool.and_eq_true] at hb hc
    exact trans b a c hb.2 hc.1
  have hsub := (sublist_mergeSort trans total hties filter_sublist).filter (tied le a)
  simp only [filter_filter, Bool.and_self] at hsub
  exact (hsub.eq_of_length ((mergeSort_perm s le).filter _).length_eq.symm).symm

/-- Lists that keep the members of each key in one order are sorted to one list, if members that are
    tied have one key. -/
theorem mergeSort_eq_of_keys [BEq κ] [LawfulBEq κ] {key : α → κ}
    (total : ∀ a b, (le a b || le b a) = true)
    (hkey : ∀ a b, tied le a b = true → key b = key a)
    (h : ∀ k, s.filter (fun a => key a == k) = t.filter fun a => key a == k) : s.mergeSort le = t.mergeSort le := by
  have hties : ∀ a (l : List α), l.filter (tied le a) = (l.filter fun b => key b == key a).filter (tied le a) := by
    intro a l
    rw [filter_filter]
    refine filter_congr fun b _ => ?_
    by_cases hb : tied le a b = true
    · rw [hkey a b hb, beq_self_eq_true, Bool.and_true]
    · rw [Bool.not_eq_true] at hb
      rw [hb, Bool.false_and]
  refine eq_of_sorted_of_ties (fun a => by simpa using total a a) (pairwise_mergeSort trans total s)
    (pairwise_mergeSort trans total t) fun a => ?_
  rw [filter_tied_mergeSort trans total, filter_tied_mergeSort trans total, hties a s, hties a t, h]

end

end Stability

section Distinct
variable [BEq α]

theorem eraseDups_induct {motive : List α → Prop} (nil : motive [])
    (cons : ∀ a l, motive (l.filter fun b => (b == a) = false) → motive (a :: l)) (l : List α) : motive l := by
  generalize hn : l.length = n
  induction n using Nat.strongRecOn generalizing l with
  | ind n ih =>
    cases l with
    | nil => exact nil
    | cons a l =>
      subst hn
      exact cons a l (ih _ (Nat.lt_succ_of_le (length_filter_le ..)) _ rfl)

theorem eraseDups_cons_filter (a : α) (l : List α) :
    (a :: l).eraseDups = a :: (l.filter fun b => (b == a) = false).eraseDups := eraseDupsBy_cons

theorem eraseDups_sublist (l : List α) : l.eraseDups.Sublist l := by
  induction l using eraseDups_induct with
  | nil => exact .slnil
  | cons a l ih =>
    rw [eraseDups_cons_filter]
    exact (ih.trans filter_sublist).cons_cons a

variable [LawfulBEq α]

theorem nodup_eraseDups (l : List α) : l.eraseDups.Nodup := by
  induction l using eraseDups_induct with
  | nil => exact nodup_nil
  | cons a l ih =>
    rw [eraseDups_cons_filter, nodup_cons]
    refine ⟨fun h => ?_, ih⟩
    simpa using mem_eraseDups.mp h

theorem eraseDups_perm {s t : List α} (hm : ∀ a, a ∈ s ↔ a ∈ t) : s.eraseDups.Perm t.eraseDups := by
  rw [perm_ext_iff_of_nodup (nodup_eraseDups s) (nodup_eraseDups t)]
  intro a
  rw [mem_eraseDups, mem_eraseDups, hm]

theorem mem_iff_of_eraseDups_eq {s t : List α} (h : s.eraseDups = t.eraseDups) (a : α) : a ∈ s ↔ a ∈ t := by
  rw [← mem_eraseDups, h, mem_eraseDups]

theorem eraseDups_of_nodup {l : List α} (h : l.Nodup) : l.eraseDups = l := by
  refine (eraseDups_sublist l).eq_of_length (Perm.length_eq ?_)
  rw [perm_ext_iff_of_nodup (nodup_eraseDups l) h]
  exact fun _ => mem_eraseDups

theorem filter_eraseDups (p : α → Bool) (l : List α) : l.eraseDups.filter p = (l.filter p).eraseDups := by
  induction l using eraseDups_induct with
  | nil => rfl
  | cons a l ih =>
    rw [eraseDups_cons_filter, filter_cons, filter_cons, ih, filter_filter]
    cases ha : p a with
    | true => simp [eraseDups_cons_filter, filter_filter, Bool.and_comm]
    | false =>
      have hdrop : ∀ b ∈ l, (p b && decide ((b == a) = false)) = p b := by
        intro b _
        by_cases hb : b = a
        · simp [hb, ha]
        · simp [hb]
      rw [filter_congr hdrop]
      rfl

theorem flatMap_filter_ne {g : α → List β} {a : α} (h : g a = []) (l : List α) :
    (l.filter fun b => (b == a) = false).flatMap g = l.flatMap g := by
  induction l with
  | nil => rfl
  | cons b l ih =>
    rw [filter_cons, flatMap_cons, ← ih]
    by_cases hb : b = a
    · simp [hb, h]
    · simp [hb]

/-- What the members of a list give, each as it first comes, is the same without the members that come
    again. -/
theorem eraseDups_flatMap [BEq β] [LawfulBEq β] (f : α → List β) (l : List α) :
    (l.eraseDups.flatMap f).eraseDups = (l.flatMap f).eraseDups := by
  induction l using eraseDups_induct with
  | nil => rfl
  | cons a l ih =>
    have hnew : (f a).filter (fun c => !(f a).elem c) = [] := by simp
    rw [eraseDups_cons_filter, flatMap_cons, flatMap_cons, eraseDups_append, eraseDups_append, removeAll, removeAll,
      ← filter_eraseDups, ih, filter_eraseDups, filter_flatMap, filter_flatMap,
      flatMap_filter_ne (g := fun b => (f b).filter fun c => !(f a).elem c) hnew]

theorem eraseDups_of_sorted {le : α → α → Bool} (h : IsOrder le) {s t : List α}
    (hs : s.Pairwise fun a b => le a b = true) (ht : t.Pairwise fun a b => le a b = true)
    (hm : ∀ a, a ∈ s ↔ a ∈ t) : s.eraseDups = t.eraseDups :=
  (eraseDups_perm hm).eq_of_pairwise (fun a b _ _ => h.antisymm a b) (hs.sublist (eraseDups_sublist s))
    (ht.sublist (eraseDups_sublist t))

theorem mergeSort_eraseDups_congr {le : α → α → Bool} (h : IsOrder le) {s t : List α}
    (hm : ∀ a, a ∈ s ↔ a ∈ t) : s.eraseDups.mergeSort le = t.eraseDups.mergeSort le :=
  mergeSort_eq_of_perm h (eraseDups_perm hm)

theorem pairwise_mergeSort_eraseDups {le : α → α → Bool} (h : IsOrder le) (l : List α) :
    (l.eraseDups.mergeSort le).Pairwise fun a b => le a b = true ∧ a ≠ b := by
  refine (pairwise_mergeSort h.trans h.total _).and ?_
  exact (mergeSort_perm _ le).nodup_iff.mpr (nodup_eraseDups l)

end Distinct

theorem exists_places_of_perm {s t : List α} (h : s.Perm t) : ∃ σ : Nat ≃ Nat, ∀ i, t[σ i]? = s[i]? := by
  induction h with
  | nil => exact ⟨Equiv.refl Nat, fun _ => rfl⟩
  | cons a _ ih =>
    obtain ⟨σ, hσ⟩ := ih
    refine ⟨⟨fun i => i.casesOn 0 fun i => σ i + 1, fun i => i.casesOn 0 fun i => σ.symm i + 1, ?_, ?_⟩, ?_⟩
    · rintro (_ | i)
      · rfl
      · simp
    · rintro (_ | i)
      · rfl
      · simp
    · rintro (_ | i)
      · rfl
      · simp [hσ]
  | swap a b s =>
    refine ⟨Equiv.swap 0 1, ?_⟩
    rintro (_ | _ | i)
    · rfl
    · rfl
    · rw [Equiv.swap_apply_of_ne_of_ne (by omega) (by omega)]
      rfl
  | trans _ _ ih₁ ih₂ =>
    obtain ⟨σ, hσ⟩ := ih₁
    obtain ⟨τ, hτ⟩ := ih₂
    exact ⟨σ.trans τ, fun i => (hτ (σ i)).trans (hσ i)⟩

theorem getElem?_filterMap_of_isSome {p : α → Option β} {l : List α} (h : ∀ a ∈ l, (p a).isSome = true) (i : Nat) :
    (l.filterMap p)[i]? = l[i]?.bind p := by
  induction l generalizing i with
  | nil => rfl
  | cons a l ih =>
    obtain ⟨b, hb⟩ := Option.isSome_iff_exists.mp (h a (mem_cons_self ..))
    rw [filterMap_cons_some hb]
    cases i with
    | zero => exact hb.symm
    | succ i => exact ih (fun a ha => h a (mem_cons_of_mem _ ha)) i

theorem eq_of_map_eq_map {key : α → κ} {s t : List α} (h : s.map key = t.map key)
    (hinj : ∀ a ∈ s, ∀ b ∈ t, key a = key b → a = b) : s = t := by
  induction s generalizing t with
  | nil => exact (map_eq_nil_iff.mp h.symm).symm
  | cons a s ih =>
    cases t with
    | nil => cases h
    | cons b t =>
      simp only [map_cons, List.cons.injEq] at h
      rw [hinj a (mem_cons_self ..) b (mem_cons_self ..) h.1,
        ih h.2 fun x hx y hy => hinj x (mem_cons_of_mem _ hx) y (mem_cons_of_mem _ hy)]

/-- Two strictly sorted lists whose members correspond, each to one in the other list, correspond
    place by place if the orders agree on corresponding members. -/
theorem forall₂_of_sorted {r : α → β → Prop} {lt : α → α → Prop} {lt' : β → β → Prop}
    (hlt : ∀ {a a' b b'}, r a b → r a' b' → (lt a a' ↔ lt' b b')) (irrefl : ∀ a, ¬lt a a)
    (asymm : ∀ a b, lt a b → ¬lt b a) {s : List α} {t : List β} (hs : s.Pairwise lt) (ht : t.Pairwise lt')
    (hst : ∀ a ∈ s, ∃ b ∈ t, r a b) (hts : ∀ b ∈ t, ∃ a ∈ s, r a b) : Forall₂ r s t := by
  induction s generalizing t with
  | nil =>
    cases t with
    | nil => exact Forall₂.nil
    | cons b t =>
      obtain ⟨a, ha, -⟩ := hts b (mem_cons_self ..)
      cases ha
  | cons a s ih =>
    cases t with
    | nil =>
      obtain ⟨b, hb, -⟩ := hst a (mem_cons_self ..)
      cases hb
    | cons b t =>
      rw [pairwise_cons] at hs ht
      -- the first members correspond: else each would come before the other
      have hab : r a b := by
        obtain ⟨b', hb', hr⟩ := hst a (mem_cons_self ..)
        obtain ⟨a', ha', hr'⟩ := hts b (mem_cons_self ..)
        rcases mem_cons.mp hb' with rfl | hb'
        · exact hr
        rcases mem_cons.mp ha' with rfl | ha'
        · exact hr'
        exact absurd (hs.1 a' ha') (asymm _ _ ((hlt hr' hr).mpr (ht.1 b' hb')))
      refine Forall₂.cons hab (ih hs.2 ht.2 (fun x hx => ?_) (fun y hy => ?_))
      · obtain ⟨y, hy, hr⟩ := hst x (mem_cons_of_mem _ hx)
        rcases mem_cons.mp hy with rfl | hy
        · have hyy := (hlt hab hr).mp (hs.1 x hx)
          exact absurd ((hlt hab hab).mpr hyy) (irrefl a)
        · exact ⟨y, hy, hr⟩
      · obtain ⟨x, hx, hr⟩ := hts y (mem_cons_of_mem _ hy)
        rcases mem_cons.mp hx with rfl | hx
        · exact absurd ((hlt hab hr).mpr (ht.1 y hy)) (irrefl x)
        · exact ⟨x, hx, hr⟩

end ContractAudit

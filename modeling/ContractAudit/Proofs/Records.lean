import Mathlib.Data.List.Nodup
import ContractAudit.Value.Basic

/-! # Entries with string keys -/

namespace ContractAudit
open List

@[simp] theorem Scalar.sameKey_str (a b : String) : Scalar.sameKey (.str a) (.str b) = (a == b) := by
  simp [Scalar.sameKey, Scalar.number?]

namespace Entries

/-- The keys are strings, and no two entries have one key. -/
structure IsRecord (m : Entries) : Prop where
  strings : ∀ e ∈ m, ∃ k, e.1 = .str k
  distinct : (m.map (·.1)).Nodup

variable {m n : Entries} {k : String} {v : Value}

theorem IsRecord.perm (h : IsRecord m) (hp : n.Perm m) : IsRecord n where
  strings e he := h.strings e (hp.mem_iff.mp he)
  distinct := (hp.map _).nodup_iff.mpr h.distinct

theorem isRecord_cons {e : Scalar × Value} :
    IsRecord (e :: m) ↔ (∃ a, e.1 = .str a) ∧ e.1 ∉ m.map (·.1) ∧ IsRecord m := by
  constructor
  · intro h
    obtain ⟨hnotin, hdistinct⟩ := nodup_cons.mp h.distinct
    obtain ⟨hkey, hstrings⟩ := forall_mem_cons.mp h.strings
    exact ⟨hkey, hnotin, hstrings, hdistinct⟩
  · rintro ⟨hkey, hnotin, h⟩
    exact ⟨forall_mem_cons.mpr ⟨hkey, h.strings⟩, nodup_cons.mpr ⟨hnotin, h.distinct⟩⟩

theorem key_mem {key : Scalar} (h : (key, v) ∈ m) : key ∈ m.map (·.1) := mem_map.mpr ⟨_, h, rfl⟩

theorem get_cons (a : String) (w : Value) (m : Entries) (k : String) :
    get ((.str a, w) :: m) k = if a = k then some w else m.get k := by
  rw [get, get?, find?_cons, Scalar.sameKey_str]
  by_cases h : a = k
  · rw [beq_iff_eq.mpr h, if_pos h]
    rfl
  · rw [beq_eq_false_iff_ne.mpr h, if_neg h]
    rfl

section
variable (h : IsRecord m)
include h

/-- In a record a key has a value if they are an entry, wherever it stands. -/
theorem get_eq_some_iff : m.get k = some v ↔ (.str k, v) ∈ m := by
  induction m with
  | nil => simp [get, get?]
  | cons e m ih =>
    obtain ⟨key, w⟩ := e
    obtain ⟨⟨a, rfl⟩, hnotin, hm⟩ := isRecord_cons.mp h
    rw [get_cons, mem_cons, ← ih hm]
    by_cases hk : a = k
    · subst hk
      have hnone : get m a ≠ some v := by
        intro hv
        exact hnotin (key_mem ((ih hm).mp hv))
      simp [hnone, eq_comm]
    · simp [hk, Ne.symm hk]

theorem get_perm (hp : n.Perm m) (k : String) : n.get k = m.get k := by
  ext v
  rw [get_eq_some_iff h, get_eq_some_iff (h.perm hp), hp.mem_iff]

theorem get_eq_none_iff : m.get k = none ↔ .str k ∉ m.map (·.1) := by
  rw [Option.eq_none_iff_forall_ne_some]
  constructor
  · intro hnone hmem
    obtain ⟨⟨_, v⟩, he, rfl⟩ := mem_map.mp hmem
    exact hnone v ((get_eq_some_iff h).mpr he)
  · intro hnotin v hv
    exact hnotin (key_mem ((get_eq_some_iff h).mp hv))

/-- A record gets a new entry at its end, or a new value under a key that it has. -/
theorem insert_str (k : String) (v : Value) :
    m.insert (.str k) v = if .str k ∈ m.map (·.1) then m.map (fun e => if e.1 = .str k then (e.1, v) else e)
      else m ++ [(.str k, v)] := by
  have hsame : ∀ e ∈ m, e.1.sameKey (.str k) = decide (e.1 = .str k) := by
    intro e he
    obtain ⟨a, ha⟩ := h.strings e he
    simp [ha, Bool.beq_eq_decide_eq]
  have hany : (m.any fun e => e.1.sameKey (.str k)) = decide (.str k ∈ m.map (·.1)) := by
    rw [Bool.eq_iff_iff, any_eq_true, decide_eq_true_iff, mem_map]
    constructor
    · rintro ⟨e, he, hk⟩
      exact ⟨e, he, of_decide_eq_true (hsame e he ▸ hk)⟩
    · rintro ⟨e, he, hk⟩
      exact ⟨e, he, hsame e he ▸ decide_eq_true hk⟩
  have hmap : (m.map fun e => if e.1.sameKey (.str k) = true then (e.1, v) else e) =
      m.map fun e => if e.1 = .str k then (e.1, v) else e :=
    map_congr_left fun e he => by simp only [hsame e he, decide_eq_true_eq]
  rw [insert, hany, hmap]
  simp only [decide_eq_true_eq]

theorem IsRecord.insert (k : String) (v : Value) : IsRecord (m.insert (.str k) v) := by
  rw [insert_str h]
  split
  · have hkeys : (m.map fun e => if e.1 = .str k then (e.1, v) else e).map (·.1) = m.map (·.1) := by
      rw [map_map]
      refine map_congr_left fun e _ => ?_
      simp only [Function.comp_apply]
      split <;> rfl
    refine ⟨?_, hkeys ▸ h.distinct⟩
    intro e he
    have hkey := key_mem he
    rw [hkeys] at hkey
    obtain ⟨e', he', hkey⟩ := mem_map.mp hkey
    exact hkey ▸ h.strings e' he'
  · next hnotin =>
    have hcons : IsRecord ((.str k, v) :: m) := isRecord_cons.mpr ⟨⟨k, rfl⟩, hnotin, h⟩
    exact hcons.perm perm_append_comm

theorem mem_insert (a : String) (v : Value) (k : String) (w : Value) :
    (.str k, w) ∈ m.insert (.str a) v ↔ if a = k then v = w else (.str k, w) ∈ m := by
  rw [insert_str h]
  split
  · next hin =>
    rw [mem_map]
    split
    · next hk =>
      subst hk
      constructor
      · rintro ⟨e, -, he⟩
        split at he
        · exact congrArg Prod.snd he
        · next hne => exact absurd (congrArg Prod.fst he) hne
      · rintro rfl
        obtain ⟨e, he, hkey⟩ := mem_map.mp hin
        exact ⟨e, he, by rw [if_pos hkey, hkey]⟩
    · next hk =>
      constructor
      · rintro ⟨e, he, hew⟩
        split at hew
        · next heq => exact absurd (Scalar.str.inj (heq.symm.trans (congrArg Prod.fst hew))) hk
        · exact hew ▸ he
      · intro hmem
        exact ⟨_, hmem, if_neg fun heq => hk (Scalar.str.inj heq).symm⟩
  · next hnotin =>
    rw [mem_append, mem_singleton]
    split
    · next hk =>
      subst hk
      have : (.str a, w) ∉ m := fun hmem => hnotin (key_mem hmem)
      simp [this, eq_comm]
    · next hk => simp [Ne.symm hk]

theorem get_insert (a : String) (v : Value) (k : String) :
    (m.insert (.str a) v).get k = if a = k then some v else m.get k := by
  ext w
  rw [get_eq_some_iff (h.insert a v), mem_insert h]
  split
  · rw [Option.some.injEq]
  · rw [get_eq_some_iff h]

end

theorem overlay_cons (m : Entries) (e : Scalar × Value) (n : Entries) :
    overlay m (e :: n) = overlay (m.insert e.1 e.2) n := rfl

theorem IsRecord.overlay (hm : IsRecord m) (hn : IsRecord n) : IsRecord (overlay m n) := by
  induction n generalizing m with
  | nil => exact hm
  | cons e n ih =>
    obtain ⟨⟨a, ha⟩, -, hn'⟩ := isRecord_cons.mp hn
    rw [overlay_cons, ha]
    exact ih (hm.insert a e.2) hn'

/-- The value of a key is that of the upper record, if it has the key. -/
theorem get_overlay (hm : IsRecord m) (hn : IsRecord n) (k : String) :
    (overlay m n).get k = (n.get k).or (m.get k) := by
  induction n generalizing m with
  | nil => rfl
  | cons e n ih =>
    obtain ⟨key, w⟩ := e
    obtain ⟨⟨a, rfl⟩, hnotin, hn'⟩ := isRecord_cons.mp hn
    rw [overlay_cons, ih (hm.insert a w) hn', get_insert hm, get_cons]
    split
    · next hk => rw [(get_eq_none_iff hn').mpr (hk ▸ hnotin), Option.none_or, Option.some_or]
    · rfl

/-- Records without a common key are laid one behind the other. -/
theorem overlay_eq_append (h : IsRecord (m ++ n)) : overlay m n = m ++ n := by
  induction n generalizing m with
  | nil => exact (append_nil m).symm
  | cons e n ih =>
    have hm : IsRecord m := ⟨fun x hx => h.strings x (mem_append_left _ hx), (map_append ▸ h.distinct).of_append_left⟩
    obtain ⟨a, ha⟩ := h.strings e (mem_append_right _ mem_cons_self)
    have hnotin : .str a ∉ m.map (·.1) := by
      intro hin
      have hd := map_append ▸ h.distinct
      exact disjoint_of_nodup_append hd hin (by simp [ha])
    rw [append_cons] at h ⊢
    rw [overlay_cons, ha, insert_str hm, if_neg hnotin, ← ha]
    exact ih h

theorem ofList_eq_self (h : IsRecord m) : ofList m = m := overlay_eq_append (m := []) h

end Entries
end ContractAudit

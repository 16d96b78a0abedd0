import Mathlib.Order.Bounds.Basic
import ContractAudit.Proofs.Duplicates

/-! # The loops that group findings

The loops are run one assignment at a time on a bare array. Each array that they pass through is a forest
with the classes of the pairs joined so far. -/

namespace ContractAudit.Grouping
open Relation Forest

/-- One turn of a climb: the number is pointed at its grandparent, and the climb goes on from there. -/
inductive Halve : Array Nat × Nat → Array Nat × Nat → Prop
  | mk {p : Array Nat} {i j k : Nat} (up : p[i]? = some j) (ne : j ≠ i) (upup : p[j]? = some k) :
    Halve (p, i) (p.setIfInBounds i k, k)

/-- The climb from `i` comes to an end, at `r`. -/
def Finds (p : Array Nat) (i r : Nat) : Prop := ∃ q, ReflTransGen Halve (p, i) (q, r) ∧ q[r]? = some r

/-- What the loops make of the array, with the pairs joined so far: a number on any climb is pointed at its
    grandparent, or of the ends of the climbs from a pair of duplicates the greater is pointed at the smaller. -/
inductive Reached (l : List Finding) : Array Nat → List (Nat × Nat) → Prop
  | start : Reached l (Array.range l.length) []
  | halve {p d q i k} (h : Reached l p d) (turn : Halve (p, i) (q, k)) : Reached l q d
  | link {p d a b x y} (h : Reached l p d) (pair : (a, b) ∈ relatedPairs isDuplicate l) (ha : Finds p a x)
      (hb : Finds p b y) : Reached l (if x = y then p else p.setIfInBounds (max x y) (min x y)) (d ++ [(a, b)])

variable {l : List Finding} {f : Forest} {p q : Array Nat} {d pairs : List (Nat × Nat)} {a b i j k r : Nat}

theorem up_eq_iff (hi : i < f.parent.size) : f.up i = j ↔ f.parent[i]? = some j := by
  simp [up, Array.getD, hi]

theorem up_of_getElem? (h : f.parent[i]? = some j) : f.up i = j :=
  (up_eq_iff (Array.getElem?_eq_some_iff.mp h).1).mpr h

theorem root_of_getElem? (h : f.parent[i]? = some i) : f.root i = i := by
  rw [root_eq_top, top_of_up_eq (up_of_getElem? h)]

theorem getElem?_root (hi : i < f.parent.size) : f.parent[f.root i]? = some (f.root i) := by
  rw [← up_eq_iff (Nat.lt_of_le_of_lt (f.root_le i) hi), root_eq_top, up_top]

theorem isLeast_root {r : Nat → Nat → Prop} (h : f.Represents r) (i : Nat) : IsLeast {j | EqvGen r i j} (f.root i) :=
  ⟨(h _ _).mp (f.root_root i).symm, fun j hj => (h i j).mpr hj ▸ f.root_le j⟩

/-- What a turn of a climb does: the array stays a forest with the same roots. -/
theorem Halve.forest (h : Halve (f.parent, i) (q, k)) : ∃ g : Forest, g.parent = q ∧
    g.parent.size = f.parent.size ∧ (∀ m, g.root m = f.root m) ∧ f.root k = f.root i ∧ k < i := by
  cases h with
  | mk up ne upup =>
    obtain rfl := up_of_getElem? up
    obtain rfl := up_of_getElem? upup
    have hle := f.up_le (f.up i)
    have hlt : f.up i < i := Nat.lt_of_le_of_ne (f.up_le i) ne
    refine ⟨f.point i (f.up (f.up i)) (by omega), rfl, by simp [point], fun m => ?_, ?_, by omega⟩
    · rw [root_eq_top, root_eq_top, top_halve ne]
    · rw [root_eq_top, root_eq_top, top_up, top_up]

theorem forest_of_climb {x y : Array Nat × Nat} (h : ReflTransGen Halve x y) (hf : f.parent = x.1) :
    ∃ g : Forest, g.parent = y.1 ∧ (∀ m, g.root m = f.root m) ∧ f.root y.2 = f.root x.2 := by
  induction h with
  | refl => exact ⟨f, hf, fun _ => rfl, rfl⟩
  | @tail y z _ hturn ih =>
    obtain ⟨p, i⟩ := y
    obtain ⟨g, rfl, hroots, hroot⟩ := ih
    obtain ⟨g', hg', -, hroots', hroot', -⟩ := hturn.forest
    exact ⟨g', hg', fun m => (hroots' m).trans (hroots m), by rw [← hroot, ← hroots, hroot', hroots]⟩

theorem climb_find (f : Forest) (i : Nat) (hi : i < f.parent.size) :
    ReflTransGen Halve (f.parent, i) ((f.find i).2.parent, (f.find i).1) := by
  fun_induction find f i with
  | case1 f i h => exact .refl
  | case2 f i h hle ih =>
    have hup := f.up_le i
    refine .head (Halve.mk ((up_eq_iff hi).mp rfl) h ((up_eq_iff (by omega)).mp rfl)) (ih ?_)
    have hup' := f.up_le (f.up i)
    simp only [point, Array.size_setIfInBounds]
    omega

theorem finds_iff (hi : i < f.parent.size) : Finds f.parent i r ↔ r = f.root i := by
  constructor
  · rintro ⟨q, hclimb, hr⟩
    obtain ⟨g, rfl, hroots, hroot⟩ := forest_of_climb hclimb rfl
    rw [← hroot, ← hroots, root_of_getElem? hr]
  · rintro rfl
    refine ⟨(f.find i).2.parent, climb_find f i hi, ?_⟩
    have := getElem?_root (f := (f.find i).2) (i := i) (by rwa [size_find])
    rwa [root_find] at this

/-- The array is that of a forest with the classes of the joined pairs. -/
structure Holds (l : List Finding) (p : Array Nat) (d : List (Nat × Nat)) (f : Forest) : Prop where
  parent : f.parent = p
  size : f.parent.size = l.length
  joined : ∀ pair ∈ d, pair ∈ relatedPairs isDuplicate l
  represents : f.Represents fun a b => (a, b) ∈ d

theorem Reached.holds (h : Reached l p d) : ∃ f, Holds l p d f := by
  induction h with
  | start => exact ⟨discrete l.length, rfl, by simp [discrete], by simp, by simpa using represents_discrete l.length⟩
  | halve _ turn ih =>
    obtain ⟨f, rfl, hsize, hjoined, hrep⟩ := ih
    obtain ⟨g, hg, hsize', hroots, -⟩ := turn.forest
    exact ⟨g, hg, hsize'.trans hsize, hjoined, hrep.of_root hroots⟩
  | @link p d a b x y _ pair ha hb ih =>
    obtain ⟨f, rfl, hsize, hjoined, hrep⟩ := ih
    obtain ⟨hal, hbl⟩ := hsize ▸ lt_length_of_mem pair
    obtain rfl := (finds_iff hal).mp ha
    obtain rfl := (finds_iff hbl).mp hb
    refine ⟨f.link a b, parent_link f a b, (size_link ..).trans hsize, fun x hx => ?_, by simpa using hrep.link hal hbl⟩
    rcases List.mem_append.mp hx with hx | hx
    · exact hjoined x hx
    · exact List.mem_singleton.mp hx ▸ pair

theorem Reached.climb {x y : Array Nat × Nat} (h : Reached l x.1 d) (hclimb : ReflTransGen Halve x y) :
    Reached l y.1 d := by
  induction hclimb with
  | refl => exact h
  | tail _ turn ih => exact ih.halve turn

/-- A join is two climbs and a link. -/
theorem Reached.join (h : Reached l f.parent d) (hsize : f.parent.size = l.length)
    (pair : (a, b) ∈ relatedPairs isDuplicate l) : Reached l (f.join a b).parent (d ++ [(a, b)]) := by
  obtain ⟨ha, hb⟩ := hsize ▸ lt_length_of_mem pair
  have hb' : b < (f.find a).2.parent.size := by rwa [size_find]
  have climbs := (h.climb (climb_find f a ha)).climb (x := (_, b)) (climb_find (f.find a).2 b hb')
  rw [join_eq_link, parent_link]
  refine climbs.link pair ((finds_iff ?_).mpr rfl) ((finds_iff ?_).mpr rfl)
  · rwa [size_find, size_find]
  · rwa [size_find, size_find]

theorem Reached.joinAll (h : Reached l f.parent d) (hsize : f.parent.size = l.length)
    (hpairs : ∀ pair ∈ pairs, pair ∈ relatedPairs isDuplicate l) : Reached l (f.joinAll pairs).parent (d ++ pairs) := by
  induction pairs generalizing f d with
  | nil => simpa [Forest.joinAll] using h
  | cons pair pairs ih =>
    have hjoin := h.join hsize (hpairs pair (List.mem_cons_self ..))
    have := ih hjoin (by rw [size_join, hsize]) fun x hx => hpairs x (List.mem_cons_of_mem _ hx)
    simpa [Forest.joinAll] using this

def members (l : List Finding) (r : Nat) : List Nat := (List.range l.length).filter fun i => groupRoot l i == r

theorem mem_members : i ∈ members l r ↔ i < l.length ∧ groupRoot l i = r := by
  simp [members]

theorem pairwise_members (l : List Finding) (r : Nat) : (members l r).Pairwise (· < ·) :=
  List.pairwise_lt_range.filter _

theorem head?_members (h : r ∈ groupRoots l) : (members l r).head? = some r := by
  have hmem : r ∈ members l r := mem_members.mpr (mem_groupRoots.mp h)
  have hsorted := pairwise_members l r
  cases hm : members l r with
  | nil => simp [hm] at hmem
  | cons i rest =>
    have hi : groupRoot l i = r := (mem_members.mp (hm ▸ List.mem_cons_self)).2
    have hle := groupRoot_le l i
    rw [hm] at hmem hsorted
    rcases List.mem_cons.mp hmem with rfl | hmem
    · rfl
    · have := (List.pairwise_cons.mp hsorted).1 r hmem
      omega

theorem Holds.root_eq (h : Holds l p d f) (hall : ∀ pair ∈ relatedPairs isDuplicate l, pair ∈ d) (i : Nat) :
    f.root i = groupRoot l i := by
  have hpairs : (fun a b => (a, b) ∈ d) = fun a b => (a, b) ∈ relatedPairs isDuplicate l := by
    funext a b
    exact propext ⟨h.joined (a, b), hall (a, b)⟩
  have hgroup : ((discrete l.length).joinAll (duplicatePairs l)).Represents
      fun a b => (a, b) ∈ relatedPairs isDuplicate l := fun i j => by
    rw [root_joinAll_eq_iff fun pair hpair => lt_length_of_mem (mem_duplicatePairs.mp hpair)]
    simp only [mem_duplicatePairs]
  exact (isLeast_root (hpairs ▸ h.represents) i).unique (isLeast_root hgroup i)

/-- The loops pass through the arrays of all joins. No number in an array points at a greater one, each climb
    ends at the least number that the pairs joined so far connect, and no turn of a climb changes where climbs
    end. With all pairs joined, the groups are listed by their first members, each in the order of the list. -/
theorem grouping_loops (l : List Finding) :
    (∀ pairs, (∀ pair ∈ pairs, pair ∈ relatedPairs isDuplicate l) →
      Reached l ((discrete l.length).joinAll pairs).parent pairs) ∧
    ∀ p d, Reached l p d →
      (∀ i j : Nat, p[i]? = some j → j ≤ i) ∧
      (∀ i < l.length, ∃ r, IsLeast {j | EqvGen (fun a b => (a, b) ∈ d) i j} r ∧ ∀ r', Finds p i r' ↔ r' = r) ∧
      (∀ i q k, Halve (p, i) (q, k) → k < i ∧ ∀ m < l.length, ∀ r, Finds q m r ↔ Finds p m r) ∧
      ((∀ pair ∈ relatedPairs isDuplicate l, pair ∈ d) → ∃ places : List (List Nat),
        duplicateGroups l = places.map (fun c => c.filterMap (l[·]?)) ∧
        places.Pairwise (fun c c' => ∃ i ∈ c.head?, ∃ j ∈ c'.head?, i < j) ∧
        (∀ c ∈ places, c.Pairwise (· < ·) ∧ ∃ r, c.head? = some r ∧ ∀ i, i ∈ c ↔ i < l.length ∧ Finds p i r) ∧
        ∀ i < l.length, ∃ c ∈ places, i ∈ c) := by
  refine ⟨fun pairs hpairs => ?_, fun p d h => ?_⟩
  · simpa using Reached.start.joinAll (f := discrete l.length) (by simp [discrete]) hpairs
  obtain ⟨f, hf⟩ := h.holds
  obtain rfl := hf.parent
  have hsize := hf.size
  refine ⟨?_, ?_, ?_, fun hall => ?_⟩
  · intro i j hj
    exact up_of_getElem? hj ▸ f.up_le i
  · intro i hi
    exact ⟨f.root i, isLeast_root hf.represents i, fun r' => finds_iff (hsize ▸ hi)⟩
  · intro i q k hturn
    obtain ⟨g, rfl, hsize', hroots, -, hlt⟩ := hturn.forest
    refine ⟨hlt, fun m hm r => ?_⟩
    rw [finds_iff (by omega), finds_iff (by omega), hroots]
  · refine ⟨(groupRoots l).map (members l), ?_, ?_, ?_, ?_⟩
    · rw [duplicateGroups_eq, List.map_map]
      rfl
    · rw [List.pairwise_map]
      refine (pairwise_groupRoots l).imp_of_mem fun {r r'} hr hr' hlt => ?_
      exact ⟨r, head?_members hr, r', head?_members hr', hlt⟩
    · intro c hc
      obtain ⟨r, hr, rfl⟩ := List.mem_map.mp hc
      refine ⟨pairwise_members l r, r, head?_members hr, fun i => ?_⟩
      rw [mem_members]
      refine and_congr_right fun hi => ?_
      rw [finds_iff (hsize ▸ hi), hf.root_eq hall, eq_comm]
    · intro i hi
      exact ⟨_, List.mem_map_of_mem (groupRoot_mem_groupRoots hi), mem_members.mpr ⟨hi, rfl⟩⟩

theorem grouping_loops_overlappingSample :
    (∀ pair ∈ [(0, 1)], pair ∈ relatedPairs isDuplicate overlappingSample) ∧
    (∀ pair ∈ relatedPairs isDuplicate overlappingSample, pair ∈ [(0, 1)]) ∧
    Reached overlappingSample #[0, 0, 2] [(0, 1)] ∧ Halve (#[0, 0, 2], 1) (#[0, 0, 2], 0) ∧
    (∃ r, IsLeast {j | EqvGen (fun a b => (a, b) ∈ [(0, 1)]) 1 j} r ∧ ∀ r', Finds #[0, 0, 2] 1 r' ↔ r' = r) ∧
    ∃ places : List (List Nat), duplicateGroups overlappingSample =
      places.map (fun c => c.filterMap (overlappingSample[·]?)) := by
  have hpairs : relatedPairs isDuplicate overlappingSample = [(0, 1)] := by decide +kernel
  have turn : Halve (#[0, 0, 2], 1) (#[0, 0, 2], 0) := .mk rfl (by decide) rfl
  have reached : Reached overlappingSample #[0, 0, 2] [(0, 1)] :=
    Reached.start.link (x := 0) (y := 1) (hpairs ▸ List.mem_singleton_self _) ⟨_, .refl, rfl⟩ ⟨_, .refl, rfl⟩
  have hall : ∀ pair ∈ relatedPairs isDuplicate overlappingSample, pair ∈ [(0, 1)] := fun _ h => hpairs ▸ h
  obtain ⟨-, ends, -, listed⟩ := (grouping_loops overlappingSample).2 _ _ reached
  obtain ⟨places, groups, -⟩ := listed hall
  exact ⟨fun _ h => hpairs ▸ h, hall, reached, turn, ends 1 (by decide), places, groups⟩

end ContractAudit.Grouping

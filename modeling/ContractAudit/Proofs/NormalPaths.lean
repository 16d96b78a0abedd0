import ContractAudit.Report.Aggregate

/-! # Paths in normal form

The components of a path are put on a stack that keeps a shape (`Stacked`): names above parents, and no
parents below a root. -/

namespace ContractAudit
open List Text

def parentComponent : List Char := ['.', '.']

structure IsComponent (c : List Char) : Prop where
  ne_nil : c ≠ []
  ne_dot : c ≠ ['.']
  slash : '/' ∉ c
  backslash : '\\' ∉ c

/-- The components of a normal path: the way up comes first, and there is none from a root. -/
structure CanonicalParts (rooted : Bool) (parts : List (List Char)) : Prop where
  component : ∀ c ∈ parts, IsComponent c
  ups : ∃ n names, parts = List.replicate n parentComponent ++ names ∧ parentComponent ∉ names ∧
    (rooted = true → n = 0)

/-- The text is a normal path: at most two slashes, then components with a slash between any two. -/
def IsCanonicalPath (text : List Char) : Prop :=
  ∃ slashes parts, text = List.replicate slashes '/' ++ ['/'].intercalate parts ∧ slashes ≤ 2 ∧
    CanonicalParts (slashes != 0) parts

variable {rooted : Bool} {done parts : List (List Char)} {c : List Char}

/-- The components so far, the last first: names above the way up. -/
structure Stacked (rooted : Bool) (done : List (List Char)) : Prop where
  component : ∀ c ∈ done, IsComponent c
  ups : ∃ n names, done = names ++ List.replicate n parentComponent ∧ parentComponent ∉ names ∧
    (rooted = true → n = 0)

namespace Stacked

theorem nil (rooted : Bool) : Stacked rooted [] := ⟨by simp, 0, [], rfl, by simp, fun _ => rfl⟩

theorem replicate (n : Nat) : Stacked false (List.replicate n parentComponent) := by
  refine ⟨fun c hc => ?_, n, [], rfl, by simp, fun h => by cases h⟩
  obtain rfl := eq_of_mem_replicate hc
  constructor <;> decide

theorem cons (h : Stacked rooted done) (hc : IsComponent c) (hne : c ≠ parentComponent) :
    Stacked rooted (c :: done) := by
  obtain ⟨n, names, rfl, hnames, hn⟩ := h.ups
  refine ⟨fun d hd => ?_, n, c :: names, rfl, ?_, hn⟩
  · rcases mem_cons.mp hd with rfl | hd
    · exact hc
    · exact h.component d hd
  · simp [hnames, Ne.symm hne]

theorem tail (h : Stacked rooted (c :: done)) (hne : c ≠ parentComponent) : Stacked rooted done := by
  obtain ⟨n, names, hdone, hnames, hn⟩ := h.ups
  refine ⟨fun d hd => h.component d (.tail _ hd), n, names.tail, ?_, fun hmem => hnames (mem_of_mem_tail hmem), hn⟩
  cases names with
  | nil => exact absurd (eq_of_mem_replicate (hdone ▸ mem_cons_self ..)) hne
  | cons d names => exact (List.cons.inj hdone).2

theorem eq_replicate (h : Stacked rooted (parentComponent :: done)) :
    rooted = false ∧ done = List.replicate done.length parentComponent := by
  obtain ⟨n, names, hdone, hnames, hn⟩ := h.ups
  cases names with
  | cons d names => exact absurd ((List.cons.inj hdone).1 ▸ mem_cons_self ..) hnames
  | nil =>
    refine ⟨?_, eq_replicate_iff.mpr ⟨rfl, fun d hd => ?_⟩⟩
    · cases rooted with
      | false => rfl
      | true =>
        rw [hn rfl] at hdone
        cases hdone
    · exact eq_of_mem_replicate (hdone ▸ mem_cons_of_mem _ hd)

theorem push (h : Stacked rooted done) (hslash : '/' ∉ c) (hback : '\\' ∉ c) :
    Stacked rooted (pushComponent rooted done c) := by
  unfold pushComponent
  split
  · exact h
  · next hkeep =>
    rw [Bool.or_eq_true, not_or, List.isEmpty_iff, beq_iff_eq] at hkeep
    split
    · next hup =>
      obtain rfl : c = parentComponent := beq_iff_eq.mp hup
      split
      · cases rooted with
        | false => exact replicate 1
        | true => exact nil true
      · next d done =>
        split
        · next hd =>
          obtain rfl : d = parentComponent := beq_iff_eq.mp hd
          obtain ⟨rfl, hall⟩ := h.eq_replicate
          rw [hall]
          exact replicate (done.length + 2)
        · next hd => exact h.tail fun heq => hd (beq_iff_eq.mpr heq)
    · next hup => exact h.cons ⟨hkeep.1, hkeep.2, hslash, hback⟩ fun heq => hup (beq_iff_eq.mpr heq)

theorem foldl (h : Stacked rooted done) (hparts : ∀ c ∈ parts, '/' ∉ c ∧ '\\' ∉ c) :
    Stacked rooted (parts.foldl (pushComponent rooted) done) := by
  induction parts generalizing done with
  | nil => exact h
  | cons c parts ih =>
    obtain ⟨hslash, hback⟩ := hparts c (.head _)
    exact ih (h.push hslash hback) fun d hd => hparts d (.tail _ hd)

theorem reverse (h : Stacked rooted done) : CanonicalParts rooted done.reverse := by
  obtain ⟨n, names, hdone, hnames, hn⟩ := h.ups
  refine ⟨fun c hc => h.component c (mem_reverse.mp hc), n, names.reverse, ?_, ?_, hn⟩
  · rw [hdone, reverse_append, reverse_replicate]
  · exact fun hmem => hnames (mem_reverse.mp hmem)

end Stacked

theorem isCanonicalPath_normalizePathChars (path : List Char) : IsCanonicalPath (normalizePathChars path) := by
  have hle (s : List Char) : rootSlashes s ≤ 2 := by
    unfold rootSlashes
    split <;> decide
  refine ⟨_, _, rfl, hle _, ((Stacked.nil _).foldl fun c hc => ?_).reverse⟩
  refine ⟨not_mem_of_mem_splitOnChar hc, fun hmem => ?_⟩
  obtain ⟨d, -, hd⟩ := mem_map.mp (mem_of_mem_splitOnChar hc hmem)
  split at hd
  · cases hd
  · next hne => exact hne (beq_iff_eq.mpr hd)

theorem foldl_pushComponent_names (h : ∀ c ∈ parts, IsComponent c ∧ c ≠ parentComponent) :
    parts.foldl (pushComponent rooted) done = parts.reverse ++ done := by
  induction parts generalizing done with
  | nil => rfl
  | cons c parts ih =>
    obtain ⟨hc, hne⟩ := h c (.head _)
    have hup : (c == ['.', '.']) = false := beq_eq_false_iff_ne.mpr hne
    have hpush : pushComponent rooted done c = c :: done := by
      simp [pushComponent, hc.ne_nil, hc.ne_dot, hup]
    rw [foldl_cons, hpush, ih fun d hd => h d (.tail _ hd), reverse_cons, append_assoc, singleton_append]

theorem foldl_pushComponent_replicate (m n : Nat) :
    (List.replicate n parentComponent).foldl (pushComponent false) (List.replicate m parentComponent) =
      List.replicate (m + n) parentComponent := by
  induction n generalizing m with
  | zero => rfl
  | succ n ih =>
    have hpush : pushComponent false (List.replicate m parentComponent) parentComponent =
        List.replicate (m + 1) parentComponent := by
      cases m <;> rfl
    rw [replicate_succ, foldl_cons, hpush, ih, Nat.add_right_comm, Nat.add_assoc]

theorem CanonicalParts.foldl_eq (h : CanonicalParts rooted parts) :
    parts.foldl (pushComponent rooted) [] = parts.reverse := by
  obtain ⟨n, names, rfl, hnames, hn⟩ := h.ups
  have hups : (List.replicate n parentComponent).foldl (pushComponent rooted) [] =
      List.replicate n parentComponent := by
    cases rooted with
    | true => rw [hn rfl]; rfl
    | false => simpa using foldl_pushComponent_replicate 0 n
  rw [foldl_append, hups, foldl_pushComponent_names, reverse_append, reverse_replicate]
  exact fun c hc => ⟨h.component c (mem_append_right _ hc), fun heq => hnames (heq ▸ hc)⟩

theorem foldl_splitOnChar_replicate (n : Nat) (s : List Char) :
    (splitOnChar '/' (List.replicate n '/' ++ s)).foldl (pushComponent rooted) [] =
      (splitOnChar '/' s).foldl (pushComponent rooted) [] := by
  induction n with
  | zero => rfl
  | succ n ih =>
    rw [replicate_succ, cons_append, ← nil_append ('/' :: _), splitOnChar_append_cons not_mem_nil]
    exact ih

theorem CanonicalParts.foldl_splitOnChar (h : CanonicalParts rooted parts) :
    (splitOnChar '/' (['/'].intercalate parts)).foldl (pushComponent rooted) [] = parts.reverse := by
  by_cases hnil : parts = []
  · subst hnil
    rfl
  · rw [splitOnChar_intercalate hnil fun c hc => (h.component c hc).slash, h.foldl_eq]

theorem rootSlashes_canonical {slashes : Nat} (hle : slashes ≤ 2) (h : ∀ c ∈ parts, IsComponent c) :
    rootSlashes (List.replicate slashes '/' ++ ['/'].intercalate parts) = slashes := by
  have hhead (r : List Char) : ['/'].intercalate parts ≠ '/' :: r := by
    intro heq
    cases parts with
    | nil => cases heq
    | cons c parts =>
      have hc := h c (.head _)
      obtain ⟨a, w, rfl⟩ := exists_cons_of_ne_nil hc.ne_nil
      cases parts with
      | nil =>
        rw [intercalate_singleton] at heq
        exact hc.slash ((List.cons.inj heq).1 ▸ mem_cons_self ..)
      | cons d parts =>
        rw [intercalate_cons_cons] at heq
        exact hc.slash ((List.cons.inj heq).1 ▸ mem_cons_self ..)
  generalize ['/'].intercalate parts = s at hhead
  obtain rfl | rfl | rfl : slashes = 0 ∨ slashes = 1 ∨ slashes = 2 := by omega
  all_goals
    cases s with
    | nil => rfl
    | cons a s =>
      have ha : a ≠ '/' := fun heq => hhead s (heq ▸ rfl)
      simp [rootSlashes, ha, replicate_succ]

theorem IsCanonicalPath.backslash {text : List Char} (h : IsCanonicalPath text) : '\\' ∉ text := by
  obtain ⟨slashes, parts, rfl, -, hparts⟩ := h
  intro hmem
  rcases mem_append.mp hmem with hmem | hmem
  · cases eq_of_mem_replicate hmem
  · rcases mem_intercalate hmem with heq | ⟨c, hc, hmem⟩
    · cases mem_singleton.mp heq
    · exact (hparts.component c hc).backslash hmem

theorem IsCanonicalPath.normalizePathChars_eq {text : List Char} (h : IsCanonicalPath text) :
    normalizePathChars text = text := by
  have hmap : text.map (fun c => if c == '\\' then '/' else c) = text := by
    refine (map_congr_left fun c hc => if_neg fun heq => ?_).trans (map_id text)
    exact h.backslash (beq_iff_eq.mp heq ▸ hc)
  obtain ⟨slashes, parts, rfl, hle, hparts⟩ := h
  unfold normalizePathChars
  simp only [hmap, rootSlashes_canonical hle hparts.component, foldl_splitOnChar_replicate,
    hparts.foldl_splitOnChar, reverse_reverse]

theorem normalizePath_idem (path : String) : normalizePath (normalizePath path) = normalizePath path := by
  unfold normalizePath
  rw [String.toList_ofList, (isCanonicalPath_normalizePathChars path.toList).normalizePathChars_eq]

theorem normalizePath_eq_self_iff {path : String} : normalizePath path = path ↔ IsCanonicalPath path.toList := by
  constructor
  · intro h
    rw [← h, normalizePath, String.toList_ofList]
    exact isCanonicalPath_normalizePathChars path.toList
  · intro h
    rw [normalizePath, h.normalizePathChars_eq, String.ofList_toList]

theorem Location.normalSymbol_idem (symbol : Option String) :
    normalSymbol (normalSymbol symbol) = normalSymbol symbol := by
  have hsolid (s : List Char) : (s.filter (!isBlank ·)).filter (!isBlank ·) = s.filter (!isBlank ·) := by
    rw [filter_filter]
    simp only [Bool.and_self]
  cases h : normalSymbol symbol with
  | none => rfl
  | some s =>
    obtain ⟨hs, hne⟩ := Option.filter_eq_some_iff.mp h
    obtain ⟨r, -, rfl⟩ := Option.map_eq_some_iff.mp hs
    refine Option.filter_eq_some_iff.mpr ⟨?_, hne⟩
    rw [Option.map_some, String.toList_ofList, hsolid]

theorem Location.normalized_idem (l : Location) : l.normalized.normalized = l.normalized := by
  rw [normalized, normalized, normalizePath_idem, normalSymbol_idem]

/-- The finding at the normal form of its location. -/
def Finding.normalized (f : Finding) : Finding := { f with location := f.location.normalized }

/-- Paths have a normal form that is canonical and is its own normal form, as each canonical path is, and
    neither locations in normal form nor the duplicates and ids that are read off from them depend on how a
    location is written. -/
theorem paths_normalized (path : String) :
    IsCanonicalPath (normalizePath path).toList ∧ (normalizePath path = path ↔ IsCanonicalPath path.toList) ∧
    normalizePath (normalizePath path) = normalizePath path ∧
    (∀ l : Location, l.normalized.normalized = l.normalized) ∧
    (∀ f g : Finding, isDuplicate f.normalized g = isDuplicate f g ∧
      isDuplicate f g.normalized = isDuplicate f g ∧
      isDuplicate f.normalized g.normalized = isDuplicate f g) ∧
    ∀ (ruleId : String) (l : Location) (fingerprint : String),
      findingId ruleId l.normalized fingerprint = findingId ruleId l fingerprint := by
  refine ⟨normalizePath_eq_self_iff.mp (normalizePath_idem path), normalizePath_eq_self_iff,
    normalizePath_idem path, Location.normalized_idem, fun f g => ?_, fun ruleId l fingerprint => ?_⟩
  · have hleft (f g : Finding) : isDuplicate f.normalized g = isDuplicate f g := by
      simp only [isDuplicate, Finding.normalized, Location.normalized_idem]
    have hright (f g : Finding) : isDuplicate f g.normalized = isDuplicate f g := by
      simp only [isDuplicate, Finding.normalized, Location.normalized_idem]
    exact ⟨hleft f g, hright f g, (hleft f g.normalized).trans (hright f g)⟩
  · rw [findingId, findingId, findingKey, findingKey, l.normalized_idem]

end ContractAudit

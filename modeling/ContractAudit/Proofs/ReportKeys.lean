import Mathlib.Data.List.Pairwise
import ContractAudit.Proofs.Merge

/-! # What tells the findings of a report apart -/

namespace ContractAudit
open Std List Location
variable {order : RuleOrder} {raw : List Finding} {diagnostics : List Diagnostic} {metadata : Entries}
  {f g : Finding} {findings : List Finding}

/-- The findings are as aggregation leaves them. Nothing is said about their occurrences, as a set may
    give those that tie in any order. -/
structure Settled (findings : List Finding) : Prop where
  apart : findings.Pairwise fun f g => isDuplicate f g = false
  evidence : ∀ f ∈ findings, mergeEvidence f.evidence = f.evidence
  sorted : findings.Pairwise fun f g => (presentationCmp f g).isLE = true

section Settled
variable [SetOrder]

/-- Merged findings of groups without duplicates between them are no duplicates: each has the rule,
    the location and the fingerprint of a member. -/
theorem mergeGroups_apart (order : RuleOrder) {groups : List (List Finding)}
    (h : groups.Pairwise fun s t => ∀ f ∈ s, ∀ g ∈ t, isDuplicate f g = false) :
    (mergeGroups order groups).Pairwise fun f g => isDuplicate f g = false := by
  rw [mergeGroups, pairwise_filterMap]
  refine h.imp fun {s t} hst f hf g hg => ?_
  obtain ⟨first, rest, rfl, rfl⟩ := mergeGroup?_eq_some.mp hf
  obtain ⟨first', rest', rfl, rfl⟩ := mergeGroup?_eq_some.mp hg
  have hrep : isDuplicate (mergeGroup order first rest) (mergeGroup order first' rest') =
      isDuplicate (representative order first rest) (representative order first' rest') :=
    isDuplicate_congr rfl rfl rfl rfl rfl rfl
  rw [hrep]
  exact hst _ (representative_mem order first rest) _ (representative_mem order first' rest')

theorem settled_aggregate (raw : List Finding) (diagnostics : List Diagnostic) (order : RuleOrder)
    (metadata : Entries) : Settled (aggregate raw diagnostics order metadata).findings where
  apart := by
    rw [aggregate, (mergeSort_perm _ _).pairwise_iff isDuplicate_eq_false_symm]
    exact mergeGroups_apart order (duplicateGroups_apart _)
  evidence f hf := by
    obtain ⟨first, rest, -, rfl⟩ := exists_group_of_mem_aggregate hf
    exact mergeEvidence_congr fun _ => mem_mergeEvidence
  sorted := pairwise_mergeSort_isLE presentationCmp _

/-- The finding with its occurrences put into a set and sorted once more. -/
def Finding.resorted (f : Finding) : Finding := { f with occurrences := mergeOccurrences f.occurrences }

theorem mergeGroups_singletons (order : RuleOrder) (h : ∀ f ∈ findings, mergeEvidence f.evidence = f.evidence) :
    mergeGroups order (findings.map ([·])) = findings.map Finding.resorted := by
  have hmerge : ∀ f ∈ findings, mergeGroup? order [f] = some f.resorted := by
    intro f hf
    simp only [mergeGroup?, mergeGroup, representative, foldl_nil, flatMap_cons, flatMap_nil, append_nil, h f hf,
      Finding.resorted]
  rw [mergeGroups, filterMap_map]
  exact (filterMap_congr hmerge).trans (congrFun filterMap_eq_map' findings)

end Settled

/-- The range of lines, if there is one, begins at a line that is not negative and does not end before. -/
def Location.Numbered (l : Location) : Prop := ∀ r ∈ l.lines, 0 ≤ r.first ∧ r.first ≤ r.last

theorem Location.normalSymbol_getD (s : Option String) : normalSymbol (some (s.getD "")) = normalSymbol s := by
  cases s with
  | none => rfl
  | some s => rfl

theorem Location.normalSymbol_congr {s t : Option String} (h : s.getD "" = t.getD "") :
    normalSymbol s = normalSymbol t := by
  rw [← normalSymbol_getD, h, normalSymbol_getD]

theorem Location.overlaps_of_startLine_eq {l l' : Location} (hl : l.Numbered) (hl' : l'.Numbered)
    (h : l.startLine?.getD (-1) = l'.startLine?.getD (-1)) :
    l.lines = none ∧ l'.lines = none ∨ l.lines.isSome = true ∧ l'.lines.isSome = true ∧ l.overlaps l' = true := by
  unfold startLine? at h
  unfold overlaps
  cases hr : l.lines with
  | none =>
    cases hr' : l'.lines with
    | none => exact Or.inl ⟨rfl, rfl⟩
    | some r' =>
      have hfirst := hl' r' hr'
      rw [hr, hr'] at h
      have h : -1 = r'.first := h
      omega
  | some r =>
    have hfirst := hl r hr
    cases hr' : l'.lines with
    | none =>
      rw [hr, hr'] at h
      have h : r.first = -1 := h
      omega
    | some r' =>
      have hfirst' := hl' r' hr'
      rw [hr, hr'] at h
      have h : r.first = r'.first := h
      refine Or.inr ⟨rfl, rfl, ?_⟩
      simp only [Bool.and_eq_true, decide_eq_true_eq]
      omega

/-- Findings of one rule in one file that begin at the same line, or have no lines, and resolve to the
    same symbol are duplicates, whatever their fingerprints. -/
theorem isDuplicate_of_startLine_eq (hf : f.location.Numbered) (hg : g.location.Numbered) (hrule : f.ruleId = g.ruleId)
    (hpath : normalizePath f.location.path = normalizePath g.location.path)
    (hline : f.location.startLine?.getD (-1) = g.location.startLine?.getD (-1))
    (hsymbol : normalSymbol f.location.symbol = normalSymbol g.location.symbol) :
    isDuplicate f g = true := by
  have hoverlaps : f.location.normalized.overlaps g.location.normalized = f.location.overlaps g.location := rfl
  simp only [isDuplicate, hoverlaps]
  simp only [normalized, hrule, hpath, hsymbol, beq_self_eq_true, Bool.true_and]
  rcases overlaps_of_startLine_eq hf hg hline with ⟨hlf, hlg⟩ | ⟨hlf, hlg, hover⟩
  · rw [hlf, hlg]
    cases normalSymbol g.location.symbol <;> simp
  · rw [hlf, hlg, hover]
    simp

/-- What the findings of a report are sorted by before their ids. A missing line counts as `-1` and a
    missing symbol as the empty one. -/
structure Standing where
  severity : Severity
  path : String
  ruleId : String
  first : Int
  symbol : String
deriving DecidableEq

def Finding.standing (f : Finding) : Standing :=
  ⟨f.severity, normalizePath f.location.path, f.ruleId, f.location.startLine?.getD (-1), f.location.symbol.getD ""⟩

namespace Standing

def cmp : Standing → Standing → Ordering :=
  compareLex (fun a b => compare b.severity.rank a.severity.rank) (compareLex (compareOn path)
    (compareLex (compareOn ruleId) (compareLex (compareOn first) (compareOn symbol))))

instance : TransCmp fun a b : Standing => compare b.severity.rank a.severity.rank :=
  transCmp_on (fun m n : Nat => compare n m) fun s : Standing => s.severity.rank

instance : TransCmp cmp :=
  inferInstanceAs (TransCmp (compareLex _ (compareLex _ (compareLex _ (compareLex _ _)))))

instance : LawfulEqCmp cmp where
  compare_self := ReflCmp.compare_self
  eq_of_compare {a b} h := by
    simp only [cmp, compareLex_eq_eq, compareOn, LawfulEqCmp.compare_eq_iff_eq] at h
    obtain ⟨hrank, hpath, hrule, hfirst, hsymbol⟩ := h
    have hseverity := Severity.eq_of_rank_eq hrank
    cases a
    cases b
    simp_all

end Standing

theorem presentationCmp_eq_then (f g : Finding) :
    presentationCmp f g = (f.standing.cmp g.standing).then (compare f.id g.id) := by
  simp only [presentationCmp, Standing.cmp, compareLex, compareOn, Finding.standing, Ordering.then_assoc]

theorem isDuplicate_of_standing_eq (hf : f.location.Numbered) (hg : g.location.Numbered)
    (h : f.standing = g.standing) : isDuplicate f g = true := by
  simp only [Finding.standing, Standing.mk.injEq] at h
  obtain ⟨-, hpath, hrule, hline, hsymbol⟩ := h
  exact isDuplicate_of_startLine_eq hf hg hrule hpath hline (normalSymbol_congr hsymbol)

theorem Settled.eq_of_presentationCmp_eq (h : Settled findings) (numbered : ∀ f ∈ findings, f.location.Numbered)
    (hf : f ∈ findings) (hg : g ∈ findings) (heq : presentationCmp f g = .eq) : f = g := by
  have : Std.Symm fun f g : Finding => isDuplicate f g = false := ⟨fun _ _ => isDuplicate_eq_false_symm⟩
  rcases Decidable.em (f = g) with h' | hne
  · exact h'
  have hapart := h.apart.forall hf hg hne
  rw [presentationCmp_eq_then, Ordering.then_eq_eq] at heq
  rw [isDuplicate_of_standing_eq (numbered f hf) (numbered g hg) (LawfulEqCmp.eq_of_compare heq.1)] at hapart
  cases hapart

theorem Settled.aggregate_findings [SetOrder] (h : Settled findings) (numbered : ∀ f ∈ findings, f.location.Numbered)
    (diagnostics : List Diagnostic) (order : RuleOrder) (metadata : Entries) :
    (aggregate findings diagnostics order metadata).findings = findings.map Finding.resorted := by
  have hperm := mergeSort_perm findings fun a b => (canonicalCmp a b).isLE
  generalize hl : (findings.mergeSort fun a b => (canonicalCmp a b).isLE) = l at hperm
  have hapart : l.Pairwise fun f g => isDuplicate f g = false :=
    (hperm.pairwise_iff isDuplicate_eq_false_symm).mpr h.apart
  have hmerged := mergeGroups_singletons order fun f hf => h.evidence f (hperm.mem_iff.mp hf)
  -- the order of presentation has no ties among the findings
  have hsort : (l.mergeSort fun a b => (presentationCmp a b).isLE) = findings := by
    refine Perm.eq_of_pairwise (fun f g hf hg hle hge => ?_) (pairwise_mergeSort_isLE presentationCmp l) h.sorted
      ((mergeSort_perm l _).trans hperm)
    exact h.eq_of_presentationCmp_eq numbered (hperm.mem_iff.mp (mem_mergeSort.mp hf)) hg
      (OrientedCmp.isLE_antisymm hle hge)
  simp only [aggregate, hl, duplicateGroups_of_apart hapart, hmerged]
  rw [← hsort, map_mergeSort]
  exact fun _ _ _ _ => rfl

theorem exists_origin_of_mem_aggregate [SetOrder] (hf : f ∈ (aggregate raw diagnostics order metadata).findings) :
    ∃ g ∈ raw, f.id = g.id ∧ f.ruleId = g.ruleId ∧ f.location = g.location ∧ f.fingerprint = g.fingerprint := by
  obtain ⟨first, rest, hgroup, rfl⟩ := exists_group_of_mem_aggregate hf
  exact ⟨_, hgroup _ (representative_mem order first rest), rfl, rfl, rfl, rfl⟩

theorem numbered_of_mem_aggregate [SetOrder] (numbered : ∀ f ∈ raw, f.location.Numbered) :
    ∀ f ∈ (aggregate raw diagnostics order metadata).findings, f.location.Numbered := by
  intro f hf
  obtain ⟨g, hg, -, -, hlocation, -⟩ := exists_origin_of_mem_aggregate hf
  rw [hlocation]
  exact numbered g hg

/-! ### Aggregating again -/

/-- What occurrences are sorted by. -/
def Location.sortKey (l : Location) : Key × String := (l.key, l.path)

def sortKeyCmp : Key × String → Key × String → Ordering :=
  compareLex (fun x y => x.1.cmp y.1) (compareOn Prod.snd)

instance : TransCmp fun x y : Key × String => x.1.cmp y.1 := transCmp_on Key.cmp Prod.fst

instance : TransCmp sortKeyCmp := inferInstanceAs (TransCmp (compareLex _ _))

instance : LawfulEqCmp sortKeyCmp where
  compare_self := ReflCmp.compare_self
  eq_of_compare {x y} h := by
    simp only [sortKeyCmp, compareLex_eq_eq, compareOn, LawfulEqCmp.compare_eq_iff_eq] at h
    exact Prod.ext h.1 h.2

theorem Location.not_mem_lines {l : Location} {n : Int} (h : ∀ r ∈ l.lines, n < r.first ∧ r.first ≤ r.last) :
    n ∉ l.startLine? ∧ n ∉ l.endLine? := by
  constructor <;> intro hn
  · obtain ⟨r, hr, hfirst⟩ := Option.map_eq_some_iff.mp hn
    have := h r hr
    omega
  · obtain ⟨r, hr, hlast⟩ := Option.map_eq_some_iff.mp hn
    have := h r hr
    omega

theorem eq_of_getD_eq {α : Type} {o o' : Option α} {d : α} (h : d ∉ o) (h' : d ∉ o') (heq : o.getD d = o'.getD d) :
    o = o' := by
  cases o <;> cases o' <;> simp_all

theorem Location.eq_of_sortKey_eq {a b : Location} (ha : a.Numbered) (hb : b.Numbered) (hsa : a.symbol ≠ some "")
    (hsb : b.symbol ≠ some "") (h : a.sortKey = b.sortKey) : a = b := by
  have hline {l : Location} (hl : l.Numbered) : -1 ∉ l.startLine? ∧ -1 ∉ l.endLine? :=
    not_mem_lines fun r hr => ⟨by have := hl r hr; omega, (hl r hr).2⟩
  obtain ⟨hkey, hpath⟩ := Prod.mk.inj h
  simp only [key, Key.mk.injEq] at hkey
  obtain ⟨-, hstart, hend, hsymbol⟩ := hkey
  have hlines := lines_eq (eq_of_getD_eq (hline ha).1 (hline hb).1 hstart)
    (eq_of_getD_eq (hline ha).2 (hline hb).2 hend)
  have hsymbol := eq_of_getD_eq hsa hsb hsymbol
  cases a
  cases b
  simp_all

section Again
variable [SetOrder]

theorem aggregate_again (numbered : ∀ f ∈ raw, f.location.Numbered) :
    let r := aggregate raw diagnostics order metadata
    aggregate r.findings r.diagnostics order r.metadata = { r with findings := r.findings.map Finding.resorted } := by
  intro r
  have hfindings : (aggregate r.findings r.diagnostics order r.metadata).findings = r.findings.map Finding.resorted :=
    (settled_aggregate raw diagnostics order metadata).aggregate_findings (numbered_of_mem_aggregate numbered) _ _ _
  have hdiagnostics : (aggregate r.findings r.diagnostics order r.metadata).diagnostics = r.diagnostics :=
    mergeSort_eraseDups_congr (isOrder_isLE Diagnostic.cmp) fun d => by
      simp only [r, aggregate, List.mem_mergeSort, List.mem_eraseDups]
  calc aggregate r.findings r.diagnostics order r.metadata
      = ⟨(aggregate r.findings r.diagnostics order r.metadata).findings,
          (aggregate r.findings r.diagnostics order r.metadata).diagnostics, r.metadata⟩ := rfl
    _ = { r with findings := r.findings.map Finding.resorted } := by rw [hfindings, hdiagnostics]

theorem nodup_mergeOccurrences (items : List Location) : (mergeOccurrences items).Nodup :=
  (mergeOccurrences_perm items).nodup_iff.mpr (nodup_eraseDups items)

theorem resorted_perm (items : List Location) :
    (mergeOccurrences (mergeOccurrences items)).Perm (mergeOccurrences items) := by
  have hperm := mergeOccurrences_perm (mergeOccurrences items)
  rwa [eraseDups_of_nodup (nodup_mergeOccurrences items)] at hperm

/-- Only occurrences that tie may change places. -/
theorem map_sortKey_resorted (items : List Location) :
    (mergeOccurrences (mergeOccurrences items)).map sortKey = (mergeOccurrences items).map sortKey := by
  have hsorted (s : List Location) : ((s.mergeSort fun a b => (cmp a b).isLE).map sortKey).Pairwise
      fun x y => (sortKeyCmp x y).isLE = true := pairwise_map.mpr (pairwise_mergeSort_isLE cmp s)
  exact ((resorted_perm items).map sortKey).eq_of_pairwise
    (fun x y _ _ => (isOrder_isLE sortKeyCmp).antisymm x y) (hsorted _) (hsorted _)

theorem mergeOccurrences_of_steady (h : ∀ s t : List Location, s.Perm t → SetOrder.enumerate s = SetOrder.enumerate t)
    (items : List Location) : mergeOccurrences (mergeOccurrences items) = mergeOccurrences items := by
  have hset := h (mergeOccurrences items) items.eraseDups (mergeOccurrences_perm items)
  rw [mergeOccurrences, eraseDups_of_nodup (nodup_mergeOccurrences items), hset]
  rfl

theorem mergeOccurrences_of_named {items : List Location} (h : ∀ l ∈ items, l.Numbered ∧ l.symbol ≠ some "") :
    mergeOccurrences (mergeOccurrences items) = mergeOccurrences items := by
  refine eq_of_map_eq_map (map_sortKey_resorted items) fun a ha b hb heq => ?_
  have ha := h a (mem_mergeOccurrences.mp (mem_mergeOccurrences.mp ha))
  have hb := h b (mem_mergeOccurrences.mp hb)
  exact eq_of_sortKey_eq ha.1 hb.1 ha.2 hb.2 heq

theorem exists_occurrences_of_mem (hf : f ∈ (aggregate raw diagnostics order metadata).findings) :
    ∃ items, f.occurrences = mergeOccurrences items ∧ ∀ l ∈ items, ∃ g ∈ raw, l ∈ g.occurrences := by
  obtain ⟨first, rest, hgroup, rfl⟩ := exists_group_of_mem_aggregate hf
  refine ⟨_, rfl, fun l hl => ?_⟩
  obtain ⟨g, hg, hl⟩ := mem_flatMap.mp hl
  exact ⟨g, hgroup g hg, hl⟩

end Again

/-- A set that gives its members in the reverse of the order in which they were put in. -/
@[reducible] def SetOrder.reversed : SetOrder := ⟨reverse, reverse_perm⟩

/-- A finding that occurs at a file, and there at an empty symbol. -/
def tiedSample : Finding :=
  { id := "1", ruleId := "overflow", severity := .high, message := "a", location := ⟨"src/lib.rs", none, none⟩,
    occurrences := [⟨"src/lib.rs", none, none⟩, ⟨"src/lib.rs", none, some ""⟩] }

/-- Occurrences that tie may change places. -/
theorem aggregate_tiedSample_reversed :
    letI := SetOrder.reversed
    let r := aggregate [tiedSample] [] [] []
    aggregate r.findings r.diagnostics [] r.metadata ≠ r := by
  let := SetOrder.reversed
  have swapped {a b : Location} (hab : [a, b].Nodup) (hle : [b, a].Pairwise fun a b => (cmp a b).isLE = true) :
      mergeOccurrences [a, b] = [b, a] := by
    rw [mergeOccurrences, eraseDups_of_nodup hab]
    exact mergeSort_of_pairwise hle
  have settled : Settled [tiedSample] := ⟨pairwise_singleton .., by simp [tiedSample, mergeEvidence_eq],
    pairwise_singleton ..⟩
  have numbered : ∀ f ∈ [tiedSample], f.location.Numbered := by simp [tiedSample, Location.Numbered]
  have hfindings : (aggregate [tiedSample] [] [] []).findings = [tiedSample.resorted] :=
    settled.aggregate_findings numbered [] [] []
  intro r heq
  have hagain : aggregate r.findings r.diagnostics [] r.metadata =
      { r with findings := r.findings.map Finding.resorted } :=
    aggregate_again numbered
  have htwice := congrArg Report.findings (hagain.symm.trans heq)
  simp only [r, hfindings, map_cons, map_nil, List.cons.injEq, and_true] at htwice
  have hoccurrences := congrArg Finding.occurrences htwice
  simp only [Finding.resorted, tiedSample] at hoccurrences
  rw [swapped (by decide) (by decide), swapped (by decide) (by decide)] at hoccurrences
  exact absurd hoccurrences (by decide)

theorem Settled.standing_lt (h : Settled findings) (numbered : ∀ f ∈ findings, f.location.Numbered) :
    findings.Pairwise fun f g => f.standing.cmp g.standing = .lt := by
  refine (h.apart.and h.sorted).imp_of_mem fun {f g} hf hg ⟨hapart, hle⟩ => ?_
  rw [presentationCmp_eq_then] at hle
  refine (Ordering.isLE_iff_eq_lt_or_eq_eq.mp (Ordering.isLE_left_of_isLE_then hle)).resolve_right fun heq => ?_
  rw [isDuplicate_of_standing_eq (numbered f hf) (numbered g hg) (LawfulEqCmp.eq_of_compare heq)] at hapart
  cases hapart

/-- The findings of a report are strictly sorted without their ids, and no two of them tie. -/
theorem findings_strictly_sorted [SetOrder] (raw : List Finding) (diagnostics : List Diagnostic) (order : RuleOrder)
    (metadata : Entries) (numbered : ∀ f ∈ raw, ∀ r ∈ f.location.lines, 0 ≤ r.first ∧ r.first ≤ r.last) :
    let findings := (aggregate raw diagnostics order metadata).findings
    (findings.Pairwise fun f g => f.standing.cmp g.standing = .lt) ∧ (findings.map Finding.standing).Nodup := by
  intro findings
  have hlt := (settled_aggregate raw diagnostics order metadata).standing_lt (numbered_of_mem_aggregate numbered)
  refine ⟨hlt, List.pairwise_map.mpr (hlt.imp fun {f g} h heq => ?_)⟩
  have hself : g.standing.cmp g.standing = .eq := ReflCmp.compare_self
  rw [heq, hself] at h
  cases h

theorem overlappingSample_strictly_sorted :
    (∀ f ∈ overlappingSample, ∀ r ∈ f.location.lines, 0 ≤ r.first ∧ r.first ≤ r.last) ∧
      let findings := (aggregate overlappingSample [] [("overflow", 2)] []).findings
      (findings.Pairwise fun f g => f.standing.cmp g.standing = .lt) ∧ (findings.map Finding.standing).Nodup := by
  have numbered : ∀ f ∈ overlappingSample, ∀ r ∈ f.location.lines, 0 ≤ r.first ∧ r.first ≤ r.last := by decide
  exact ⟨numbered, findings_strictly_sorted overlappingSample [] [("overflow", 2)] [] numbered⟩

theorem Text.intercalate_inj {sep : Char} {l l' : List (List Char)} (hne : l ≠ []) (hne' : l' ≠ [])
    (hl : ∀ part ∈ l, sep ∉ part)
    (hl' : ∀ part ∈ l', sep ∉ part) (h : [sep].intercalate l = [sep].intercalate l') : l = l' := by
  rw [← splitOnChar_intercalate hne hl, h, splitOnChar_intercalate hne' hl']

theorem mem_of_mem_pushComponent {rooted : Bool} {done : List (List Char)} {part component : List Char}
    (h : part ∈ pushComponent rooted done component) : part = component ∨ part ∈ done := by
  unfold pushComponent at h
  split at h
  · exact Or.inr h
  split at h
  · split at h
    · split at h
      · cases h
      · exact Or.inl (mem_singleton.mp h)
    · split at h
      · exact mem_cons.mp h
      · exact Or.inr (.tail _ h)
  · exact mem_cons.mp h

theorem mem_of_mem_foldl_pushComponent {rooted : Bool} {parts done : List (List Char)} {part : List Char}
    (h : part ∈ parts.foldl (pushComponent rooted) done) : part ∈ parts ∨ part ∈ done := by
  induction parts generalizing done with
  | nil => exact Or.inr h
  | cons p parts ih =>
    rcases ih h with h | h
    · exact Or.inl (.tail _ h)
    · rcases mem_of_mem_pushComponent h with rfl | h
      · exact Or.inl (.head _)
      · exact Or.inr h

theorem mem_of_mem_normalizePath {c : Char} {path : String} (h : c ∈ (normalizePath path).toList) :
    c = '/' ∨ c ∈ path.toList := by
  rw [normalizePath, String.toList_ofList, normalizePathChars] at h
  rcases mem_append.mp h with h | h
  · exact Or.inl (eq_of_mem_replicate h)
  rcases Text.mem_intercalate h with h | ⟨part, hpart, hc⟩
  · exact Or.inl (mem_singleton.mp h)
  have hpart := (mem_of_mem_foldl_pushComponent (mem_reverse.mp hpart)).resolve_right not_mem_nil
  obtain ⟨d, hd, rfl⟩ := mem_map.mp (Text.mem_of_mem_splitOnChar hpart hc)
  split
  · exact Or.inl rfl
  · exact Or.inr hd

theorem bar_not_mem_lineKey (n : Option Int) : '|' ∉ (lineKey n).toList := by
  cases n with
  | none => exact not_mem_nil
  | some n =>
    rw [lineKey]
    split
    · exact not_mem_nil
    · intro h
      rcases Json.isDigit_or_minus_of_mem_toString h with h | h <;> exact absurd h (by decide)

theorem bar_not_mem_fingerprint (snippet : String) : '|' ∉ (contentFingerprint snippet).toList := by
  unfold contentFingerprint
  extract_lets kept
  split
  · exact not_mem_nil
  · simp [Hash.shortDigest, Hash.hex, Json.not_mem_hexDigits (show ∀ m : Fin 16, '|' ≠ Text.hexDigit m by decide)]

theorem toString_int_ne_empty (n : Int) : toString n ≠ "" := by
  intro h
  rw [Int.toString_eq_repr, Int.repr_eq_if, ← String.toList_inj] at h
  split at h
  · rw [Nat.toList_repr] at h
    exact Nat.toDigits_ne_nil h
  · rw [String.toList_append] at h
    exact absurd (append_eq_nil_iff.mp h).1 (by decide)

theorem lineKey_inj {m n : Option Int} (hm : 0 ∉ m) (hn : 0 ∉ n) (h : lineKey m = lineKey n) : m = n := by
  have htext {i : Int} (hi : 0 ∉ some i) : lineKey (some i) = toString i := if_neg fun h => hi (congrArg some h)
  cases m with
  | none =>
    cases n with
    | none => rfl
    | some j => exact absurd ((htext hn).symm.trans h.symm) (toString_int_ne_empty j)
  | some i =>
    cases n with
    | none => exact absurd ((htext hm).symm.trans h) (toString_int_ne_empty i)
    | some j => rw [Json.int_inj ((htext hm).symm.trans (h.trans (htext hn)))]

namespace Location
variable {l l' : Location}

theorem normalSymbol_ne_empty (s : Option String) : normalSymbol s ≠ some "" := by
  intro h
  exact absurd (Option.filter_eq_some_iff.mp h).2 (by decide)

theorem normalSymbol_inj {s t : Option String} (h : (normalSymbol s).getD "" = (normalSymbol t).getD "") :
    normalSymbol s = normalSymbol t := eq_of_getD_eq (normalSymbol_ne_empty s) (normalSymbol_ne_empty t) h

theorem mem_of_mem_normalSymbol {c : Char} {s : Option String} (h : c ∈ ((normalSymbol s).getD "").toList) :
    ∃ t ∈ s, c ∈ t.toList := by
  cases hs : normalSymbol s with
  | none =>
    rw [hs] at h
    cases h
  | some a =>
    rw [hs] at h
    obtain ⟨t, ht, rfl⟩ := Option.map_eq_some_iff.mp (Option.filter_eq_some_iff.mp hs).1
    rw [Option.getD_some, String.toList_ofList] at h
    exact ⟨t, ht, (mem_filter.mp h).1⟩

end Location

/-- The line numbers count from 1, and no part of the key of the id but the last holds a bar. -/
structure Draft.Separable (d : Draft) : Prop where
  numbered : ∀ r ∈ d.location.lines, 1 ≤ r.first ∧ r.first ≤ r.last
  ruleId : '|' ∉ d.ruleId.toList
  path : '|' ∉ d.location.path.toList
  symbol : ∀ s ∈ d.location.symbol, '|' ∉ s.toList

def Draft.key (d : Draft) : String := findingKey d.ruleId d.location (contentFingerprint d.snippet)

theorem Draft.id_finding (d : Draft) : d.finding.id = Hash.shortDigest d.key := rfl

def Draft.keyParts (d : Draft) : List String :=
  [d.ruleId, normalizePath d.location.path, lineKey d.location.startLine?, lineKey d.location.endLine?,
    (normalSymbol d.location.symbol).getD "", contentFingerprint d.snippet]

namespace Draft
variable {d e : Draft}

theorem Separable.bar_not_mem (h : d.Separable) : ∀ part ∈ d.keyParts.map String.toList, '|' ∉ part := by
  have hpath : '|' ∉ (normalizePath d.location.path).toList := fun hbar =>
    (mem_of_mem_normalizePath hbar).elim (by decide) h.path
  have hsymbol : '|' ∉ ((normalSymbol d.location.symbol).getD "").toList := fun hbar => by
    obtain ⟨t, ht, hbar⟩ := mem_of_mem_normalSymbol hbar
    exact h.symbol t ht hbar
  simp only [keyParts, map_cons, map_nil, forall_mem_cons, not_mem_nil, false_implies, implies_true, and_true]
  exact ⟨h.ruleId, hpath, bar_not_mem_lineKey _, bar_not_mem_lineKey _, hsymbol, bar_not_mem_fingerprint _⟩

theorem keyParts_inj (hd : d.Separable) (he : e.Separable) (h : d.key = e.key) : d.keyParts = e.keyParts := by
  have hjoined : ['|'].intercalate (d.keyParts.map String.toList) =
      ['|'].intercalate (e.keyParts.map String.toList) := by
    have hbar : "|".toList = ['|'] := rfl
    rw [← hbar, ← String.toList_intercalate, ← String.toList_intercalate]
    exact congrArg String.toList h
  exact (map_inj_right fun _ _ => String.toList_inj.mp).mp
    (Text.intercalate_inj (by simp [keyParts]) (by simp [keyParts]) hd.bar_not_mem he.bar_not_mem hjoined)

theorem Separable.zero_not_mem (h : d.Separable) : 0 ∉ d.location.startLine? ∧ 0 ∉ d.location.endLine? :=
  not_mem_lines fun r hr => ⟨(h.numbered r hr).1, (h.numbered r hr).2⟩

/-- The key of an id tells the rule, the normal location and the fingerprint. -/
theorem key_inj (hd : d.Separable) (he : e.Separable) (h : d.key = e.key) :
    d.ruleId = e.ruleId ∧ d.location.normalized = e.location.normalized ∧
      contentFingerprint d.snippet = contentFingerprint e.snippet := by
  have hparts := keyParts_inj hd he h
  simp only [keyParts, List.cons.injEq, and_true] at hparts
  obtain ⟨hrule, hpath, hstart, hend, hsymbol, hfingerprint⟩ := hparts
  have hstart := lineKey_inj hd.zero_not_mem.1 he.zero_not_mem.1 hstart
  have hend := lineKey_inj hd.zero_not_mem.2 he.zero_not_mem.2 hend
  refine ⟨hrule, ?_, hfingerprint⟩
  rw [normalized, normalized, hpath, lines_eq hstart hend, normalSymbol_inj hsymbol]

theorem Separable.location_numbered (h : d.Separable) : d.location.Numbered := fun r hr => by
  have := h.numbered r hr
  omega

theorem isDuplicate_of_key_eq (hd : d.Separable) (he : e.Separable) (h : d.key = e.key) :
    isDuplicate d.finding e.finding = true := by
  obtain ⟨hrule, hlocation, -⟩ := key_inj hd he h
  simp only [normalized, Location.mk.injEq] at hlocation
  obtain ⟨hpath, hlines, hsymbol⟩ := hlocation
  have hline : d.location.startLine? = e.location.startLine? := congrArg (Option.map LineRange.first) hlines
  exact isDuplicate_of_startLine_eq hd.location_numbered he.location_numbered hrule hpath
    (congrArg (Option.getD · (-1)) hline) hsymbol

end Draft

def NoCollision (texts : List String) : Prop :=
  ∀ s ∈ texts, ∀ t ∈ texts, Hash.shortDigest s = Hash.shortDigest t → s = t

/-- Raw findings with one id are duplicates, and the ids of the findings in a report are all different,
    as long as the hash has no collision on the keys of the ids. -/
theorem finding_ids_unique [SetOrder] (drafts : List Draft) (diagnostics : List Diagnostic) (order : RuleOrder)
    (metadata : Entries) (separable : ∀ d ∈ drafts, d.Separable) (collisions : NoCollision (drafts.map Draft.key)) :
    (∀ d ∈ drafts, ∀ e ∈ drafts, d.finding.id = e.finding.id → isDuplicate d.finding e.finding = true) ∧
      ((aggregate (drafts.map Draft.finding) diagnostics order metadata).findings.map Finding.id).Nodup := by
  have hduplicates : ∀ d ∈ drafts, ∀ e ∈ drafts, d.finding.id = e.finding.id →
      isDuplicate d.finding e.finding = true := by
    intro d hd e he h
    rw [Draft.id_finding, Draft.id_finding] at h
    have hkey := collisions d.key (List.mem_map_of_mem hd) e.key (List.mem_map_of_mem he) h
    exact Draft.isDuplicate_of_key_eq (separable d hd) (separable e he) hkey
  refine ⟨hduplicates, List.pairwise_map.mpr ?_⟩
  -- findings of the report with one id come from raw findings with that id, and these are duplicates
  refine (settled_aggregate _ diagnostics order metadata).apart.imp_of_mem fun {f g} hf hg hapart hid => ?_
  obtain ⟨f', hf', hfid, hfrule, hflocation, hfprint⟩ := exists_origin_of_mem_aggregate hf
  obtain ⟨g', hg', hgid, hgrule, hglocation, hgprint⟩ := exists_origin_of_mem_aggregate hg
  obtain ⟨d, hd, rfl⟩ := List.mem_map.mp hf'
  obtain ⟨e, he, rfl⟩ := List.mem_map.mp hg'
  have hdup := hduplicates d hd e he (hfid.symm.trans (hid.trans hgid))
  rw [isDuplicate_congr hfrule hflocation hfprint hgrule hglocation hgprint, hdup] at hapart
  cases hapart

/-- Three drafts of one rule; the first two write one location in two ways. -/
def rewrittenSample : List Draft :=
  [{ ruleId := "overflow", severity := .high, message := "a",
     location := ⟨"src/lib.rs", some ⟨3, 5⟩, some "vault::pay"⟩, snippet := "a + b" },
   { ruleId := "overflow", severity := .low, message := "b",
     location := ⟨"./src//lib.rs", some ⟨3, 5⟩, some "vault :: pay"⟩, snippet := "a+b" },
   { ruleId := "overflow", severity := .low, message := "c", location := ⟨"src/lib.rs", none, none⟩ }]

theorem noCollision_of_nodup {texts kept : List String} (h : ∀ s ∈ texts, s ∈ kept)
    (hnodup : (kept.map Hash.shortDigest).Nodup) : NoCollision texts := fun s hs t ht =>
  inj_on_of_nodup_map hnodup (h s hs) (h t ht)

theorem rewrittenSample_ids_unique :
    (∀ d ∈ rewrittenSample, d.Separable) ∧ NoCollision (rewrittenSample.map Draft.key) ∧
      (∀ d ∈ rewrittenSample, ∀ e ∈ rewrittenSample, d.finding.id = e.finding.id →
        isDuplicate d.finding e.finding = true) ∧
      ((aggregate (rewrittenSample.map Draft.finding) [] [("overflow", 2)] []).findings.map Finding.id).Nodup := by
  have separable : ∀ d ∈ rewrittenSample, d.Separable := by
    simp only [rewrittenSample, List.forall_mem_cons, List.not_mem_nil, false_implies, implies_true, and_true]
    refine ⟨⟨?_, ?_, ?_, ?_⟩, ⟨?_, ?_, ?_, ?_⟩, ⟨?_, ?_, ?_, ?_⟩⟩ <;> decide
  have keys : ∀ k ∈ rewrittenSample.map Draft.key,
      k ∈ ["overflow|src/lib.rs|3|5|vault::pay|300273daf0bb57c2", "overflow|src/lib.rs||||"] := by decide +kernel
  have collisions : NoCollision (rewrittenSample.map Draft.key) := noCollision_of_nodup keys (by decide +kernel)
  exact ⟨separable, collisions, finding_ids_unique rewrittenSample [] [("overflow", 2)] [] separable collisions⟩

end ContractAudit

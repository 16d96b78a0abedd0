import Mathlib.Data.List.Forall2
import ContractAudit.Rule.Catalogue

/-! # What the setup of a rule changes -/

namespace ContractAudit
open Source Text List

/-! ### Lists that go into longer ones -/

section Lists
variable {α β : Type} {r : β → β → Prop} {l : List α}

theorem sublistForall₂_append {s s' t t' : List β} (h : SublistForall₂ r s t) (h' : SublistForall₂ r s' t') :
    SublistForall₂ r (s ++ s') (t ++ t') := by
  obtain ⟨u, hu, hsub⟩ := List.sublistForall₂_iff.mp h
  obtain ⟨u', hu', hsub'⟩ := List.sublistForall₂_iff.mp h'
  exact List.sublistForall₂_iff.mpr ⟨u ++ u', rel_append hu hu', hsub.append hsub'⟩

theorem sublistForall₂_flatMap {f g : α → List β} (h : ∀ a, SublistForall₂ r (f a) (g a)) :
    SublistForall₂ r (l.flatMap f) (l.flatMap g) := by
  induction l with
  | nil => exact .nil
  | cons a l ih =>
    rw [flatMap_cons, flatMap_cons]
    exact sublistForall₂_append (h a) ih

theorem sublistForall₂_filterMap {f g : α → Option β} (h : ∀ a b, f a = some b → ∃ c, g a = some c ∧ r b c) :
    SublistForall₂ r (l.filterMap f) (l.filterMap g) := by
  induction l with
  | nil => exact .nil
  | cons a l ih =>
    cases hf : f a with
    | none =>
      rw [filterMap_cons_none hf]
      cases hg : g a with
      | none => rwa [filterMap_cons_none hg]
      | some c =>
        rw [filterMap_cons_some hg]
        exact .cons_right ih
    | some b =>
      obtain ⟨c, hg, hbc⟩ := h a b hf
      rw [filterMap_cons_some hf, filterMap_cons_some hg]
      exact .cons hbc ih

theorem sublist_of_sublistForall₂ {s t : List β} (h : SublistForall₂ (· = ·) s t) : s.Sublist t := by
  obtain ⟨u, hu, hsub⟩ := List.sublistForall₂_iff.mp h
  rw [forall₂_eq_eq_eq] at hu
  exact hu ▸ hsub

theorem append_subset_append (s : List β) {t t' : List β} (h : t ⊆ t') : s ++ t ⊆ s ++ t' :=
  append_subset.mpr ⟨subset_append_left s t', List.Subset.trans h (subset_append_right s t')⟩

/-- With a wider test the first member that passes is the same, or an earlier one that did not pass
    before. -/
theorem find?_of_imp {p q : α → Bool} {a : α} (hpq : ∀ x, p x = true → q x = true) (h : l.find? p = some a) :
    ∃ b, l.find? q = some b ∧ (b = a ∨ p b = false ∧ q b = true) := by
  induction l with
  | nil => cases h
  | cons x l ih =>
    cases hp : p x with
    | true =>
      rw [find?_cons_of_pos hp] at h
      exact ⟨x, find?_cons_of_pos (hpq x hp), Or.inl (Option.some.inj h)⟩
    | false =>
      rw [find?_cons_of_neg (by simp [hp])] at h
      cases hq : q x with
      | true => exact ⟨x, find?_cons_of_pos hq, Or.inr ⟨hp, hq⟩⟩
      | false =>
        rw [find?_cons_of_neg (by simp [hq])]
        exact ih h

end Lists

/-! ### The severity that is set -/

theorem Detector.evaluate_of_ok {d : Detector} {setup : RuleSetup} {u : ScanUnit} {x : Index} {seen : List Sighting}
    (h : d.sightings setup u x = .ok seen) :
    (d.rule setup).evaluate u x = .ok { findings := seen.map fun v => v.finding d.info setup u.path } := by
  simp only [Detector.rule, h]

def Detector.IgnoresSeverity (d : Detector) : Prop :=
  ∀ s s' options u x, d.sightings ⟨s, options⟩ u x = d.sightings ⟨s', options⟩ u x

theorem ignoresSeverity_of_mem {d : Detector} (hd : d ∈ builtinDetectors) : d.IgnoresSeverity := by
  simp only [builtinDetectors, mem_cons, not_mem_nil, or_false] at hd
  rcases hd with rfl | rfl | rfl | rfl | rfl | rfl | rfl | rfl | rfl <;> exact fun _ _ _ _ _ => rfl

def Yield.withSeverity (s : Severity) (y : Yield) : Yield :=
  { y with findings := y.findings.map fun f => { f with severity := s } }

theorem Sighting.finding_of_severity (v : Sighting) (info : RuleInfo) (s : Severity) (options : Entries)
    (path : String) :
    v.finding info ⟨some s, options⟩ path = { v.finding info ⟨none, options⟩ path with severity := s } := rfl

/-- A severity that is set for a built-in rule becomes the severity of each finding. All else about
    the findings stays, and so does their order; and the rule fails just where it fails without it. -/
theorem override_changes_severities_only {d : Detector} (hd : d ∈ builtinDetectors) (s : Severity) (options : Entries)
    (u : ScanUnit) (x : Index) :
    (d.rule ⟨some s, options⟩).evaluate u x = ((d.rule ⟨none, options⟩).evaluate u x).map (Yield.withSeverity s) := by
  have hsame := ignoresSeverity_of_mem hd (some s) none options u x
  cases hseen : d.sightings ⟨none, options⟩ u x with
  | error e => simp only [Detector.rule, hsame, hseen, Except.map]
  | ok seen =>
    rw [Detector.evaluate_of_ok hseen, Detector.evaluate_of_ok (hsame.trans hseen)]
    simp only [Except.map, Yield.withSeverity, List.map_map, Function.comp_def, Sighting.finding_of_severity]

def sumsUnit : ScanUnit := .of "a" "fn f(){v+1;a+b}" (some "rust")

def widerOptions : Entries := [(.str "value_names", .strings ["v"]), (.str "authority_names", .strings ["v"])]

theorem override_changes_severities_only_sumsUnit :
    Arithmetic.detector ∈ builtinDetectors ∧
      ((Arithmetic.detector.rule ⟨none, widerOptions⟩).evaluate sumsUnit ⟨[], [], []⟩).map
        (fun y => y.findings.map (·.severity)) = .ok [.high] ∧
      (Arithmetic.detector.rule ⟨some .low, widerOptions⟩).evaluate sumsUnit ⟨[], [], []⟩ =
        ((Arithmetic.detector.rule ⟨none, widerOptions⟩).evaluate sumsUnit ⟨[], [], []⟩).map
          (Yield.withSeverity .low) := by
  have hmem : Arithmetic.detector ∈ builtinDetectors := by simp [builtinDetectors]
  exact ⟨hmem, by decide +kernel, override_changes_severities_only hmem .low widerOptions sumsUnit ⟨[], [], []⟩⟩

/-! ### More names of amounts -/

/-- The finding reports the place that another one reports, under the same id and at least as
    severely. -/
structure Finding.StillReports (g f : Finding) : Prop where
  id : g.id = f.id
  ruleId : g.ruleId = f.ruleId
  location : g.location = f.location
  severity : f.severity ≤ g.severity

/-- The sighting is of the same line, and at least as bad; `usual` is how bad a sighting is of which
    nothing is said. -/
structure Sighting.AtLeast (usual : Severity) (v w : Sighting) : Prop where
  line : w.line = v.line
  symbol : w.symbol = v.symbol
  snippet : w.snippet = v.snippet
  severity : v.severity.getD usual ≤ w.severity.getD usual

theorem Sighting.AtLeast.stillReports {info : RuleInfo} {v w : Sighting} (h : AtLeast info.defaultSeverity v w)
    (severity : Option Severity) (options options' : Entries) (path : String) :
    (w.finding info ⟨severity, options'⟩ path).StillReports (v.finding info ⟨severity, options⟩ path) where
  id := by simp only [finding, Draft.finding, h.line, h.symbol, h.snippet]
  ruleId := rfl
  location := by simp only [finding, Draft.finding, h.line, h.symbol]
  severity := by
    cases severity with
    | none => exact h.severity
    | some s => exact Nat.le_refl s.rank

namespace Arithmetic
variable {names names' : List String} {left right code : List Char}

/-- Only beside a literal does it matter whether an operand is like one of the names. -/
theorem isOperation_iff : isOperation names left right = true ↔
    (keywords.contains (String.ofList left) || keywords.contains (String.ofList right)) = false ∧
      (left.head?.any isAnyDigit && right.head?.any isAnyDigit) = false ∧
      (right.head?.any isAnyDigit = true → isValueLike names left = true) ∧
      (left.head?.any isAnyDigit = true → isValueLike names right = true) := by
  unfold isOperation
  generalize (keywords.contains (String.ofList left) || keywords.contains (String.ofList right)) = keyword
  generalize left.head?.any isAnyDigit = leftLiteral
  generalize right.head?.any isAnyDigit = rightLiteral
  cases keyword <;> cases leftLiteral <;> cases rightLiteral <;> simp

section Wider
variable (h : names ⊆ names')
include h

theorem isValueLike_of_subset {operand : List Char} (hv : isValueLike names operand = true) :
    isValueLike names' operand = true := by
  obtain ⟨n, hn, hoccurs⟩ := any_eq_true.mp hv
  exact any_eq_true.mpr ⟨n, h hn, hoccurs⟩

theorem any_isValueLike_of_subset {operands : List (List Char)} (hv : operands.any (isValueLike names) = true) :
    operands.any (isValueLike names') = true := by
  obtain ⟨operand, hmem, hlike⟩ := any_eq_true.mp hv
  exact any_eq_true.mpr ⟨operand, hmem, isValueLike_of_subset h hlike⟩

theorem isOperation_of_subset (ho : isOperation names left right = true) : isOperation names' left right = true := by
  obtain ⟨hkeyword, hliteral, hleft, hright⟩ := isOperation_iff.mp ho
  exact isOperation_iff.mpr
    ⟨hkeyword, hliteral, fun hl => isValueLike_of_subset h (hleft hl), fun hr => isValueLike_of_subset h (hright hr)⟩

omit h in
theorem isValueLike_of_isOperation (hn : isOperation names left right = false)
    (ho : isOperation names' left right = true) : [left, right].any (isValueLike names') = true := by
  obtain ⟨hkeyword, hliteral, hleft, hright⟩ := isOperation_iff.mp ho
  simp only [any_cons, any_nil, Bool.or_false, Bool.or_eq_true]
  cases hr : right.head?.any isAnyDigit with
  | true => exact Or.inl (hleft hr)
  | false =>
    cases hl : left.head?.any isAnyDigit with
    | true => exact Or.inr (hright hl)
    | false =>
      -- no literal at all, so that the names do not matter
      have : isOperation names left right = true := isOperation_iff.mpr ⟨hkeyword, hliteral, by simp [hr], by simp [hl]⟩
      rw [hn] at this
      cases this

theorem operation?_of_subset {o : Operation} (ho : operation? names code = some o) :
    ∃ o', operation? names' code = some o' ∧
      (o.operands.any (isValueLike names) = true → o'.operands.any (isValueLike names') = true) := by
  unfold operation? at ho ⊢
  dsimp only at ho ⊢
  split at ho
  · cases ho
  next hskipped =>
  rw [if_neg hskipped]
  split at ho
  · cases ho
  next hsafe =>
  rw [if_neg hsafe]
  cases hc : compound.search code with
  | some m =>
    rw [hc] at ho
    exact ⟨o, ho, any_isValueLike_of_subset h⟩
  | none =>
    rw [hc] at ho
    obtain ⟨m, hm, rfl⟩ := Option.map_eq_some_iff.mp ho
    obtain ⟨m', hm', hcases⟩ := find?_of_imp (fun _ => isOperation_of_subset h) hm
    refine ⟨_, Option.map_eq_some_iff.mpr ⟨m', hm', rfl⟩, fun hlike => ?_⟩
    rcases hcases with rfl | ⟨hn, hw⟩
    · exact any_isValueLike_of_subset h hlike
    · exact isValueLike_of_isOperation hn hw

theorem sighting?_of_subset {f : Function} {l : Line} {v : Sighting} (hv : sighting? names f l = some v) :
    ∃ w, sighting? names' f l = some w ∧ Sighting.AtLeast .medium v w := by
  obtain ⟨o, ho, rfl⟩ := Option.map_eq_some_iff.mp hv
  obtain ⟨o', ho', hlike⟩ := operation?_of_subset h ho
  refine ⟨_, Option.map_eq_some_iff.mpr ⟨o', ho', rfl⟩, ⟨rfl, rfl, rfl, ?_⟩⟩
  dsimp only
  split
  · next hhigh =>
    rw [if_pos (hlike hhigh)]
    exact Nat.le_refl _
  · split <;> decide

end Wider

def seenWith (names : List String) (m : Model) : List Sighting :=
  (m.functions.filter (!m.isTestCode ·)).flatMap fun f =>
    (m.bodyLines f).filterMap fun l =>
      if (nestedIn m f).any (·.containsLine l.number) then none else sighting? names f l

theorem sightings_of_ok {setup : RuleSetup} {more : List String}
    (hmore : optionList setup.options "value_names" = .ok more) (u : ScanUnit) (x : Index) :
    sightings setup u x = .ok (seenWith (valueNames ++ more) u.model) := by
  unfold sightings
  rw [hmore]
  rfl

theorem seenWith_of_subset (h : names ⊆ names') (m : Model) :
    SublistForall₂ (Sighting.AtLeast .medium) (seenWith names m) (seenWith names' m) := by
  refine sublistForall₂_flatMap fun f => sublistForall₂_filterMap fun l v hv => ?_
  split at hv
  · cases hv
  · next hnested =>
    rw [if_neg hnested]
    exact sighting?_of_subset h hv

end Arithmetic

/-! ### More names of accounts that authorize -/

namespace Accounts
variable {names names' : List String}

section Wider
variable (h : names ⊆ names')
include h

theorem isAuthority_of_subset {name : String} (ha : isAuthority names name = true) :
    isAuthority names' name = true := by
  simp only [isAuthority, Bool.or_eq_true, contains_iff_mem, any_eq_true] at ha ⊢
  rcases ha with ha | ⟨n, hn, hsuffix⟩
  · exact Or.inl (h ha)
  · exact Or.inr ⟨n, h hn, hsuffix⟩

theorem isUnsignedAuthority_of_subset {f : Field} (hf : isUnsignedAuthority names f = true) :
    isUnsignedAuthority names' f = true := by
  simp only [isUnsignedAuthority, Bool.and_eq_true] at hf ⊢
  exact ⟨⟨⟨isAuthority_of_subset h hf.1.1.1, hf.1.1.2⟩, hf.1.2⟩, hf.2⟩

theorem structSightings_of_subset (m : Model) (x : Index) (s : Struct) :
    (structSightings names m x s).Sublist (structSightings names' m x s) := by
  refine List.Sublist.map _ (monotone_filter_right _ fun f hf => ?_)
  rw [Bool.and_eq_true] at hf ⊢
  exact ⟨isUnsignedAuthority_of_subset h hf.1, hf.2⟩

theorem lineSighting?_of_subset {m : Model} {f : Function} {l : Line} {v : Sighting}
    (hv : lineSighting? names m f l = some v) : lineSighting? names' m f l = some v := by
  unfold lineSighting? at hv ⊢
  cases hfound : nextAccount.search l.code.toList with
  | none =>
    rw [hfound] at hv
    cases hv
  | some found =>
    rw [hfound] at hv
    dsimp only [Option.bind_eq_bind, Option.bind_some] at hv ⊢
    cases ha : isAuthority names (found.groupText 1) with
    | false =>
      rw [ha] at hv
      cases hv
    | true =>
      rw [ha] at hv
      rw [isAuthority_of_subset h ha]
      exact hv

end Wider

def seenWith (names : List String) (m : Model) (x : Index) : List Sighting :=
  m.accountsStructs.flatMap (structSightings names m x)
    ++ m.functions.flatMap fun f => (m.bodyLines f).filterMap (lineSighting? names m f)

/-- The names that are read in a unit: those of the option only if they are asked for. -/
def namesFor (m : Model) (more : List String) : List String :=
  authorityNames ++ if asksForNames m then more else []

theorem signerSightings_of_ok {setup : RuleSetup} {more : List String}
    (hmore : optionList setup.options "authority_names" = .ok more) (u : ScanUnit) (x : Index) :
    signerSightings setup u x = .ok (seenWith (namesFor u.model more) u.model x) := by
  unfold signerSightings namesFor
  dsimp only
  rw [hmore]
  split <;> rfl

theorem namesFor_subset (m : Model) {more more' : List String} (h : more ⊆ more') :
    namesFor m more ⊆ namesFor m more' := by
  unfold namesFor
  split
  · exact append_subset_append _ h
  · exact List.Subset.refl _

theorem seenWith_of_subset (h : names ⊆ names') (m : Model) (x : Index) :
    (seenWith names m x).Sublist (seenWith names' m x) := by
  refine sublist_of_sublistForall₂ (sublistForall₂_append (sublistForall₂_flatMap fun s => ?_)
    (sublistForall₂_flatMap fun f => sublistForall₂_filterMap fun l v hv => ?_))
  · exact (structSightings_of_subset h m x s).sublistForall₂
  · exact ⟨v, lineSighting?_of_subset h hv, rfl⟩

end Accounts

/-- More names in the options hide no finding. With more names of amounts each line and function that
    the arithmetic rule reports is still reported, at least as severely; with more names of accounts
    that authorize each finding of the signer rule is still reported as it was. -/
theorem widening_keeps_findings {options options' : Entries} {more more' : List String} (hsub : more ⊆ more')
    (severity : Option Severity) (u : ScanUnit) (x : Index) :
    (optionList options "value_names" = .ok more → optionList options' "value_names" = .ok more' →
      ∃ fs gs, (Arithmetic.detector.rule ⟨severity, options⟩).evaluate u x = .ok { findings := fs } ∧
        (Arithmetic.detector.rule ⟨severity, options'⟩).evaluate u x = .ok { findings := gs } ∧
        List.SublistForall₂ (fun f g => g.StillReports f) fs gs) ∧
      (optionList options "authority_names" = .ok more → optionList options' "authority_names" = .ok more' →
        ∃ fs gs, (Accounts.missingSigner.rule ⟨severity, options⟩).evaluate u x = .ok { findings := fs } ∧
          (Accounts.missingSigner.rule ⟨severity, options'⟩).evaluate u x = .ok { findings := gs } ∧
          fs.Sublist gs) := by
  refine ⟨fun hmore hmore' => ?_, fun hmore hmore' => ?_⟩
  · refine ⟨_, _, Detector.evaluate_of_ok (Arithmetic.sightings_of_ok hmore u x),
      Detector.evaluate_of_ok (Arithmetic.sightings_of_ok hmore' u x), ?_⟩
    rw [List.sublistForall₂_map_left_iff, List.sublistForall₂_map_right_iff]
    have hseen := Arithmetic.seenWith_of_subset (append_subset_append Arithmetic.valueNames hsub) u.model
    obtain ⟨vs, hvs, hlong⟩ := List.sublistForall₂_iff.mp hseen
    exact List.sublistForall₂_iff.mpr ⟨vs, hvs.imp fun v w hvw => hvw.stillReports severity options options' u.path,
      hlong⟩
  · refine ⟨_, _, Detector.evaluate_of_ok (Accounts.signerSightings_of_ok hmore u x),
      Detector.evaluate_of_ok (Accounts.signerSightings_of_ok hmore' u x), ?_⟩
    exact (Accounts.seenWith_of_subset (Accounts.namesFor_subset u.model hsub) u.model x).map _

def accountUnit : ScanUnit := .of "a" "fn f(){let owner=next_account_info(i)}" (some "rust")

theorem widening_keeps_findings_samples :
    [] ⊆ ["v"] ∧ optionList [] "value_names" = .ok [] ∧ optionList widerOptions "value_names" = .ok ["v"] ∧
      optionList [] "authority_names" = .ok [] ∧ optionList widerOptions "authority_names" = .ok ["v"] ∧
      (∃ fs gs, (Arithmetic.detector.rule ⟨none, []⟩).evaluate sumsUnit ⟨[], [], []⟩ = .ok { findings := fs } ∧
        (Arithmetic.detector.rule ⟨none, widerOptions⟩).evaluate sumsUnit ⟨[], [], []⟩ = .ok { findings := gs } ∧
        List.SublistForall₂ (fun f g => g.StillReports f) fs gs ∧
        fs.map (·.severity) = [.medium] ∧ gs.map (·.severity) = [.high]) ∧
      ∃ fs gs, (Accounts.missingSigner.rule ⟨none, []⟩).evaluate accountUnit ⟨[], [], []⟩ = .ok { findings := fs } ∧
        (Accounts.missingSigner.rule ⟨none, widerOptions⟩).evaluate accountUnit ⟨[], [], []⟩ = .ok { findings := gs } ∧
        fs.Sublist gs ∧ fs.length = 1 ∧ gs.length = 1 := by
  have hsub : ([] : List String) ⊆ ["v"] := List.nil_subset _
  have hamounts : optionList widerOptions "value_names" = .ok ["v"] := by decide +kernel
  have haccounts : optionList widerOptions "authority_names" = .ok ["v"] := by decide +kernel
  have hnone : ∀ key, optionList [] key = .ok [] := fun _ => rfl
  obtain ⟨fs, gs, hfs, hgs, hreports⟩ :=
    (widening_keeps_findings hsub none sumsUnit ⟨[], [], []⟩).1 (hnone "value_names") hamounts
  obtain ⟨fs', gs', hfs', hgs', hsame⟩ :=
    (widening_keeps_findings hsub none accountUnit ⟨[], [], []⟩).2 (hnone "authority_names") haccounts
  have hseverities : (((Arithmetic.detector.rule ⟨none, []⟩).evaluate sumsUnit ⟨[], [], []⟩).map
        fun y => y.findings.map (·.severity)) = .ok [.medium] ∧
      (((Arithmetic.detector.rule ⟨none, widerOptions⟩).evaluate sumsUnit ⟨[], [], []⟩).map
        fun y => y.findings.map (·.severity)) = .ok [.high] := by decide +kernel
  have hlengths : (((Accounts.missingSigner.rule ⟨none, []⟩).evaluate accountUnit ⟨[], [], []⟩).map
        fun y => y.findings.length) = .ok 1 ∧
      (((Accounts.missingSigner.rule ⟨none, widerOptions⟩).evaluate accountUnit ⟨[], [], []⟩).map
        fun y => y.findings.length) = .ok 1 := by decide +kernel
  rw [hfs, hgs] at hseverities
  rw [hfs', hgs'] at hlengths
  exact ⟨hsub, hnone _, hamounts, hnone _, haccounts,
    ⟨fs, gs, hfs, hgs, hreports, Except.ok.inj hseverities.1, Except.ok.inj hseverities.2⟩,
    ⟨fs', gs', hfs', hgs', hsame, Except.ok.inj hlengths.1, Except.ok.inj hlengths.2⟩⟩

end ContractAudit

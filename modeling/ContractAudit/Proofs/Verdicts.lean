import ContractAudit.Proofs.Sightings

/-! # Verdicts depend on masked code

Sources that are masked alike get the same verdicts from every built-in rule but the one for unchecked
accounts, which reads the comments on fields. -/

namespace ContractAudit
open Source Text List
variable {u u' : ScanUnit} {x x' : Index} {d : Detector}

structure ScanUnit.SameCode (u u' : ScanUnit) : Prop where
  path : u.path = u'.path
  language : u.language = u'.language
  masked : maskText u.source = maskText u'.source

theorem Source.Sheet.lines_alike {s s' : List Char} (h : mask s = mask s') :
    Forall₂ (Line.Indented False) (Sheet.ofText s).lines (Sheet.ofText s').lines := by
  have hraw (t : List Char) := (blanksOut_mask t).fileLines.length_eq
  rw [forall₂_iff_get]
  refine ⟨by simp [Sheet.lines, Sheet.ofText, hraw s, hraw s', h], fun i hi hi' => ?_⟩
  simp only [Sheet.lines, Sheet.ofText, get_eq_getElem, getElem_map, getElem_zipIdx, getElem_zip]
  exact ⟨rfl, False.elim, .inl (by simp only [h])⟩

theorem Source.Function.Shifted.refl (f : Function) : Function.Shifted False id f f where
  name := rfl
  offset := rfl
  startLine := rfl
  bodyStartLine := rfl
  endLine := rfl
  params := rfl
  attributes := rfl
  isPub := rfl
  container := by
    cases f.container with
    | none => exact .none
    | some n => exact .some (.inl rfl)
  body := .refl _

theorem Source.Model.shifted_of_maskText {s s' : String} (h : maskText s = maskText s') :
    Model.Shifted False id (Model.ofText s) (Model.ofText s') := by
  have hmask : mask s.toList = mask s'.toList := by
    simpa [maskText] using congrArg String.toList h
  have hsheet : Sheet.ofText s'.toList = { Sheet.ofText s.toList with text := s'.toList } := by
    simp [Sheet.ofText, hmask]
  have hlines := Sheet.lines_alike hmask
  rw [hsheet] at hlines
  simp only [Model.ofText, hsheet]
  exact
    { lines := hlines
      injective := Function.injective_id
      functions := forall₂_same.mpr fun f _ => .refl f
      structs := Sheet.structs_alike ..
      same_structs := False.elim
      modules := rfl }

theorem ScanUnit.SameCode.shifted (h : ScanUnit.SameCode u u') : ScanUnit.Shifted False id u u' where
  path := h.path.symm
  language := h.language.symm
  model := by
    rw [u.model_eq, u'.model_eq]
    exact Model.shifted_of_maskText h.masked

/-- What a finding says: its rule, its place, how bad it is and its message. -/
def Finding.verdict (f : Finding) : String × Location × Severity × String :=
  (f.ruleId, f.location, f.severity, f.message)

def verdicts (result : Except Fault Yield) : Except Fault (List (String × Location × Severity × String)) :=
  result.map fun y => y.findings.map Finding.verdict

theorem Sighting.Alike.verdict {s s' : Sighting} (h : Sighting.Alike False s s') (info : RuleInfo) (setup : RuleSetup)
    (path : String) : (s.finding info setup path).verdict = (s'.finding info setup path).verdict := by
  have hsymbol : s'.symbol.map id = s.symbol.map id := map_eq_of_rel h.symbol fun _ _ hn => hn.resolve_right And.left
  rw [Option.map_id_fun, id, id] at hsymbol
  simp only [Finding.verdict, Sighting.finding, Draft.finding, h.line, h.message.resolve_right And.left, hsymbol,
    h.severity]

theorem Detector.ReadsCode.verdicts_evaluate (h : d.ReadsCode False) (hu : ScanUnit.Shifted False id u u')
    (hx : Index.Shifted False id x x') (setup : RuleSetup) :
    verdicts ((d.rule setup).evaluate u x) = verdicts ((d.rule setup).evaluate u' x') := by
  have hseen := h id u u' x x' hu.model hx setup
  simp only [Detector.rule]
  generalize d.sightings setup u x = r, d.sightings setup u' x' = r' at hseen ⊢
  cases hseen with
  | error e => rfl
  | @ok s s' hs =>
    simp only [verdicts, Except.map, map_map, hu.path, Except.ok.injEq]
    rw [← forall₂_eq_eq_eq]
    exact rel_map (fun _ _ h => h.verdict d.info setup u.path) hs

/-- Verdicts depend on masked code: for two lists of units with the same paths, languages and masked sources,
    every built-in rule but the one for unchecked accounts says the same of units in the same place. -/
theorem verdicts_of_sameCode {us us' : List ScanUnit} (h : List.Forall₂ ScanUnit.SameCode us us') {d : Detector}
    (hd : d ∈ builtinDetectors) (hid : d.info.id ≠ "SOL-003") (setup : RuleSetup) :
    List.Forall₂ (fun u u' => verdicts ((d.rule setup).evaluate u (Index.ofUnits us)) =
      verdicts ((d.rule setup).evaluate u' (Index.ofUnits us'))) us us' :=
  h.imp fun _ _ hu => (readsCode_of_mem hd (.inr hid)).verdicts_evaluate hu.shifted
    (Index.shifted_ofUnits (h.imp fun _ _ hu => hu.shifted)) setup

/-- Unsafe code in one unit, and in a comment of the other. -/
def commentedUnits : List ScanUnit :=
  [.of "a.rs" "unsafe { } // x" (some "rust"), .of "b.rs" "// unsafe { }" (some "rust")]

def recommentedUnits : List ScanUnit :=
  [.of "a.rs" "unsafe { } /**/" (some "rust"), .of "b.rs" "/* harmless*/" (some "rust")]

theorem verdicts_of_sameCode_commentedUnits :
    List.Forall₂ ScanUnit.SameCode commentedUnits recommentedUnits ∧ Safety.unsafeCode ∈ builtinDetectors ∧
      List.Forall₂ (fun u u' =>
        verdicts ((Safety.unsafeCode.rule { severity := some .high }).evaluate u (Index.ofUnits commentedUnits)) =
          verdicts ((Safety.unsafeCode.rule { severity := some .high }).evaluate u' (Index.ofUnits recommentedUnits)))
        commentedUnits recommentedUnits := by
  have hcode : Forall₂ ScanUnit.SameCode commentedUnits recommentedUnits :=
    .cons ⟨rfl, rfl, by decide +kernel⟩ (.cons ⟨rfl, rfl, by decide +kernel⟩ .nil)
  have hmem : Safety.unsafeCode ∈ builtinDetectors := by simp [builtinDetectors]
  exact ⟨hcode, hmem, verdicts_of_sameCode hcode hmem (by decide) _⟩

end ContractAudit

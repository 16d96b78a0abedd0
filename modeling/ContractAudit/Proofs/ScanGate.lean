import ContractAudit.Proofs.Components
import ContractAudit.Run.Scan

/-! # The gate of a scan -/

namespace ContractAudit
open List Outcome

variable {f : Finding}

/-- The rule applies to the unit and reports the finding there without failing. -/
def Rule.Reports (r : Rule) (u : ScanUnit) (x : Index) (f : Finding) : Prop :=
  r.appliesTo u = .ok true ∧ ∃ y, r.evaluate u x = .ok y ∧ y.invalid = 0 ∧ f ∈ y.findings

theorem Rule.mem_findings_outcome {r : Rule} {u : ScanUnit} {x : Index} :
    f ∈ (r.outcome u x).findings ↔ r.Reports u x f := by
  unfold outcome check Reports
  cases happlies : r.appliesTo u with
  | error e => simp [bind, Except.bind, findings]
  | ok applies =>
    cases applies with
    | false => simp [bind, Except.bind, pure, Except.pure, findings]
    | true =>
      cases hy : r.evaluate u x with
      | error e => simp [bind, Except.bind, findings]
      | ok y =>
        by_cases hvalid : y.invalid = 0
        · simp [bind, Except.bind, pure, Except.pure, findings, hvalid]
        · simp [bind, Except.bind, throw, throwThe, MonadExceptOf.throw, findings, hvalid]

theorem Engine.mem_findings_run {units : List ScanUnit} {rules : List Rule} : f ∈ (run units rules).findings ↔
      ∃ u ∈ units, ∃ r ∈ rules, r.Reports u (Index.ofUnits (Index.sortUnits units)) f := by
  simp only [run, collect, workers, unitOutcomes, sortRules, mem_flatMap, mem_flatten, mem_map]
  constructor
  · rintro ⟨o, ⟨os, ⟨u, hu, rfl⟩, ho⟩, hf⟩
    obtain ⟨r, hr, rfl⟩ := mem_map.mp ho
    exact ⟨u, mem_mergeSort.mp hu, r, mem_mergeSort.mp hr, Rule.mem_findings_outcome.mp hf⟩
  · rintro ⟨u, hu, r, hr, hf⟩
    exact ⟨_, ⟨_, ⟨u, mem_mergeSort.mpr hu, rfl⟩, mem_map_of_mem (mem_mergeSort.mpr hr)⟩,
      Rule.mem_findings_outcome.mpr hf⟩

theorem Severity.le_critical (s : Severity) : s ≤ critical := by
  cases s <;> decide

theorem Severity.eq_critical_of_le {s : Severity} (h : critical ≤ s) : s = critical :=
  eq_of_rank_eq (Nat.le_antisymm (le_critical s) h)

section Report
variable {raw : List Finding} {diagnostics : List Diagnostic} {order : RuleOrder} {metadata : Entries}

theorem exists_raw_severity (h : f ∈ (aggregate raw diagnostics order metadata).findings) :
    ∃ g ∈ raw, g.severity = f.severity := by
  obtain ⟨first, rest, hgroup, rfl⟩ := exists_group_of_mem_aggregate h
  exact ⟨_, hgroup _ (representative_mem order first rest), (mergeGroup_severity order first rest).symm⟩

theorem exists_finding_severity (h : f ∈ raw) :
    ∃ g ∈ (aggregate raw diagnostics order metadata).findings, f.severity ≤ g.severity := by
  obtain ⟨κ, hκ⟩ := assigns_aggregate raw diagnostics order metadata
  obtain ⟨i, hi⟩ := mem_iff_getElem?.mp h
  have hlt := hκ.lt i (List.getElem?_eq_some_iff.mp hi).1
  exact ⟨_, List.getElem_mem hlt, (hκ.standsFor _ _ (List.getElem?_eq_getElem hlt)).worst f ⟨i, hi, rfl⟩⟩

theorem Report.gate_iff (r : Report) (failOnCritical : Bool) :
    r.gate failOnCritical = true ↔ failOnCritical = true ∧ ∃ f ∈ r.findings, f.severity = .critical := by
  rw [gate, hasCritical, count, Bool.and_eq_true, bne_iff_ne, ← Nat.pos_iff_ne_zero, countP_pos_iff]
  simp only [beq_iff_eq]

theorem Report.exists_critical_atLeast (r : Report) (least : Severity) :
    (∃ f ∈ (r.atLeast least).findings, f.severity = .critical) ↔ ∃ f ∈ r.findings, f.severity = .critical := by
  constructor
  · rintro ⟨f, hf, hc⟩
    exact ⟨f, mem_of_mem_filter hf, hc⟩
  · rintro ⟨f, hf, hc⟩
    refine ⟨f, mem_filter.mpr ⟨hf, ?_⟩, hc⟩
    rw [hc]
    exact decide_eq_true (Severity.le_critical least)

theorem exists_critical_aggregate :
    (∃ f ∈ (aggregate raw diagnostics order metadata).findings, f.severity = .critical) ↔
      ∃ f ∈ raw, f.severity = .critical := by
  constructor
  · rintro ⟨f, hf, hc⟩
    obtain ⟨g, hg, hs⟩ := exists_raw_severity hf
    exact ⟨g, hg, hs.trans hc⟩
  · rintro ⟨f, hf, hc⟩
    obtain ⟨g, hg, hs⟩ := exists_finding_severity hf
    exact ⟨g, hg, Severity.eq_critical_of_le (hc ▸ hs)⟩

end Report

/-- A scan tells of a critical finding just if it is asked to and a rule reports one on a unit; and
    its report has the aggregated findings of the least severity or worse, in their order. -/
theorem ScanConfig.scan_gate (c : ScanConfig) (formats : List ReportFormat) (rules : RuleConfig) (plugins : Registry)
    (units : List ScanUnit) :
    ((c.scan formats rules plugins units).criticalPresent = true ↔
        c.failOnCritical = true ∧ ∃ u ∈ units, ∃ r ∈ allRules rules plugins, ∃ f,
          r.Reports u (Index.ofUnits (Index.sortUnits units)) f ∧ f.severity = .critical) ∧
      let result := Engine.run units (allRules rules plugins)
      (c.scan formats rules plugins units).report.findings =
        (aggregate result.findings (result.diagnostics ++ plugins.diagnostics) result.ruleOrder
          (c.metadata rules result)).findings.filter fun f => decide (rules.minSeverity ≤ f.severity) := by
  refine ⟨?_, rfl⟩
  rw [scan, report, Report.gate_iff, Report.exists_critical_atLeast, exists_critical_aggregate]
  refine and_congr_right fun _ => ?_
  constructor
  · rintro ⟨f, hf, hc⟩
    obtain ⟨u, hu, r, hr, hf⟩ := Engine.mem_findings_run.mp hf
    exact ⟨u, hu, r, hr, f, hf, hc⟩
  · rintro ⟨u, hu, r, hr, f, hf, hc⟩
    exact ⟨f, Engine.mem_findings_run.mpr ⟨u, hu, r, hr, hf⟩, hc⟩

end ContractAudit

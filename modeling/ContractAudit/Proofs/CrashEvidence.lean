import ContractAudit.Proofs.Accounting
import ContractAudit.Proofs.Admission
import ContractAudit.Proofs.Components

/-! # No crash is lost

The evidence of a crash names its job and its input, and the finding that a crash is merged into has it. -/

namespace ContractAudit
open List

variable {τ : Type} {p : Plan τ}

def Value.entry? (v : Value) (key : String) : Option Value :=
  match v with
  | .map m => Entries.get m key
  | _ => none

def Finding.shows (f : Finding) (jobId : String) (input : List UInt8) : Bool :=
  f.evidence.any fun v =>
    v.value.entry? "job_id" = some (.str jobId) ∧ v.value.entry? "input_hex" = some (.str (Hash.hex input))

theorem filter_eq_singleton {α : Type} {l : List α} {k : Nat} {a : α} {q : α → Bool} (hk : l[k]? = some a)
    (ha : q a = true) (h : ∀ j b, l[j]? = some b → q b = true → j = k) : l.filter q = [a] := by
  induction l generalizing k with
  | nil => simp at hk
  | cons c l ih =>
    cases k with
    | zero =>
      cases hk
      have hnone : l.filter q = [] := by
        rw [filter_eq_nil_iff]
        intro b hb hq
        obtain ⟨j, hj⟩ := mem_iff_getElem?.mp hb
        exact Nat.succ_ne_zero j (h (j + 1) b hj hq)
      rw [filter_cons_of_pos ha, hnone]
    | succ k =>
      have hc : ¬q c = true := fun hq => Nat.succ_ne_zero k (h 0 c rfl hq).symm
      rw [filter_cons_of_neg hc]
      exact ih hk fun j b hj hq => Nat.succ.inj (h (j + 1) b hj hq)

namespace JobRun

theorem decoded_crashEntries (r : JobRun τ) (input : List UInt8) (result : ExecutionResult) :
    Json.decoded (.record (r.crashEntries input result)) = .record (r.crashEntries input result) := by
  refine Json.decoded_record ?_ (by simp [crashEntries, Json.decoded, Json.decodedScalar, Value.str, Value.int])
  show ["execution", "input_hex", "input_size", "job_id", "strategy", "violation"].Pairwise (· ≤ ·)
  decide

theorem decoded_timeoutEntries (r : JobRun τ) (timeout : Seconds) :
    Json.decoded (.record (r.timeoutEntries timeout)) = .record (r.timeoutEntries timeout) := by
  refine Json.decoded_record ?_ ?_
  · show ["executions", "job_id", "strategy", "timeout"].Pairwise (· ≤ ·)
    decide
  · have htimeout : Json.decoded timeout.toValue = timeout.toValue := by cases timeout <;> rfl
    simp [timeoutEntries, Json.decoded, Json.decodedScalar, Value.str, Value.int, htimeout]

theorem crashFinding_evidence (c : CampaignSettings) (r : JobRun τ) (input : List UInt8) (result : ExecutionResult) :
    ∃ v, (r.crashFinding c input result).evidence = [v] ∧ v.value = .record (r.crashEntries input result) :=
  ⟨_, rfl, decoded_crashEntries r input result⟩

theorem timeoutFinding_evidence (c : CampaignSettings) (timeout : Seconds) (r : JobRun τ) :
    ∃ v, (r.timeoutFinding c timeout).evidence = [v] ∧ v.value = .record (r.timeoutEntries timeout) :=
  ⟨_, rfl, decoded_timeoutEntries r timeout⟩

end JobRun

namespace CampaignState

variable [Clock τ] {s : CampaignState τ} {r : JobRun τ} {f : Finding} (h : Reachable p s)
include h

theorem Reachable.finding_cases (hr : r ∈ s.jobs) (hf : r.job.finding = some f) :
    ∃ r', JobRun.assignment r' = r.assignment ∧ ((∃ input result, f = r'.crashFinding p.settings input result) ∨
        f = r'.timeoutFinding p.settings p.perJobTimeout) := by
  obtain ⟨i, hi⟩ := mem_iff_getElem?.mp hr
  have hrec := h.recorded hi
  rcases hrec.found.mp (by rw [hf]; rfl) with hstate | ⟨-, hstate⟩
  · obtain ⟨input, result, r', -, -, ha, hfinding⟩ := hrec.crashed hstate
    exact ⟨r', ha, .inl ⟨input, result, Option.some.inj (hf.symm.trans hfinding)⟩⟩
  · obtain ⟨r', ha, hfinding⟩ := hrec.timedOut hstate f hf
    exact ⟨r', ha, .inr hfinding⟩

theorem Reachable.evidence_jobId (hr : r ∈ s.jobs) (hf : r.job.finding = some f) :
    ∃ v, f.evidence = [v] ∧ v.value.entry? "job_id" = some (.str r.job.id) := by
  obtain ⟨r', ha, hcase⟩ := h.finding_cases hr hf
  rw [← show r'.job.id = r.job.id from congrArg Assignment.id ha]
  rcases hcase with ⟨input, result, rfl⟩ | rfl
  · obtain ⟨v, hv, hvalue⟩ := r'.crashFinding_evidence p.settings input result
    exact ⟨v, hv, hvalue ▸ rfl⟩
  · obtain ⟨v, hv, hvalue⟩ := r'.timeoutFinding_evidence p.settings p.perJobTimeout
    exact ⟨v, hv, hvalue ▸ rfl⟩

theorem Reachable.mem_findings : f ∈ s.findings ↔ ∃ r ∈ s.jobs, r.job.finding = some f := by
  rw [h.tallied.findings.mem_iff, mem_filterMap]

theorem Reachable.finding_eq {g : Finding} {v : Evidence} (hr : r ∈ s.jobs)
    (hf : r.job.finding = some f) (hg : g ∈ s.findings) (hv : v ∈ g.evidence)
    (hid : v.value.entry? "job_id" = some (.str r.job.id)) : g = f := by
  obtain ⟨r', hr', hg⟩ := h.mem_findings.mp hg
  obtain ⟨w, hw, hid'⟩ := h.evidence_jobId hr' hg
  rw [hw, mem_singleton] at hv
  rw [hv, hid'] at hid
  have heq : r'.job.id = r.job.id := by simpa [Value.str] using hid
  rw [inj_on_of_nodup_map h.nodup_ids hr' hr heq, hf] at hg
  exact (Option.some.inj hg).symm

theorem Reachable.nodup_findings : s.findings.Nodup := by
  rw [h.tallied.findings.nodup_iff, List.Nodup, pairwise_filterMap]
  have hids : s.jobs.Pairwise (fun r r' => r.job.id ≠ r'.job.id) := pairwise_map.mp h.nodup_ids
  refine hids.imp_of_mem ?_
  rintro r r' hr hr' hne f hf _ hf' rfl
  obtain ⟨v, hv, hid⟩ := h.evidence_jobId hr hf
  obtain ⟨w, hw, hid'⟩ := h.evidence_jobId hr' hf'
  rw [← (List.cons.inj (hv.symm.trans hw)).1, hid] at hid'
  exact hne (by simpa [Value.str] using hid')

theorem Reachable.exists_crash_shown {input : List UInt8} {result : ExecutionResult} {r' : JobRun τ}
    (hr : r ∈ s.jobs) (ha : r'.assignment = r.assignment)
    (hf : r.job.finding = some (r'.crashFinding p.settings input result)) (order : RuleOrder) (metadata : Entries) :
    ∃ f, (aggregate s.findings s.diagnostics order metadata).findings.filter (·.shows r.job.id input) = [f] ∧
      (r'.crashFinding p.settings input result).severity ≤ f.severity := by
  obtain ⟨κ, hκ⟩ := assigns_aggregate s.findings s.diagnostics order metadata
  obtain ⟨i, hi⟩ := mem_iff_getElem?.mp (h.mem_findings.mpr ⟨r, hr, hf⟩)
  have hlt := (List.getElem?_eq_some_iff.mp hi).1
  have hk := List.getElem?_eq_getElem (hκ.lt i hlt)
  have hstands := hκ.standsFor _ _ hk
  have hid : r'.job.id = r.job.id := congrArg Assignment.id ha
  refine ⟨_, filter_eq_singleton hk ?shows ?unique, hstands.worst _ ⟨i, hi, rfl⟩⟩
  case shows =>
    obtain ⟨v, hv, hvalue⟩ := r'.crashFinding_evidence p.settings input result
    have hmem := (hstands.mem_evidence v).mpr ⟨_, ⟨i, hi, rfl⟩, hv ▸ mem_singleton_self v⟩
    refine any_eq_true.mpr ⟨v, hmem, ?_⟩
    rw [decide_eq_true_eq, hvalue, ← hid]
    exact ⟨rfl, rfl⟩
  case unique =>
    intro k g hg hshows
    obtain ⟨v, hv, hentry⟩ := any_eq_true.mp hshows
    obtain ⟨g', ⟨j, hj, rfl⟩, hvg⟩ := ((hκ.standsFor k g hg).mem_evidence v).mp hv
    have heq := h.finding_eq hr hf (mem_of_getElem? hj) hvg (decide_eq_true_eq.mp hentry).1
    rw [(getElem?_inj hlt h.nodup_findings).mp (hi.trans (heq ▸ hj).symm)]

end CampaignState

def CampaignSettings.brokenSeverity (c : CampaignSettings) (rule : String) : Severity :=
  if rule = fuzzInvariant then c.violationSeverity else c.crashSeverity

theorem JobRun.crashFinding_severity (c : CampaignSettings) (r : JobRun τ) (input : List UInt8)
    (result : ExecutionResult) : (r.crashFinding c input result).severity =
      c.brokenSeverity (r.crashFinding c input result).ruleId := by
  rw [crashFinding_ruleId]
  have hrule : fuzzCrash ≠ fuzzInvariant := by decide
  cases hs : result.status <;> simp [crashFinding, Draft.finding, CampaignSettings.brokenSeverity, brokenRule, hs,
    hrule]

structure Accounted (p : Plan τ) (c : Campaign τ) (history : List (Occurrence τ)) : Prop where
  path : ∀ i j, c.jobs[i]? = some j → j.state.isTerminal = true ∧ LeadTo j.state (movesOf i history)
  completed : c.stats.completed = c.count .completed
  timeouts : c.stats.timeouts = c.count .timedOut
  failed : c.stats.failed = c.count .failed
  cancelled : c.stats.cancelled = c.count .cancelled
  crashed : c.stats.crashes + c.stats.violations = c.count .crashed
  total : c.stats.completed + c.stats.timeouts + c.stats.failed + c.stats.cancelled +
    (c.stats.crashes + c.stats.violations) = p.targets.length * p.strategies.length
  executions : c.stats.executions = totalExecutions c.jobs
  findings : c.findings.Perm (c.jobs.filterMap (·.finding))
  found : ∀ j ∈ c.jobs, j.finding.isSome = true ↔
    j.state = .crashed ∨ p.settings.timeoutsAsFindings = true ∧ j.state = .timedOut
  diagnosed : ∀ j ∈ c.jobs, j.state = .failed → c.diagnostics.countP (·.subject = j.id) = 1
  /-- One finding of the report shows the crash of a job on the last input that it executed, and it is
      as severe as the settings say. -/
  shown : ∀ i j, c.jobs[i]? = some j → j.state = .crashed → ∃ input g f, lastInput? i history = some input ∧
    j.finding = some g ∧ c.report.findings.filter (·.shows j.id input) = [f] ∧
    g.severity = p.settings.brokenSeverity g.ruleId ∧ g.severity ≤ f.severity

theorem CampaignState.Reachable.accounted [Clock τ] {s : CampaignState τ} (h : Reachable p s) (hover : s.isOver = true)
    (hid : ∀ n, p.campaignId ≠ Plan.jobId n) : Accounted p (.ofState p s) s.history := by
  have hterminal : ∀ r ∈ s.jobs, r.job.state.isTerminal = true := all_eq_true.mp hover
  have hcount : ∀ new, (Campaign.ofState p s).count new = s.jobs.countP (·.job.state = new) := by
    intro new
    rw [Campaign.count, Campaign.ofState, countP_map]
    exact countP_congr fun r _ => by simp
  have hjob : ∀ {i : Nat} {j}, (Campaign.ofState p s).jobs[i]? = some j →
      ∃ r : JobRun τ, s.jobs[i]? = some r ∧ r.job = j := by
    intro i j hj
    rwa [Campaign.ofState, getElem?_map, Option.map_eq_some_iff] at hj
  have hmem : ∀ {j}, j ∈ (Campaign.ofState p s).jobs → ∃ r ∈ s.jobs, r.job = j := mem_map.mp
  have tallied := h.tallied
  constructor
  case path =>
    intro i j hj
    obtain ⟨r, hr, rfl⟩ := hjob hj
    exact ⟨hterminal r (mem_of_getElem? hr), (h.recorded hr).path⟩
  case completed => exact (tallied.ended .completed rfl).trans (hcount _).symm
  case timeouts => exact (tallied.ended .timedOut rfl).trans (hcount _).symm
  case failed => exact (tallied.ended .failed rfl).trans (hcount _).symm
  case cancelled => exact (tallied.ended .cancelled rfl).trans (hcount _).symm
  case crashed => exact (tallied.ended .crashed rfl).trans (hcount _).symm
  case total =>
    rw [← h.length_jobs, ← countP_terminal hterminal, ← tallied.ended .completed rfl, ← tallied.ended .timedOut rfl,
      ← tallied.ended .failed rfl, ← tallied.ended .cancelled rfl, ← tallied.ended .crashed rfl]
    rfl
  case executions => exact tallied.executions
  case findings =>
    rw [Campaign.ofState, filterMap_map]
    exact tallied.findings
  case found =>
    intro j hj
    obtain ⟨r, hr, rfl⟩ := hmem hj
    obtain ⟨i, hi⟩ := mem_iff_getElem?.mp hr
    exact (h.recorded hi).found
  case diagnosed =>
    intro j hj hfailed
    obtain ⟨r, hr, rfl⟩ := hmem hj
    obtain ⟨i, hi⟩ := mem_iff_getElem?.mp hr
    exact h.diagnosed_once hr hfailed fun heq => hid (i + 1) (heq.symm.trans (h.id_eq hi))
  case shown =>
    intro i j hj hcrashed
    obtain ⟨r, hr, rfl⟩ := hjob hj
    obtain ⟨input, result, r', hinput, -, ha, hfinding⟩ := (h.recorded hr).crashed hcrashed
    obtain ⟨f, hf, hseverity⟩ := h.exists_crash_shown (mem_of_getElem? hr) ha hfinding fuzzRuleOrder
      (Campaign.entries (Campaign.ofState p s).metadata)
    exact ⟨input, _, f, hinput, hfinding, hf, r'.crashFinding_severity p.settings input result, hseverity⟩

/-- Whatever happens, and in whatever order, no job has to go where it cannot, and a campaign whose jobs
    are all over has accounted for them. The id of a campaign is drawn at random and is that of no job. -/
theorem campaign_accounted [Clock τ] (p : Plan τ) (hid : ∀ n, p.campaignId ≠ Plan.jobId n)
    (cancelReason : Option String) :
    (∀ events : List (CampaignEvent τ), ∃ s, (CampaignState.initial p cancelReason).applyAll p events = .ok s ∧
      (s.isOver = true → Accounted p (.ofState p s) s.history)) ∧
    (∀ requests : List (τ × Request), (∀ e, Runner.runPlan p cancelReason requests ≠ .error (.transition e)) ∧
      ∀ run, Runner.runPlan p cancelReason requests = .ok run → Accounted p run.campaign run.history.reverse) := by
  have hinit : CampaignState.Reachable p (.initial p cancelReason) := .initial cancelReason
  refine ⟨fun events => ?_, fun requests => ?_⟩
  · obtain ⟨s, hs, hreaches⟩ := hinit.exists_applyAll events
    exact ⟨s, hs, fun hover => (hinit.reaches hreaches).accounted hover hid⟩
  · obtain ⟨hok, hrun⟩ := Runner.runPlan_reaches p cancelReason requests
    refine ⟨hok, fun run h => ?_⟩
    obtain ⟨s, hreaches, hover, rfl⟩ := hrun run h
    rw [Runner.finished, List.reverse_reverse]
    exact (hinit.reaches hreaches).accounted hover hid

/-- The first job crashes on its second input while the second one waits and is cancelled. -/
theorem campaign_accounted_samplePlan :
    (∀ n, samplePlan.campaignId ≠ Plan.jobId n) ∧
    ∃ s, (CampaignState.initial samplePlan none).applyAll samplePlan
        [.enter 0, .enter 1, .prepared 0, .choose 0, .executed 0, .choose 0, .cancel "enough", .executed 0, .enter 1] =
          .ok s ∧
      s.isOver = true ∧ Accounted samplePlan (.ofState samplePlan s) s.history := by
  have hid : ∀ n, samplePlan.campaignId ≠ Plan.jobId n := by
    intro n heq
    have hhead := congrArg (·.toList.head?) heq
    rw [Plan.head?_jobId] at hhead
    exact absurd hhead (by decide)
  have hover : ((CampaignState.initial samplePlan none).applyAll samplePlan
      [.enter 0, .enter 1, .prepared 0, .choose 0, .executed 0, .choose 0, .cancel "enough", .executed 0,
        .enter 1]).toOption.all (·.isOver) = true := by decide
  obtain ⟨s, hs, haccounted⟩ := (campaign_accounted samplePlan hid none).1
    [.enter 0, .enter 1, .prepared 0, .choose 0, .executed 0, .choose 0, .cancel "enough", .executed 0, .enter 1]
  rw [hs] at hover
  exact ⟨hid, s, hs, hover, haccounted hover⟩

end ContractAudit

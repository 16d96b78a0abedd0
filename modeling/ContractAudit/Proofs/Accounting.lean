import ContractAudit.Proofs.JobHistory

/-! # Accounting

What a campaign counts, finds and complains about is the sum of what its jobs tell of themselves, in
every reachable state: each turn adds to the one what it adds to the other. -/

namespace ContractAudit
open List CampaignStats JobState Turn

variable {τ : Type} {p : Plan τ}

theorem countP_set_of_not {α : Type} {l : List α} {i : Nat} {a : α} {q : α → Bool} (h : l[i]? = some a)
    (ha : q a = false) (b : α) : (l.set i b).countP q = l.countP q + if q b then 1 else 0 := by
  simpa [ha] using countP_set_add h b q

/-- The executions of all jobs together. -/
def totalExecutions : List (Job τ) → Nat
  | [] => 0
  | j :: jobs => j.executions + totalExecutions jobs

theorem totalExecutions_set {jobs : List (JobRun τ)} {i : Nat} {r : JobRun τ} (h : jobs[i]? = some r) (r' : JobRun τ) :
    totalExecutions ((jobs.set i r').map (·.job)) + r.job.executions =
      totalExecutions (jobs.map (·.job)) + r'.job.executions := by
  induction jobs generalizing i with
  | nil => simp at h
  | cons q jobs ih =>
    cases i with
    | zero =>
      cases h
      simp only [set_cons_zero, map_cons, totalExecutions]
      omega
    | succ i =>
      have := ih h
      simp only [set_cons_succ, map_cons, totalExecutions]
      omega

theorem filterMap_set_perm {α β : Type} {l : List α} {i : Nat} {a : α} {f : α → Option β} (h : l[i]? = some a)
    (ha : f a = none) (b : α) : ((l.set i b).filterMap f).Perm (l.filterMap f ++ (f b).toList) := by
  have hperm := (perm_set h b).filterMap f
  rw [filterMap_cons_none ha] at hperm
  refine hperm.trans ?_
  cases hb : f b with
  | none => simp [filterMap_cons_none hb]
  | some c =>
    rw [filterMap_cons_some hb]
    exact (perm_append_singleton c _).symm

namespace CampaignStats

/-- How many jobs are counted as having ended in a state. -/
def ended (s : CampaignStats) : JobState → Nat
  | .completed => s.completed
  | .timedOut => s.timeouts
  | .crashed => s.crashes + s.violations
  | .cancelled => s.cancelled
  | .failed => s.failed
  | .pending | .running => 0

/-- The counted violations, or the counted crashes that are none. -/
def broken (s : CampaignStats) (violation : Bool) : Nat := if violation then s.violations else s.crashes

end CampaignStats

def brokenRule (violation : Bool) : String := if violation then fuzzInvariant else fuzzCrash

@[simp] theorem brokenRule_beq (v w : Bool) : (brokenRule v == brokenRule w) = (v == w) := by
  cases v <;> cases w <;> decide

@[simp] theorem fuzzTimeout_beq (v : Bool) : (fuzzTimeout == brokenRule v) = false := by
  cases v <;> decide

theorem JobRun.crashFinding_ruleId (c : CampaignSettings) (r : JobRun τ) (input : List UInt8)
    (result : ExecutionResult) :
    (r.crashFinding c input result).ruleId = brokenRule (result.status == .violation) := rfl

theorem JobRun.timeoutFinding_ruleId (c : CampaignSettings) (timeout : Seconds) (r : JobRun τ) :
    (r.timeoutFinding c timeout).ruleId = fuzzTimeout := rfl

def JobRun.breaks (r : JobRun τ) (rule : String) : Bool := r.job.finding.any (·.ruleId == rule)

namespace JobRun.Takes

variable {r : JobRun τ} {t : Turn} {stopping full : Bool}

section
variable (ht : r.Takes p stopping full t)
include ht

variable (stats : CampaignStats)

/-- A turn adds one to the count of the state that it ends a job in, and to no other. -/
theorem ended_counted {new : JobState} (hnew : new.isTerminal = true) :
    (t.counted stats).ended new = stats.ended new + if t.state? = some new then 1 else 0 := by
  cases ht with
  | @pass _ _ result _ hf =>
    have hok : result.status = .ok := by simpa [ExecutionResult.failed] using hf
    cases new <;> simp [counted, countResult, CampaignStats.ended, hok]
  | @crash _ _ result _ hf =>
    have hbad : result.status ≠ .ok := by simpa [ExecutionResult.failed] using hf
    cases hs : result.status with
    | ok => exact absurd hs hbad
    | violation | crash =>
      cases new <;>
        simp [counted, countResult, countState, CampaignStats.ended, hs, Nat.add_assoc, Nat.add_comm 1]
  | _ => cases new <;> simp_all [counted, countState, CampaignStats.ended, isTerminal]

theorem executions_counted [Clock τ] (now : τ) (call : Nat) :
    (t.counted stats).executions + r.job.executions = stats.executions + (r.after p now call t).job.executions := by
  cases ht <;> simp [counted, countResult, countState, after, ended] <;> omega

/-- A turn that breaks a rule is counted, and no other. -/
theorem broken_counted [Clock τ]
    (hnone : r.job.finding = none) (violation : Bool) (now : τ) (call : Nat) :
    (t.counted stats).broken violation = stats.broken violation +
      if (r.after p now call t).breaks (brokenRule violation) then 1 else 0 := by
  cases ht with
  | @pass _ _ result _ hf =>
    have hok : result.status = .ok := by simpa [ExecutionResult.failed] using hf
    simp [counted, countResult, broken, breaks, after, hnone, hok]
  | @crash input _ result _ hf =>
    have hbad : result.status ≠ .ok := by simpa [ExecutionResult.failed] using hf
    have hbreaks : (r.after p now call (.crash input result)).breaks (brokenRule violation) =
        ((result.status == .violation) == violation) := by
      simp [breaks, after, ended, crashFinding_ruleId]
    rw [hbreaks]
    cases hs : result.status with
    | ok => exact absurd hs hbad
    | violation | crash =>
      cases violation <;>
        simp [counted, countResult, countState, broken, hs]
  | timeOut _ =>
    have hbreaks : (r.after p now call .timeOut).breaks (brokenRule violation) = false := by
      by_cases hf : p.settings.timeoutsAsFindings = true <;>
        simp [breaks, after, ended, hf, hnone, timeoutFinding_ruleId]
    rw [hbreaks]
    simp [counted, countState, broken]
  | _ =>
    simp [counted, countState, broken, breaks, after, ended, hnone]

theorem findings_eq [Clock τ] (hnone : r.job.finding = none) (now : τ) (call : Nat) :
    t.findings p r = (r.after p now call t).job.finding.toList := by
  cases ht with
  | timeOut _ => by_cases hf : p.settings.timeoutsAsFindings = true <;> simp [after, ended, hf, hnone]
  | _ => simp [after, ended, hnone]

end

end JobRun.Takes

/-- The state counts, finds and complains about what its jobs tell of themselves. -/
structure Tallied (p : Plan τ) (s : CampaignState τ) : Prop where
  ended : ∀ new, isTerminal new = true → s.stats.ended new = s.jobs.countP (·.job.state = new)
  broken : ∀ violation, s.stats.broken violation = s.jobs.countP (·.breaks (brokenRule violation))
  executions : s.stats.executions = totalExecutions (s.jobs.map (·.job))
  findings : s.findings.Perm (s.jobs.filterMap (·.job.finding))
  diagnosed : ∀ id, id ≠ p.campaignId → s.diagnostics.countP (·.subject = id) =
    s.jobs.countP (fun r => r.job.state = .failed ∧ r.job.id = id)

namespace Tallied

variable {s : CampaignState τ}

theorem initial [Clock τ] (p : Plan τ) (cancelReason : Option String) : Tallied p (.initial p cancelReason) := by
  have fresh : ∀ r ∈ (CampaignState.initial p cancelReason).jobs,
      r.job.state = .pending ∧ r.job.executions = 0 ∧ r.job.finding = none := by
    intro r hr
    obtain ⟨a, -, rfl⟩ := mem_map.mp hr
    exact ⟨rfl, rfl, rfl⟩
  constructor
  case ended =>
    intro new hnew
    rw [countP_eq_zero.mpr fun r hr => ?_]
    · cases new <;> rfl
    · rw [(fresh r hr).1]
      cases new <;> simp_all [isTerminal]
  case broken =>
    intro violation
    rw [countP_eq_zero.mpr fun r hr => by simp [JobRun.breaks, (fresh r hr).2.2]]
    cases violation <;> rfl
  case executions =>
    show 0 = totalExecutions ((p.assignments.map _).map _)
    rw [map_map]
    induction p.assignments with
    | nil => rfl
    | cons a l ih =>
      rw [map_cons, totalExecutions, ← ih]
      rfl
  case findings =>
    rw [filterMap_eq_nil_iff.mpr fun r hr => (fresh r hr).2.2]
    exact .refl _
  case diagnosed =>
    intro id _
    exact (countP_eq_zero.mpr fun r hr => by simp [(fresh r hr).1]).symm

theorem quiet {t : CampaignState τ} (h : Tallied p s) (hq : s.Quiet p t) : Tallied p t := by
  obtain ⟨added, hadded, hsubject⟩ := hq.diagnostics
  constructor
  · exact hq.stats ▸ hq.jobs ▸ h.ended
  · exact hq.stats ▸ hq.jobs ▸ h.broken
  · exact hq.stats ▸ hq.jobs ▸ h.executions
  · exact hq.findings ▸ hq.jobs ▸ h.findings
  · intro id hid
    have hnone : added.countP (·.subject = id) = 0 :=
      countP_eq_zero.mpr fun d hd => by simpa [(hsubject d hd).1] using Ne.symm hid
    rw [hadded, countP_append, h.diagnosed id hid, hnone, hq.jobs, Nat.add_zero]

/-- A turn keeps the counts: what it adds to them, it adds to the job. -/
theorem commit [Clock τ] {i : Nat} {r : JobRun τ} {t : Turn} {h : List (Occurrence τ)} (ih : Tallied p s)
    (hrec : r.Recorded p i h) (hc : r.Consistent) (hr : s.jobs[i]? = some r)
    (ht : r.Takes p s.isCancelled s.slots.isFull t) : Tallied p (s.commit p i r t) := by
  have hlive := ht.isTerminal_eq_false hc
  have hnone := hrec.finding_eq_none hlive
  have hstate := r.after_state p s.now (s.calls.getD r.place 0) t
  constructor
  case ended =>
    intro new hnew
    have hne : r.job.state ≠ new := fun heq => by simp [heq, hnew] at hlive
    have hiff : t.state?.getD r.job.state = new ↔ t.state? = some new := by cases t.state? <;> simp [hne]
    show (t.counted s.stats).ended new = (s.jobs.set i _).countP _
    rw [ht.ended_counted s.stats hnew, ih.ended new hnew, countP_set_of_not hr (by simpa using hne), hstate]
    simp only [decide_eq_true_eq, hiff]
  case broken =>
    intro violation
    show (t.counted s.stats).broken violation = (s.jobs.set i _).countP _
    rw [ht.broken_counted s.stats hnone violation s.now (s.calls.getD r.place 0), ih.broken,
      countP_set_of_not hr (by simp [JobRun.breaks, hnone])]
  case executions =>
    have hsum := totalExecutions_set hr (r.after p s.now (s.calls.getD r.place 0) t)
    have hturn := ht.executions_counted s.stats s.now (s.calls.getD r.place 0)
    have hold := ih.executions
    show (t.counted s.stats).executions = totalExecutions ((s.jobs.set i _).map _)
    omega
  case findings =>
    show (s.findings ++ t.findings p r).Perm _
    rw [ht.findings_eq hnone s.now (s.calls.getD r.place 0)]
    exact (ih.findings.append_right _).trans (filterMap_set_perm hr hnone _).symm
  case diagnosed =>
    intro id hid
    have hfailed : r.job.state ≠ .failed := fun heq => by simp [heq, isTerminal] at hlive
    have hid' : (r.after p s.now (s.calls.getD r.place 0) t).job.id = r.job.id :=
      congrArg Assignment.id (r.after_assignment p s.now (s.calls.getD r.place 0) t)
    show (s.diagnostics ++ t.diagnostics r).countP _ = (s.jobs.set i _).countP _
    rw [countP_append, ih.diagnosed id hid, countP_set_of_not hr (by simp [hfailed]), hstate, hid']
    cases t <;> simp [hfailed, countP_cons]

end Tallied

namespace CampaignState

variable [Clock τ] {s : CampaignState τ}

theorem Reachable.tallied (h : Reachable p s) : Tallied p s :=
  h.induct (Tallied.initial p) (fun _ _ _ ih hq => ih.quiet hq)
    (fun _ _ _ _ hs ih hr ht => ih.commit (hs.recorded hr) (hs.fits hr) hr ht)

/-- A job that failed is complained about once, unless the campaign goes by the id of the job. -/
theorem Reachable.diagnosed_once {r : JobRun τ} (h : Reachable p s) (hr : r ∈ s.jobs) (hfailed : r.job.state = .failed)
    (hid : r.job.id ≠ p.campaignId) : s.diagnostics.countP (·.subject = r.job.id) = 1 := by
  have hone : s.jobs.countP (·.job.id = r.job.id) = 1 := by
    have hcount := count_eq_one_of_mem h.nodup_ids (mem_map_of_mem hr)
    rwa [List.count, countP_map] at hcount
  rw [h.tallied.diagnosed _ hid, ← hone]
  refine countP_congr fun r' hr' => ?_
  simp only [decide_eq_true_eq, and_iff_right_iff_imp]
  intro heq
  rw [inj_on_of_nodup_map h.nodup_ids hr' hr heq, hfailed]

end CampaignState

/-- Jobs that have all ended are counted in one state each. -/
theorem countP_terminal {jobs : List (JobRun τ)} (h : ∀ r ∈ jobs, r.job.state.isTerminal = true) :
    jobs.countP (·.job.state = .completed) + jobs.countP (·.job.state = .timedOut) +
      jobs.countP (·.job.state = .failed) + jobs.countP (·.job.state = .cancelled) +
      jobs.countP (·.job.state = .crashed) = jobs.length := by
  induction jobs with
  | nil => rfl
  | cons r jobs ih =>
    have hr := h r (by simp)
    have hjobs := ih fun r hr => h r (by simp [hr])
    cases hstate : r.job.state <;> simp [hstate, isTerminal] at hr ⊢ <;> omega

end ContractAudit

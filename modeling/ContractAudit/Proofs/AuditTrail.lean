import ContractAudit.Audit.Log
import ContractAudit.Proofs.Accounting
import ContractAudit.Proofs.Admission
import ContractAudit.Proofs.JsonReading
import Mathlib.Data.List.Forall2

/-! # The audit trail of a campaign

Between its start and its end, a campaign has one entry in the audit log for each change of state of a job,
each finding of a failed execution and each job that could not go on. -/

namespace ContractAudit
open List Runner Occurrence

variable {τ : Type} {p : Plan τ}

/-! ### Events and their entries -/

namespace AuditEvent

def findingSummary (limit : Int) (f : Finding) : List (String × Value) :=
  [("finding_id", .str f.id), ("rule_id", .str f.ruleId), ("severity", .str f.severity.name),
    ("path", .str f.location.path), ("line", .ofInt? f.location.startLine?), ("message", .str f.message),
    ("evidence", .str (truncate limit (Json.render Json.sortedLine (.list (f.evidence.map (·.value))))))]

def failureSummary (d : Diagnostic) : List (String × Value) :=
  [("kind", .str d.kind), ("source", .str d.source), ("subject", .str d.subject), ("message", .str d.message)]

def jobSummary (j : Job τ) : List (String × Value) :=
  [("job_id", .str j.id), ("event", .str j.state.name), ("data", .record [("target", .str j.target),
    ("strategy", .str j.strategy), ("executions", .int j.executions)])]

theorem fields?_ofFinding (c : AuditCounters) (limit : Int) (f : Finding) :
    (ofFinding f).fields? c limit = some (findingSummary limit f) := by
  have hevidence : Json.refuses Json.sortedLine true (.list (f.evidence.map (·.value))) = false := by
    refine Json.refuses_list.mpr fun v hv => ?_
    obtain ⟨e, -, rfl⟩ := mem_map.mp hv
    exact Json.refuses_of_decoded e.data
  exact if_neg (Bool.eq_false_iff.mp hevidence)

theorem fields?_ofDiagnostic (c : AuditCounters) (limit : Int) (d : Diagnostic) :
    (ofDiagnostic d).fields? c limit = some (failureSummary d) := rfl

/-- The entry of an event in a log, if it has one; the entry for the end of a session apart, it does not
    depend on the entries before it. -/
def entryIn? (setup : AuditSetup) (now : Moment) (e : AuditEvent) : Option AuditEntry :=
  (e.fields? {} setup.maxEvidence).map fun fields => ⟨e.kind, now, setup.sessionId, fields⟩

theorem fields?_of_kind {e : AuditEvent} (he : e.kind ≠ .session) (c : AuditCounters) (limit : Int) :
    e.fields? c limit = e.fields? {} limit := by
  cases e with
  | sessionStart _ | sessionEnd _ => exact absurd rfl he
  | _ => rfl

theorem kind_of_entryIn? {setup : AuditSetup} {now : Moment} {e : AuditEvent} {entry : AuditEntry}
    (h : e.entryIn? setup now = some entry) : entry.kind = e.kind := by
  obtain ⟨fields, -, rfl⟩ := Option.map_eq_some_iff.mp h
  rfl

end AuditEvent

namespace AuditLog
variable (l : AuditLog) (now : Moment)

theorem setup_record (e : AuditEvent) : (l.record now e).setup = l.setup := by
  unfold record
  split <;> rfl

theorem recordAll_append (es es' : List AuditEvent) :
    l.recordAll now (es ++ es') = (l.recordAll now es).recordAll now es' := foldl_append

theorem entries_recordAll {es : List AuditEvent} (hes : ∀ e ∈ es, e.kind ≠ .session) (l : AuditLog) (now : Moment) :
    (l.recordAll now es).entries = l.entries ++ es.filterMap (·.entryIn? l.setup now) := by
  induction es generalizing l with
  | nil => simp [recordAll]
  | cons e es ih =>
    have hstep : (l.record now e).entries = l.entries ++ (e.entryIn? l.setup now).toList := by
      rw [record, AuditEvent.entryIn?, AuditEvent.fields?_of_kind (hes e (mem_cons_self ..))]
      cases e.fields? {} l.setup.maxEvidence <;> simp
    show ((l.record now e).recordAll now es).entries = _
    rw [ih (fun e' he' => hes e' (mem_cons_of_mem _ he')), hstep, setup_record, filterMap_cons]
    cases e.entryIn? l.setup now <;> simp

theorem filter_entries (setup : AuditSetup) (now : Moment) (es : List AuditEvent) (k : AuditKind) :
    (es.filterMap (·.entryIn? setup now)).filter (·.kind == k) =
      (es.filter (·.kind == k)).filterMap (·.entryIn? setup now) := by
  induction es with
  | nil => rfl
  | cons e es ih =>
    cases h : e.entryIn? setup now with
    | none => by_cases hk : (e.kind == k) = true <;> simp [h, hk, ih]
    | some entry =>
      have hkind := AuditEvent.kind_of_entryIn? h
      by_cases hk : (e.kind == k) = true <;> simp [h, hkind, hk, ih]

def Marks (entry : AuditEntry) (event : String) : Prop := entry.kind = .session ∧ entry.get "event" = .str event

theorem exists_record_start (metadata : Value) :
    ∃ first, (l.record now (.sessionStart metadata)).entries = l.entries ++ [first] ∧ Marks first "session_start" :=
  ⟨_, rfl, rfl, rfl⟩

theorem exists_record_end (summary : Value) :
    ∃ last, (l.record now (.sessionEnd summary)).entries = l.entries ++ [last] ∧ Marks last "session_end" :=
  ⟨_, rfl, rfl, rfl⟩

theorem fields_filter_entries {α : Type} {setup : AuditSetup} {es : List AuditEvent} {k : AuditKind} {as : List α}
    {event : α → AuditEvent} {summary : α → List (String × Value)} (hes : es.filter (·.kind == k) = as.map event)
    (hsummary : ∀ a, (event a).fields? {} setup.maxEvidence = some (summary a)) (now : Moment) :
    ((es.filterMap (·.entryIn? setup now)).filter (·.kind == k)).map (·.fields) = as.map summary := by
  rw [filter_entries, hes, filterMap_map, map_filterMap]
  rw [← filterMap_eq_map]
  congr 1
  funext a
  simp [AuditEvent.entryIn?, hsummary]

end AuditLog

/-! ### What a turn reports -/

def Occurrence.move? : Occurrence τ → Option (Nat × JobState × JobState)
  | .moved i old new _ => some (i, old, new)
  | .executes _ _ | .cancels _ => none

/-- The finding has an entry in the audit log: it is not that of a job that took too long. -/
def Finding.isAudited (f : Finding) : Bool := f.ruleId != fuzzTimeout

/-- The diagnostic has an entry in the audit log: it is not that of a campaign whose time was up. -/
def Diagnostic.isAudited (d : Diagnostic) : Bool := d.kind != Diagnostic.campaignTimeout

namespace Turn

theorem filter_reported_finding (p : Plan τ) (r : JobRun τ) (t : Turn) :
    (t.reported p r).filter (·.kind == .finding) = ((t.findings p r).filter (·.isAudited)).map .ofFinding := by
  cases t with
  | crash input result =>
    have haudited : (r.crashFinding p.settings input result).isAudited = true := by
      rw [Finding.isAudited, JobRun.crashFinding_ruleId, bne, BEq.comm, fuzzTimeout_beq]
      rfl
    simp [haudited, AuditEvent.ofFinding, AuditEvent.kind]
  | timeOut =>
    have hsilent : (r.timeoutFinding p.settings p.perJobTimeout).isAudited = false := by
      simp [Finding.isAudited, JobRun.timeoutFinding_ruleId]
    by_cases hf : p.settings.timeoutsAsFindings = true <;> simp [hf, hsilent]
  | fail kind source message => simp [AuditEvent.ofDiagnostic, AuditEvent.kind]
  | _ => rfl

theorem filter_reported_job (p : Plan τ) (r : JobRun τ) (t : Turn) :
    (t.reported p r).filter (·.kind == .job) = [] := by
  cases t with
  | crash _ _ | fail _ _ _ => rfl
  | _ => rfl

theorem kind_of_mem_reported {p : Plan τ} {r : JobRun τ} {t : Turn} {e : AuditEvent} (he : e ∈ t.reported p r) :
    e.kind = .finding ∨ e.kind = .failure := by
  cases t with
  | crash input result =>
    rw [mem_singleton.mp he]
    exact .inl rfl
  | fail kind source message =>
    rw [mem_singleton.mp he]
    exact .inr rfl
  | _ => cases he

end Turn

theorem JobRun.Takes.filter_reported_failure {r : JobRun τ} {t : Turn} {stopping full : Bool}
    (ht : r.Takes p stopping full t) :
    (t.reported p r).filter (·.kind == .failure) = ((t.diagnostics r).filter (·.isAudited)).map .ofDiagnostic := by
  cases ht with
  | @fail kind source message _ hkind =>
    have haudited : (Diagnostic.mk kind source r.job.id message).isAudited = true := by
      simpa [Diagnostic.isAudited] using hkind
    simp [haudited, AuditEvent.ofDiagnostic, AuditEvent.kind]
  | crash _ _ => rfl
  | _ => rfl

namespace CampaignState

theorem moves_stopNote (given reason : Option String) : (stopNote given reason).filterMap (move? (τ := τ)) = [] := by
  unfold stopNote
  split
  · rfl
  · cases reason <;> rfl

theorem moves_told (p : Plan τ) (s : CampaignState τ) (i : Nat) (r : JobRun τ) (t : Turn) :
    (s.told p i r t).filterMap move? = t.state?.toList.map fun new => (i, r.job.state, new) := by
  have hnoted : (t.noted i).filterMap (move? (τ := τ)) = [] := by cases t <;> rfl
  rw [told, filterMap_append, filterMap_append, moves_stopNote, hnoted, nil_append, append_nil, filterMap_map]
  cases t.state? <;> rfl

/-! ### The invariant -/

end CampaignState

/-- The job as it was when it came to a state: no execution ends before it runs. -/
def Job.cameTo (j : Job τ) (new : JobState) : Job τ :=
  { j with state := new, executions := if new.isTerminal then j.executions else 0 }

theorem mem_movesOf {i : Nat} {old new : JobState} {h : List (Occurrence τ)}
    (hm : (i, old, new) ∈ h.filterMap move?) : (old, new) ∈ movesOf i h := by
  induction h with
  | nil => cases hm
  | cons o h ih =>
    cases o with
    | moved j old' new' moment =>
      rw [movesOf]
      rcases mem_cons.mp hm with heq | hm
      · cases heq
        simp
      · split
        · exact mem_cons_of_mem _ (ih hm)
        · exact ih hm
    | executes _ _ | cancels _ => exact ih hm

namespace CampaignState

def Tells (s : CampaignState τ) (move : Nat × JobState × JobState) (e : AuditEvent) : Prop :=
  ∃ r, s.jobs[move.1]? = some r ∧ e = jobEvent (r.job.cameTo move.2.2)

/-- What was reported to the audit log agrees with what the state records. -/
structure Audited (s : CampaignState τ) : Prop where
  kinds : ∀ e ∈ s.reported, e.kind = .job ∨ e.kind = .finding ∨ e.kind = .failure
  findings : s.reported.reverse.filter (·.kind == .finding) = (s.findings.filter (·.isAudited)).map .ofFinding
  failures : s.reported.reverse.filter (·.kind == .failure) = (s.diagnostics.filter (·.isAudited)).map .ofDiagnostic
  jobs : Forall₂ s.Tells (s.history.filterMap move?) (s.reported.filter (·.kind == .job))

variable [Clock τ] {s : CampaignState τ} {i : Nat} {r : JobRun τ}

theorem Reachable.isTerminal_of_move (h : Reachable p s) {old new : JobState} (hr : s.jobs[i]? = some r)
    (hlive : r.job.state.isTerminal = false) (hm : (i, old, new) ∈ s.history.filterMap move?) :
    new.isTerminal = false := by
  have hpath := (h.recorded hr).path
  have hmem := mem_movesOf hm
  generalize r.job.state = now at hpath hlive
  generalize movesOf i s.history = moves at hpath hmem
  cases hpath with
  | waits => cases hmem
  | runs =>
    cases mem_singleton.mp hmem
    rfl
  | ends hend =>
    rw [hend] at hlive
    cases hlive
  | leaves => cases hlive

theorem Reachable.tells_commit {t : Turn} {move : Nat × JobState × JobState} {e : AuditEvent} (h : Reachable p s)
    (hr : s.jobs[i]? = some r) (ht : r.Takes p s.isCancelled s.slots.isFull t)
    (hm : move ∈ s.history.filterMap move?) (he : s.Tells move e) : (s.commit p i r t).Tells move e := by
  obtain ⟨j, old, new⟩ := move
  obtain ⟨r', hr', rfl⟩ := he
  by_cases hij : i = j
  · subst hij
    rw [hr] at hr'
    cases hr'
    have hnew := h.isTerminal_of_move hr (ht.isTerminal_eq_false (h.fits hr)) hm
    refine ⟨_, getElem?_set_of_some hr _, ?_⟩
    cases t <;> simp [Job.cameTo, jobEvent, hnew, JobRun.after, JobRun.ended]
  · exact ⟨r', (getElem?_set_ne hij).trans hr', rfl⟩

theorem Reachable.tells_turn {t : Turn} {new : JobState} (h : Reachable p s) (hr : s.jobs[i]? = some r)
    (ht : r.Takes p s.isCancelled s.slots.isFull t) (hnew : t.state? = some new) :
    (s.commit p i r t).Tells (i, r.job.state, new) (jobEvent (r.after p s.now (s.calls.getD r.place 0) t).job) := by
  refine ⟨_, getElem?_set_of_some hr _, ?_⟩
  cases ht with
  | start ha _ _ =>
    cases hnew
    have hfresh := (h.recorded hr).fresh ((h.fits hr).pending ha)
    simp [Job.cameTo, JobState.isTerminal, JobRun.after, hfresh]
  | proceed _ | execute _ _ _ | pass _ _ => cases hnew
  | _ =>
    cases hnew
    simp [Job.cameTo, JobState.isTerminal, JobRun.after, JobRun.ended]

theorem filter_reported_commit {k : AuditKind} (hk : k ≠ .job) (s : CampaignState τ) (i : Nat) (r : JobRun τ)
    (t : Turn) :
    (s.commit p i r t).reported.reverse.filter (·.kind == k) =
      s.reported.reverse.filter (·.kind == k) ++ (t.reported p r).filter (·.kind == k) := by
  have hstate : ∀ j : Job τ, ((t.state?.toList.map fun _ => jobEvent j).reverse).filter (·.kind == k) = [] := by
    intro j
    cases t.state? <;> simp [jobEvent, AuditEvent.kind, Ne.symm hk]
  have hsingle : (t.reported p r).reverse = t.reported p r := by cases t <;> rfl
  simp only [commit, reverse_append, filter_append, hstate, hsingle, append_nil]

theorem filter_reported_commit_job (s : CampaignState τ) (i : Nat) (r : JobRun τ) (t : Turn) :
    (s.commit p i r t).reported.filter (·.kind == .job) =
      (t.state?.toList.map fun _ => jobEvent (r.after p s.now (s.calls.getD r.place 0) t).job) ++
        s.reported.filter (·.kind == .job) := by
  simp only [commit, filter_append, Turn.filter_reported_job, append_nil]
  cases t.state? <;> rfl

theorem Reachable.audited (h : Reachable p s) : s.Audited := by
  refine h.induct ?initial ?quiet ?turn
  case initial =>
    intro _
    exact ⟨fun _ he => (not_mem_nil he).elim, rfl, rfl, .nil⟩
  case quiet =>
    intro s t _ ih hq
    obtain ⟨added, hadded, hkind⟩ := hq.diagnostics
    obtain ⟨reason, -, hhistory⟩ := hq.stop
    have hsilent : added.filter (·.isAudited) = [] :=
      filter_eq_nil_iff.mpr fun d hd => by simp [Diagnostic.isAudited, (hkind d hd).2]
    constructor
    · exact hq.reported ▸ ih.kinds
    · rw [hq.reported, hq.findings, ih.findings]
    · rw [hq.reported, hadded, filter_append, hsilent, append_nil, ih.failures]
    · rw [hq.reported, hhistory, filterMap_append, moves_stopNote, nil_append]
      exact ih.jobs.imp fun move e ⟨r, hr, he⟩ => ⟨r, hq.jobs ▸ hr, he⟩
  case turn =>
    intro s i r t hs ih hr ht
    constructor
    case kinds =>
      intro e he
      rcases mem_append.mp he with he | he
      · rcases mem_append.mp he with he | he
        · obtain ⟨-, -, rfl⟩ := mem_map.mp he
          exact .inl rfl
        · exact .inr (Turn.kind_of_mem_reported he)
      · exact ih.kinds e he
    case findings =>
      rw [filter_reported_commit (by decide), ih.findings, Turn.filter_reported_finding, commit, filter_append,
        map_append]
    case failures =>
      rw [filter_reported_commit (by decide), ih.failures, ht.filter_reported_failure, commit, filter_append,
        map_append]
    case jobs =>
      have hold : Forall₂ (s.commit p i r t).Tells (s.history.filterMap move?)
          (s.reported.filter (·.kind == .job)) :=
        ((forall₂_and_left _ _).mpr ⟨fun move hm => hm, ih.jobs⟩).imp fun move e hm =>
          hs.tells_commit hr ht hm.1 hm.2
      rw [filter_reported_commit_job]
      show Forall₂ _ ((s.told p i r t ++ s.history).filterMap move?) _
      rw [filterMap_append, moves_told]
      cases hnew : t.state? with
      | none => exact hold
      | some new => exact .cons (hs.tells_turn hr ht hnew) hold

end CampaignState

/-! ### The campaign -/

/-- The entries tell of a campaign and of what happened in it, in order. -/
structure Campaign.Trail (c : Campaign τ) (history : List (Occurrence τ)) (limit : Int) (entries : List AuditEntry) :
    Prop where
  kinds : ∀ e ∈ entries, e.kind = .job ∨ e.kind = .finding ∨ e.kind = .failure
  findings : (entries.filter (·.kind == .finding)).map (·.fields) =
    (c.findings.filter (·.ruleId != fuzzTimeout)).map (AuditEvent.findingSummary limit)
  failures : (entries.filter (·.kind == .failure)).map (·.fields) =
    (c.diagnostics.filter (·.kind != Diagnostic.campaignTimeout)).map AuditEvent.failureSummary
  /-- Each change of state has an entry with what the job was and did when it came to its new state. -/
  jobs : Forall₂
    (fun move fields => ∃ j, c.jobs[move.1]? = some j ∧ fields = AuditEvent.jobSummary (j.cameTo move.2.2))
    (history.filterMap move?) ((entries.filter (·.kind == .job)).map (·.fields))

/-- A log in which a campaign was recorded: after the entries that were there come one for the start of
    the session, those of the campaign, and one for the end of the session. -/
def CampaignRun.Recorded (run : CampaignRun τ) (l l' : AuditLog) : Prop :=
  ∃ first entries last, l'.entries = l.entries ++ first :: (entries ++ [last]) ∧
    AuditLog.Marks first "session_start" ∧ AuditLog.Marks last "session_end" ∧
    run.campaign.Trail run.history l.setup.maxEvidence entries

theorem CampaignState.Audited.trail {s : CampaignState τ} (h : s.Audited) (p : Plan τ) (setup : AuditSetup)
    (now : Moment) : (Campaign.ofState p s).Trail s.history.reverse setup.maxEvidence
      (s.reported.reverse.filterMap (·.entryIn? setup now)) := by
  constructor
  case kinds =>
    intro entry hentry
    obtain ⟨e, he, hentry⟩ := mem_filterMap.mp hentry
    rw [AuditEvent.kind_of_entryIn? hentry]
    exact h.kinds e (mem_reverse.mp he)
  case findings => exact AuditLog.fields_filter_entries h.findings (AuditEvent.fields?_ofFinding _ _) now
  case failures => exact AuditLog.fields_filter_entries h.failures (AuditEvent.fields?_ofDiagnostic _ _) now
  case jobs =>
    rw [AuditLog.filter_entries, filter_reverse, filterMap_reverse, filterMap_reverse, map_reverse,
      forall₂_reverse_iff]
    have hjobs := h.jobs
    generalize s.history.filterMap move? = moves at hjobs ⊢
    generalize s.reported.filter (·.kind == .job) = events at hjobs ⊢
    induction hjobs with
    | nil => exact .nil
    | cons htells _ ih =>
      obtain ⟨r, hr, rfl⟩ := htells
      refine .cons ⟨r.job, ?_, rfl⟩ ih
      rw [Campaign.ofState, getElem?_map, hr, Option.map_some]

theorem CampaignState.Reachable.recorded_run [Clock τ] {s : CampaignState τ} (h : Reachable p s) (l : AuditLog)
    (now : Moment) : (finished p s).Recorded l (l.recordAll now (finished p s).events) := by
  have hinside : ∀ e ∈ s.reported.reverse, e.kind ≠ .session := by
    intro e he
    rcases h.audited.kinds e (mem_reverse.mp he) with hk | hk | hk <;> rw [hk] <;> decide
  obtain ⟨first, hstart, hfirst⟩ := l.exists_record_start now _
  obtain ⟨last, hend, hlast⟩ :=
    ((l.record now (startEvent p)).recordAll now s.reported.reverse).exists_record_end now
      (Campaign.ofState p s).statistics
  refine ⟨first, _, last, ?_, hfirst, hlast, h.audited.trail p l.setup now⟩
  have hinner := AuditLog.entries_recordAll hinside (l.record now (startEvent p)) now
  rw [AuditLog.setup_record, startEvent, hstart] at hinner
  show ((l.record now (startEvent p)).recordAll now (s.reported.reverse ++ [_])).entries = _
  rw [AuditLog.recordAll_append]
  refine hend.trans ?_
  rw [startEvent, hinner]
  simp

/-- Whatever happens in a campaign, and in whatever order, its entries in the audit log are those of its
    changes of state, of its findings other than those of jobs that took too long, and of its diagnostics
    other than that of its own time being up. -/
theorem campaign_audit_trail [Clock τ] (p : Plan τ) (cancelReason : Option String) (l : AuditLog) (now : Moment) :
    (∀ events : List (CampaignEvent τ), ∃ s, (CampaignState.initial p cancelReason).applyAll p events = .ok s ∧
      (Runner.finished p s).Recorded l (l.recordAll now (Runner.finished p s).events)) ∧
    (∀ (requests : List (τ × Request)) (run : CampaignRun τ), Runner.runPlan p cancelReason requests = .ok run →
      run.Recorded l (l.recordAll now run.events)) := by
  have hinit : CampaignState.Reachable p (.initial p cancelReason) := .initial cancelReason
  refine ⟨fun events => ?_, fun requests run hrun => ?_⟩
  · obtain ⟨s, hs, hreaches⟩ := hinit.exists_applyAll events
    exact ⟨s, hs, (hinit.reaches hreaches).recorded_run l now⟩
  · obtain ⟨s, hreaches, -, rfl⟩ := (runPlan_reaches p cancelReason requests).2 run hrun
    exact (hinit.reaches hreaches).recorded_run l now

def sampleLog : AuditLog := .start { sessionId := "0d9f2c61" } (.ofMicroseconds 0)

/-- Both jobs of the sample crash on their second input, one after the other. -/
theorem campaign_audit_trail_samplePlan :
    ∃ run, Runner.runPlan samplePlan none [] = .ok run ∧ run.campaign.count .crashed = 2 ∧
      run.Recorded sampleLog (sampleLog.recordAll sampleLog.opened run.events) := by
  have hcount : (runPlan samplePlan none []).toOption.any (·.campaign.count .crashed = 2) = true := by decide
  cases hrun : runPlan samplePlan none [] with
  | error e =>
    rw [hrun] at hcount
    cases hcount
  | ok run =>
    rw [hrun] at hcount
    exact ⟨run, rfl, of_decide_eq_true hcount,
      (campaign_audit_trail samplePlan none sampleLog sampleLog.opened).2 [] run hrun⟩

/-- Two targets that never answer share a slot, and the campaign is over before the second one's time. -/
def silentPlan : Plan Nat := { samplePlan with
  settings := { timeoutsAsFindings := true, campaignTimeout := some (.whole 3) }
  limits := { job := 2, campaign := some 3, grace := some 0 }
  targets := ["vault", "pool"].map fun name => { sampleTarget name with react := fun _ _ => ⟨none, .ok {}⟩ } }

/-- The first job took too long, which is a finding, and then the time of the campaign was up, which is a
    diagnostic; neither has an entry. -/
theorem campaign_audit_trail_incomplete :
    ∃ run, Runner.runPlan silentPlan none [] = .ok run ∧
      run.campaign.findings.length = 1 ∧
      ((sampleLog.recordAll sampleLog.opened run.events).ofKind .finding).length = 0 ∧
      run.campaign.diagnostics.length = 1 ∧
      ((sampleLog.recordAll sampleLog.opened run.events).ofKind .failure).length = 0 := by
  have hrun : (runPlan silentPlan none []).toOption.any (fun run =>
      run.campaign.findings.length = 1 ∧
      ((sampleLog.recordAll sampleLog.opened run.events).ofKind .finding).length = 0 ∧
      run.campaign.diagnostics.length = 1 ∧
      ((sampleLog.recordAll sampleLog.opened run.events).ofKind .failure).length = 0) = true := by decide
  cases hplan : runPlan silentPlan none [] with
  | error e =>
    rw [hplan] at hrun
    cases hrun
  | ok run =>
    rw [hplan] at hrun
    exact ⟨run, rfl, of_decide_eq_true hrun⟩

end ContractAudit

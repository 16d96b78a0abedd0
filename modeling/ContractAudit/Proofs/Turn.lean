import Mathlib.Data.List.Basic
import ContractAudit.Campaign.Event

/-! # Turns of jobs

Whatever happens to a job, it takes one of ten kinds of turns, or none, and what the campaign records is
read off the turn. -/

namespace ContractAudit
open List

theorem modify_of_getElem? {α : Type} {l : List α} {i : Nat} {a : α} (h : l[i]? = some a) (f : α → α) :
    l.modify i f = l.set i (f a) := by
  rw [modify_eq_set_getElem?, h]
  rfl

theorem getElem?_set_of_some {α : Type} {l : List α} {i : Nat} {a : α} (h : l[i]? = some a) (b : α) :
    (l.set i b)[i]? = some b :=
  getElem?_set_self (List.getElem?_eq_some_iff.mp h).1

theorem modify_set {α : Type} (l : List α) (i : Nat) (b : α) (f : α → α) : (l.set i b).modify i f = l.set i (f b) := by
  induction l generalizing i with
  | nil => cases i <;> rfl
  | cons a l ih => cases i <;> simp [ih]

theorem perm_set {α : Type} {l : List α} {i : Nat} {a : α} (h : l[i]? = some a) (b : α) :
    (a :: l.set i b).Perm (b :: l) := by
  induction l generalizing i with
  | nil => simp at h
  | cons c l ih =>
    cases i with
    | zero =>
      cases h
      exact .swap b a l
    | succ i => exact (Perm.swap c a _).trans (((ih h).cons c).trans (.swap b c l))

theorem countP_set_add {α : Type} {l : List α} {i : Nat} {a : α} (h : l[i]? = some a) (b : α) (q : α → Bool) :
    (l.set i b).countP q + (if q a then 1 else 0) = l.countP q + (if q b then 1 else 0) := by
  simpa [countP_cons] using (perm_set h b).countP_eq q

inductive Turn where
  | start
  /-- It takes a slot and gives it back, for the campaign is to stop. -/
  | refuse
  | proceed
  | execute (input : List UInt8) (generator : Twister)
  | pass (result : ExecutionResult)
  | crash (input : List UInt8) (result : ExecutionResult)
  | timeOut
  | fail (kind source message : String)
  | complete
  | cancel

inductive Signal where
  | enter
  | prepared
  | choose
  | executed
  | expire
  | abort

def Signal.event {τ : Type} (i : Nat) : Signal → CampaignEvent τ
  | enter => .enter i
  | prepared => .prepared i
  | choose => .choose i
  | executed => .executed i
  | expire => .expire i
  | abort => .abort i

namespace Turn

variable {τ : Type}

@[simp] def state? : Turn → Option JobState
  | start => some .running
  | refuse | cancel => some .cancelled
  | crash _ _ => some .crashed
  | timeOut => some .timedOut
  | fail _ _ _ => some .failed
  | complete => some .completed
  | proceed | execute _ _ | pass _ => none

@[simp] def slots (i : Nat) (s : Slots) : Turn → Slots
  | start => s.take i
  | refuse => (s.take i).release i
  | crash _ _ | timeOut | fail _ _ _ | complete | cancel => s.release i
  | proceed | execute _ _ | pass _ => s

@[simp] def result? : Turn → Option ExecutionResult
  | pass result | crash _ result => some result
  | _ => none

@[simp] def findings (p : Plan τ) (r : JobRun τ) : Turn → List Finding
  | crash input result => [r.crashFinding p.settings input result]
  | timeOut => if p.settings.timeoutsAsFindings then [r.timeoutFinding p.settings p.perJobTimeout] else []
  | _ => []

@[simp] def diagnostics (r : JobRun τ) : Turn → List Diagnostic
  | fail kind source message => [⟨kind, source, r.job.id, message⟩]
  | _ => []

/-- What the history tells of the turn, a change of state apart. -/
@[simp] def noted (i : Nat) : Turn → List (Occurrence τ)
  | execute input _ => [.executes i input]
  | _ => []

/-- What the audit log is told of the turn, a change of state apart. -/
@[simp] def reported (p : Plan τ) (r : JobRun τ) : Turn → List AuditEvent
  | crash input result => [.ofFinding (r.crashFinding p.settings input result)]
  | fail kind source message => [.ofDiagnostic ⟨kind, source, r.job.id, message⟩]
  | _ => []

@[simp] def calls (r : JobRun τ) (calls : List Nat) : Turn → List Nat
  | execute _ _ => calls.modify r.place (· + 1)
  | _ => calls

def counted (s : CampaignStats) (t : Turn) : CampaignStats :=
  let s := t.result?.elim s s.countResult
  t.state?.elim s s.countState

def stopReason? (p : Plan τ) (r : JobRun τ) (t : Turn) : Option String :=
  t.state?.bind fun new => (p.watches.find? (·.matches r.job.id new)).map (·.reason)

end Turn

namespace JobRun

variable {τ : Type} [Clock τ]

def ended (now : τ) (r : JobRun τ) (new : JobState) : JobRun τ :=
  { r with job := { r.job with state := new, finishedAt := some now }, activity := .over }

def after (p : Plan τ) (now : τ) (call : Nat) (r : JobRun τ) : Turn → JobRun τ
  | .start => { r with
      job := { r.job with state := .running, startedAt := some now }
      activity := .preparing (r.target.prepare.duration.map (Clock.later now)) r.target.prepare.outcome }
  | .proceed => { r with activity := .ready }
  | .execute input generator =>
    let reaction := (r.target.react call input).within p.limits.execution
    { r with generator, activity := .executing input (reaction.duration.map (Clock.later now)) reaction.outcome }
  | .pass _ => { r with job := { r.job with executions := r.job.executions + 1 }, activity := .ready }
  | .crash input result => { r with job := { r.job with
      executions := r.job.executions + 1
      finding := some (r.crashFinding p.settings input result) } }.ended now .crashed
  | .timeOut => { r with job := { r.job with
      finding := if p.settings.timeoutsAsFindings then some (r.timeoutFinding p.settings p.perJobTimeout)
        else r.job.finding } }.ended now .timedOut
  | .fail _ _ message => { r with job := { r.job with error := some message } }.ended now .failed
  | .complete => r.ended now .completed
  | .refuse | .cancel => r.ended now .cancelled

theorem after_state (p : Plan τ) (now : τ) (call : Nat) (r : JobRun τ) (t : Turn) :
    (r.after p now call t).job.state = t.state?.getD r.job.state := by
  cases t <;> rfl

def Consistent (r : JobRun τ) : Prop :=
  match r.activity with
  | .waiting => r.job.state = .pending
  | .over => r.job.state.isTerminal = true
  | .preparing _ _ | .ready | .executing _ _ _ => r.job.state = .running

def obstacleTurn (r : JobRun τ) : Obstacle → Turn
  | .timeout _ => .timeOut
  | .unreachable _ reason => .fail Diagnostic.targetUnreachable r.target.name reason
  | .fault f => .fail Diagnostic.jobFailed r.target.name f.described

def choiceTurn (p : Plan τ) (stopping : Bool) (r : JobRun τ) : Turn :=
  if stopping then .cancel
  else if p.settings.maxExecutionsPerJob.any (·.isReachedBy r.job.executions) then .complete
  else match r.strategy.next p.corpus r.job.executions r.generator with
    | .error f => .fail Diagnostic.jobFailed r.strategy.name f.described
    | .ok (none, _) => .complete
    | .ok (some input, generator) => .execute input generator

def outcomeTurn (r : JobRun τ) (input : List UInt8) : Except Obstacle ExecutionResult → Turn
  | .error o => r.obstacleTurn o
  | .ok result => if result.failed then .crash input result else .pass result

def turn? (p : Plan τ) (stopping full : Bool) (r : JobRun τ) (sig : Signal) : Option Turn :=
  match sig, r.activity with
  | .enter, .waiting => if full then none else some (if stopping then .refuse else .start)
  | .prepared, .preparing _ (.ok ()) => some .proceed
  | .prepared, .preparing _ (.error o) => some (r.obstacleTurn o)
  | .choose, .ready => some (r.choiceTurn p stopping)
  | .executed, .executing input _ outcome => some (r.outcomeTurn input outcome)
  | .expire, .preparing _ _ | .expire, .ready | .expire, .executing _ _ _ => some .timeOut
  | .abort, .waiting | .abort, .preparing _ _ | .abort, .ready | .abort, .executing _ _ _ => some .cancel
  | _, _ => none

end JobRun

namespace CampaignState

variable {τ : Type} {p : Plan τ} {s : CampaignState τ} {i : Nat} {r : JobRun τ}

def stopNote (given : Option String) (reason : Option String) : List (Occurrence τ) :=
  if given.isSome then [] else reason.toList.map .cancels

theorem cancel_eq (s : CampaignState τ) (reason : String) : s.cancel reason = { s with
      cancelReason := s.cancelReason <|> some reason
      history := stopNote s.cancelReason (some reason) ++ s.history } := by
  cases s with
  | mk now jobs slots cancelReason =>
    cases cancelReason <;> rfl

theorem foldl_cancel (ws : List Watch) (s : CampaignState τ) : ws.foldl (fun s w => s.cancel w.reason) s = { s with
      cancelReason := s.cancelReason <|> ws.head?.map (·.reason)
      history := stopNote s.cancelReason (ws.head?.map (·.reason)) ++ s.history } := by
  induction ws generalizing s with
  | nil => simp [stopNote]
  | cons w ws ih =>
    rw [foldl_cons, ih, cancel_eq]
    simp [stopNote]

theorem observe_eq (s : CampaignState τ) (old : JobState) (j : Job τ) : s.observe p i old j = { s with
      stats := s.stats.countState j.state
      cancelReason := s.cancelReason <|> (p.watches.find? (·.matches j.id j.state)).map (·.reason)
      history := stopNote s.cancelReason ((p.watches.find? (·.matches j.id j.state)).map (·.reason)) ++
        .moved i old j.state s.now :: s.history
      reported := jobEvent j :: s.reported } := by
  rw [observe, foldl_cancel, head?_filter]

theorem move_eq {new : JobState} {job : Job τ} (hr : s.jobs[i]? = some r) (hjob : r.job.move s.now new = .ok job) :
    s.move p i new =
      .ok (({ s with jobs := s.jobs.set i { r with job } } : CampaignState τ).observe p i r.job.state job) := by
  unfold move
  split
  next hnone =>
    rw [hr] at hnone
    cases hnone
  next r' hsome =>
    rw [hr] at hsome
    cases hsome
    rw [hjob]
    rfl

theorem finish_eq {new : JobState} (hr : s.jobs[i]? = some r) (hnew : r.job.state.leadsTo new = true)
    (hterminal : new.isTerminal = true) :
    s.finish p i new = .ok { ({ s with jobs := s.jobs.set i (r.ended s.now new) } : CampaignState τ).observe p i
      r.job.state (r.ended s.now new).job with slots := s.slots.release i } := by
  have hne : new ≠ .running := by
    rintro rfl
    cases hterminal
  have hjob : r.job.move s.now new = .ok { r.job with state := new, finishedAt := some s.now } := by
    rw [Job.move, if_pos hnew, if_neg hne, if_pos hterminal]
  rw [finish, move_eq hr hjob]
  simp only [observe_eq, setActivity, modifyJob, bind, Except.bind, pure, Except.pure, JobRun.ended, modify_set]

def told (p : Plan τ) (s : CampaignState τ) (i : Nat) (r : JobRun τ) (t : Turn) : List (Occurrence τ) :=
  stopNote s.cancelReason (t.stopReason? p r) ++
    (t.state?.toList.map fun new => .moved i r.job.state new s.now) ++ t.noted i

variable [Clock τ]

def commit (p : Plan τ) (s : CampaignState τ) (i : Nat) (r : JobRun τ) (t : Turn) : CampaignState τ :=
  let run := r.after p s.now (s.calls.getD r.place 0) t
  { s with
    jobs := s.jobs.set i run
    slots := t.slots i s.slots
    cancelReason := s.cancelReason <|> t.stopReason? p r
    calls := t.calls r s.calls
    findings := s.findings ++ t.findings p r
    diagnostics := s.diagnostics ++ t.diagnostics r
    stats := t.counted s.stats
    history := s.told p i r t ++ s.history
    reported := (t.state?.toList.map fun _ => jobEvent run.job) ++ t.reported p r ++ s.reported }

def tell (p : Plan τ) (s : CampaignState τ) (i : Nat) (sig : Signal) : CampaignState τ :=
  match s.jobs[i]? with
  | none => s
  | some r => match r.turn? p s.isCancelled s.slots.isFull sig with
    | none => s
    | some t => s.commit p i r t

def next (p : Plan τ) (s : CampaignState τ) : CampaignEvent τ → CampaignState τ
  | .enter i => s.tell p i .enter
  | .prepared i => s.tell p i .prepared
  | .choose i => s.tell p i .choose
  | .executed i => s.tell p i .executed
  | .expire i => s.tell p i .expire
  | .abort i => s.tell p i .abort
  | .cancel reason => s.cancel reason
  | .deadline => (s.recordDeadline p).cancel "campaign deadline reached"
  | .tick now => { s with now }

section Commit
attribute [local simp] commit told JobRun.after JobRun.ended Turn.counted Turn.stopReason? observe_eq modify_set

theorem cancel_commit (hr : s.jobs[i]? = some r) (hlive : r.job.state.isTerminal = false) :
    s.finish p i .cancelled = .ok (s.commit p i r .cancel) := by
  have hnew : r.job.state.leadsTo .cancelled = true := by
    cases hstate : r.job.state <;> simp_all [JobState.leadsTo, JobState.isTerminal]
  rw [finish_eq hr hnew rfl]
  simp

theorem enter_commit (hr : s.jobs[i]? = some r) (hpending : r.job.state = .pending) :
    s.enter p i r = .ok (s.commit p i r (if s.isCancelled then .refuse else .start)) := by
  by_cases hc : s.isCancelled = true
  · have hc' : ({ s with slots := s.slots.take i } : CampaignState τ).isCancelled = true := hc
    simp only [enter, if_pos hc', if_pos hc]
    rw [finish_eq (s := { s with slots := s.slots.take i }) hr (by rw [hpending]; rfl) rfl]
    simp
  · have hc' : ¬({ s with slots := s.slots.take i } : CampaignState τ).isCancelled = true := hc
    have hjob : r.job.move s.now .running = .ok { r.job with state := .running, startedAt := some s.now } := by
      rw [Job.move, hpending]
      rfl
    simp only [enter, if_neg hc', if_neg hc]
    rw [move_eq (s := { s with slots := s.slots.take i }) hr hjob]
    simp [setActivity, modifyJob, endOf, bind, Except.bind, pure, Except.pure]

section running
variable (hr : s.jobs[i]? = some r) (hrun : r.job.state = .running)
include hr hrun

theorem complete_commit : s.finish p i .completed = .ok (s.commit p i r .complete) := by
  rw [finish_eq hr (by rw [hrun]; rfl) rfl]
  simp

theorem timeOut_commit : s.timeOut p i = .ok (s.commit p i r .timeOut) := by
  rw [timeOut, recordTimeout, hr]
  by_cases ht : p.settings.timeoutsAsFindings = true
  · simp only [if_pos ht, addFinding, modifyJob, modify_of_getElem? hr]
    rw [finish_eq (getElem?_set_of_some hr _) (by rw [hrun]; rfl) rfl]
    simp [ht]
  · simp only [if_neg ht]
    rw [finish_eq hr (by rw [hrun]; rfl) rfl]
    simp [ht]

theorem fail_commit (kind source message : String) :
    s.fail p i kind source message = .ok (s.commit p i r (.fail kind source message)) := by
  rw [fail, recordFailure, hr]
  simp only [modifyJob, modify_of_getElem? hr]
  rw [finish_eq (getElem?_set_of_some hr _) (by rw [hrun]; rfl) rfl]
  simp

theorem obstruct_commit (o : Obstacle) : s.obstruct p i r o = .ok (s.commit p i r (r.obstacleTurn o)) := by
  cases o with
  | timeout _ => exact timeOut_commit hr hrun
  | unreachable _ _ | fault _ => exact fail_commit hr hrun _ _ _

theorem choose_commit : s.choose p i r = .ok (s.commit p i r (r.choiceTurn p s.isCancelled)) := by
  unfold choose JobRun.choiceTurn
  split
  · exact cancel_commit hr (by rw [hrun]; rfl)
  · split
    · exact complete_commit hr hrun
    · cases hnext : r.strategy.next p.corpus r.job.executions r.generator with
      | error f => exact fail_commit hr hrun _ _ _
      | ok drawn =>
        obtain ⟨_ | input, generator⟩ := drawn
        · exact complete_commit hr hrun
        · simp [execute, setActivity, modifyJob, modify_of_getElem? hr, endOf, stopNote]

theorem executed_commit (input : List UInt8) (outcome : Except Obstacle ExecutionResult) :
    s.executed p i r input outcome = .ok (s.commit p i r (r.outcomeTurn input outcome)) := by
  cases outcome with
  | error o => exact obstruct_commit hr hrun o
  | ok result =>
    simp only [executed, recordResult, hr, JobRun.outcomeTurn, modifyJob, modify_of_getElem? hr]
    by_cases hf : result.failed = true
    · simp only [if_pos hf, addFinding, modifyJob, modify_set]
      rw [finish_eq (getElem?_set_of_some hr _) (by rw [hrun]; rfl) rfl]
      simp
    · simp [if_neg hf, setActivity, modifyJob, stopNote]

end running

def Consistent (s : CampaignState τ) : Prop := ∀ r ∈ s.jobs, r.Consistent

theorem apply_event (hs : s.Consistent) (i : Nat) (sig : Signal) : s.apply p (sig.event i) = .ok (s.tell p i sig) := by
  cases hr : s.jobs[i]? with
  | none => cases sig <;> simp only [Signal.event, apply, tell, hr]
  | some r =>
    have hc := hs r (mem_of_getElem? hr)
    cases sig <;> cases ha : r.activity <;> simp only [JobRun.Consistent, ha] at hc <;>
      simp only [Signal.event, apply, tell, hr, JobRun.turn?, ha]
    case enter.waiting =>
      split
      · rfl
      · exact enter_commit hr hc
    case prepared.preparing ends outcome =>
      cases outcome with
      | error o => exact obstruct_commit hr hc o
      | ok _ => simp [setActivity, modifyJob, modify_of_getElem? hr, stopNote]
    case choose.ready => exact choose_commit hr hc
    case executed.executing => exact executed_commit hr hc _ _
    case expire.preparing | expire.ready | expire.executing => exact timeOut_commit hr hc
    case abort.waiting | abort.preparing | abort.ready | abort.executing => exact cancel_commit hr (by rw [hc]; rfl)

end Commit

theorem apply_eq_next (hs : s.Consistent) (e : CampaignEvent τ) : s.apply p e = .ok (s.next p e) := by
  cases e with
  | enter i => exact apply_event hs i .enter
  | prepared i => exact apply_event hs i .prepared
  | choose i => exact apply_event hs i .choose
  | executed i => exact apply_event hs i .executed
  | expire i => exact apply_event hs i .expire
  | abort i => exact apply_event hs i .abort
  | cancel _ | deadline | tick _ => rfl

end CampaignState

end ContractAudit

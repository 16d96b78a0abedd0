import ContractAudit.Proofs.Admission
import ContractAudit.Proofs.Checked
import ContractAudit.Proofs.JobHistory

/-! # Why a campaign was stopped

A campaign gives the reason of the first request to stop since the campaign before it returned. -/

namespace ContractAudit
open List

variable {τ : Type} {p : Plan τ}

/-! ### What watches ask for -/

/-- The reasons for which watches ask the campaign to stop as jobs change their states, in order; the
    history is given the newest first. -/
def watchReasons (p : Plan τ) : List (Occurrence τ) → List String
  | [] => []
  | .moved i _ new _ :: h =>
    watchReasons p h ++ (p.watches.filter (·.matches (Plan.jobId (i + 1)) new)).map (·.reason)
  | .executes _ _ :: h | .cancels _ :: h => watchReasons p h

theorem watchReasons_append (l h : List (Occurrence τ)) :
    watchReasons p (l ++ h) = watchReasons p h ++ watchReasons p l := by
  induction l with
  | nil => simp [watchReasons]
  | cons o l ih => cases o <;> simp [watchReasons, ih]

theorem watchReasons_stopNote (given reason : Option String) :
    watchReasons p (CampaignState.stopNote given reason) = [] := by
  unfold CampaignState.stopNote
  split
  · rfl
  · cases reason <;> rfl

/-- Something that happens when a campaign is ended: it is asked to stop, or a job is cancelled. -/
def Occurrence.Ends : Occurrence τ → Prop
  | .moved _ _ new _ => new = .cancelled
  | .cancels _ => True
  | .executes _ _ => False

theorem watchReasons_of_ends {l : List (Occurrence τ)} (hwatches : ∀ w ∈ p.watches, w.state ≠ .cancelled)
    (h : ∀ o ∈ l, o.Ends) : watchReasons p l = [] := by
  induction l with
  | nil => rfl
  | cons o l ih =>
    have hrest := ih fun o ho => h o (mem_cons_of_mem _ ho)
    cases o with
    | moved i old new moment =>
      obtain rfl : new = .cancelled := h _ mem_cons_self
      have hnone : p.watches.filter (·.matches (Plan.jobId (i + 1)) .cancelled) = [] := by
        rw [filter_eq_nil_iff]
        intro w hw
        simp [Watch.matches, hwatches w hw]
      simp [watchReasons, hrest, hnone]
    | executes _ _ => exact (h _ mem_cons_self).elim
    | cancels _ => exact hrest

def CampaignEvent.reason? : CampaignEvent τ → Option String
  | .cancel reason => some reason
  | .deadline => some "campaign deadline reached"
  | _ => none

/-! ### What one event asks for -/

namespace CampaignState

variable {s t u : CampaignState τ} {met : Option String}

def since (s t : CampaignState τ) : List (Occurrence τ) := t.history.take (t.history.length - s.history.length)

theorem since_eq {l : List (Occurrence τ)} (h : t.history = l ++ s.history) : s.since t = l := by
  rw [since, h, length_append, Nat.add_sub_cancel, take_left]

/-- The second state comes of the first by what is told in it. It is to stop for the reason of the first,
    else for what watches asked first, else for the request that was met. -/
def StopsFor (p : Plan τ) (s t : CampaignState τ) (met : Option String) : Prop :=
  ∃ l, t.history = l ++ s.history ∧ t.cancelReason = s.cancelReason.or (watchReasons p l ++ met.toList).head?

theorem StopsFor.of_eq (hhistory : t.history = s.history) (hreason : t.cancelReason = s.cancelReason) :
    StopsFor p s t none := ⟨[], hhistory, by simp [hreason, watchReasons]⟩

theorem StopsFor.trans (h : StopsFor p s t none) (h' : StopsFor p t u met) : StopsFor p s u met := by
  obtain ⟨l, hl, hreason⟩ := h
  obtain ⟨l', hl', hreason'⟩ := h'
  refine ⟨l' ++ l, by rw [hl', hl, append_assoc], ?_⟩
  rw [hreason', hreason, watchReasons_append]
  simp [Option.or_assoc]

theorem StopsFor.cancelReason (h : StopsFor p s t met) :
    t.cancelReason = s.cancelReason.or (watchReasons p (s.since t) ++ met.toList).head? := by
  obtain ⟨l, hl, hreason⟩ := h
  rw [since_eq hl, hreason]

theorem stopsFor_cancel (s : CampaignState τ) (reason : String) : StopsFor p s (s.cancel reason) (some reason) := by
  rw [cancel_eq]
  exact ⟨_, rfl, by simp [watchReasons_stopNote]⟩

variable [Clock τ]

theorem Reachable.watchReasons_told {i : Nat} {r : JobRun τ} (h : Reachable p s) (hr : s.jobs[i]? = some r)
    (turn : Turn) :
    (watchReasons p (s.told p i r turn)).head? = turn.stopReason? p r := by
  rw [told, append_assoc, watchReasons_append, watchReasons_stopNote, Turn.stopReason?, h.id_eq hr]
  cases turn <;> simp [watchReasons]

theorem Reachable.stopsFor_tell (h : Reachable p s) (i : Nat) (sig : Signal) : StopsFor p s (s.tell p i sig) none := by
  unfold tell
  split
  · exact .of_eq rfl rfl
  next r hr =>
    split
    · exact .of_eq rfl rfl
    next turn _ =>
      refine ⟨_, rfl, ?_⟩
      show (s.cancelReason <|> turn.stopReason? p r) = _
      rw [Option.toList_none, append_nil, h.watchReasons_told hr]
      exact Option.orElse_eq_or

/-- An event asks for what it says, or for what watches see of it. -/
theorem Reachable.stopsFor_next (h : Reachable p s) (e : CampaignEvent τ) : StopsFor p s (s.next p e) e.reason? := by
  cases e with
  | cancel reason => exact stopsFor_cancel s reason
  | deadline =>
    obtain ⟨hreason, hhistory⟩ := recordDeadline_stop p s
    exact (StopsFor.of_eq hhistory hreason).trans (stopsFor_cancel _ _)
  | tick now => exact .of_eq rfl rfl
  | _ => exact h.stopsFor_tell _ _

theorem Reachable.stopsFor_foldl {events : List (CampaignEvent τ)} (h : Reachable p s)
    (hevents : ∀ e ∈ events, e.reason? = none) : StopsFor p s (events.foldl (CampaignState.next p) s) none := by
  induction events generalizing s with
  | nil => exact .of_eq rfl rfl
  | cons e events ih =>
    have hnext := h.stopsFor_next e
    rw [hevents e mem_cons_self] at hnext
    exact hnext.trans (ih (h.next e) fun e he => hevents e (mem_cons_of_mem _ he))

/-- All that events and watches ask for while events happen one after the other. -/
def asked (p : Plan τ) : CampaignState τ → List (CampaignEvent τ) → List String
  | _, [] => []
  | s, e :: events => match s.apply p e with
    | .error _ => []
    | .ok t => watchReasons p (s.since t) ++ e.reason?.toList ++ asked p t events

theorem Reachable.cancelReason_applyAll (h : Reachable p s) (events : List (CampaignEvent τ)) :
    ∃ t, s.applyAll p events = .ok t ∧ t.cancelReason = s.cancelReason.or (asked p s events).head? := by
  refine ⟨_, h.applyAll events, ?_⟩
  induction events generalizing s with
  | nil => simp [asked]
  | cons e events ih =>
    rw [foldl_cons, ih (h.next e), (h.stopsFor_next e).cancelReason, asked, h.apply e]
    simp [Option.or_assoc]

/-! ### Ending all jobs -/

/-- All that happened since the first state was part of ending the campaign. -/
def Ends (s t : CampaignState τ) : Prop := ∃ l, t.history = l ++ s.history ∧ ∀ o ∈ l, Occurrence.Ends o

omit [Clock τ] in
theorem Ends.refl (s : CampaignState τ) : Ends s s := ⟨[], rfl, nofun⟩

omit [Clock τ] in
theorem Ends.trans (h : Ends s t) (h' : Ends t u) : Ends s u := by
  obtain ⟨l, hl, hends⟩ := h
  obtain ⟨l', hl', hends'⟩ := h'
  refine ⟨l' ++ l, by rw [hl', hl, append_assoc], fun o ho => ?_⟩
  exact (mem_append.mp ho).elim (hends' o) (hends o)

omit [Clock τ] in
theorem ends_stopNote {given reason : Option String} {o : Occurrence τ} (ho : o ∈ stopNote given reason) : o.Ends := by
  unfold stopNote at ho
  split at ho
  · cases ho
  · obtain ⟨_, -, rfl⟩ := mem_map.mp ho
    trivial

variable (s)

omit [Clock τ] in
theorem ends_cancel (reason : String) : Ends s (s.cancel reason) := by
  rw [cancel_eq]
  exact ⟨_, rfl, fun o => ends_stopNote⟩

theorem ends_tell_abort (i : Nat) : Ends s (s.tell p i .abort) := by
  unfold tell
  split
  · exact .refl s
  next r _ =>
    split
    · exact .refl s
    next turn hturn =>
      obtain rfl : turn = .cancel := by
        unfold JobRun.turn? at hturn
        cases ha : r.activity <;> simp [ha] at hturn <;> exact hturn.symm
      refine ⟨_, rfl, fun o ho => ?_⟩
      rw [told, append_assoc, mem_append] at ho
      rcases ho with ho | ho
      · exact ends_stopNote ho
      · obtain rfl : o = .moved i r.job.state .cancelled s.now := by simpa using ho
        rfl

theorem ends_abort (is : List Nat) : Ends s ((is.map .abort).foldl (next p) s) := by
  induction is generalizing s with
  | nil => exact .refl s
  | cons i is ih => exact (ends_tell_abort s i).trans (ih (s.tell p i .abort))

end CampaignState

/-! ### The course of a campaign -/

def Due.reason? : Due τ → Option String
  | .request (.cancel reason) _ => some reason
  | .request .interrupt _ => some interruptedReason
  | .deadline => some "campaign deadline reached"
  | .expire _ | .proceed _ | .drained => none

/-- What a step of a campaign asks for. -/
structure StepRequests where
  /-- The request from outside, or by the clock, that the step meets. -/
  met : Option String
  /-- What watches ask for during the step. -/
  watched : List String

namespace StepRequests

/-- What the steps of a campaign ask for, in the order in which it is asked. -/
def issued (steps : List StepRequests) : List String := steps.flatMap fun s => s.met.toList ++ s.watched

/-- What the steps of a campaign ask for, in the order in which the campaign takes it up. -/
def heard (steps : List StepRequests) : List String := steps.flatMap fun s => s.watched ++ s.met.toList

theorem heard_eq_issued {steps : List StepRequests} (h : ∀ s ∈ steps, s.met = none ∨ s.watched = []) :
    heard steps = issued steps := by
  refine flatMap_congr fun s hs => ?_
  rcases h s hs with hmet | hwatched
  · simp [hmet]
  · simp [hwatched]

end StepRequests

namespace Timeline

open CampaignState

variable [Clock τ] {t u : Timeline τ}

/-- What the next step meets, if it lets time pass. -/
def due? (p : Plan τ) (t : Timeline τ) : Option (Due τ) :=
  match t.agenda, t.phase with
  | _ :: _, _ => none
  | [], .watching => if t.state.isCancelled then none else (earliest (t.dues p)).map (·.2)
  | [], .draining _ => (earliest (t.dues p)).map (·.2)

/-- What each step of the course asks for, up to a number of steps. -/
def stepRequests (p : Plan τ) : (fuel : Nat) → Timeline τ → List StepRequests
  | 0, _ => []
  | fuel + 1, t =>
    if t.state.isOver then []
    else match t.step p with
      | .error _ => []
      | .ok u => ⟨(t.due? p).bind Due.reason?, watchReasons p (t.state.since u.state)⟩ :: stepRequests p fuel u

theorem stopsFor_after (h : Reachable p t.state) {e : CampaignEvent τ} {agenda : List Nat}
    (hu : t.after p e agenda = .ok u) : StopsFor p t.state u.state e.reason? := by
  rw [after, h.apply e] at hu
  cases hu
  exact h.stopsFor_next e

theorem proceed_cases (p : Plan τ) (t : Timeline τ) (i : Nat) (rest : List Nat) :
    t.proceed p i rest = .ok { t with agenda := rest } ∨
      ∃ e agenda, t.proceed p i rest = t.after p e agenda ∧ e.reason? = none := by
  unfold proceed
  split
  · exact .inl rfl
  next r _ =>
    cases r.activity with
    | waiting =>
      dsimp only
      split
      · exact .inl rfl
      · exact .inr ⟨.enter i, _, rfl, rfl⟩
    | preparing ends _ =>
      dsimp only
      split
      · exact .inr ⟨.prepared i, _, rfl, rfl⟩
      · exact .inl rfl
    | ready => exact .inr ⟨.choose i, _, rfl, rfl⟩
    | executing _ ends _ =>
      dsimp only
      split
      · exact .inr ⟨.executed i, _, rfl, rfl⟩
      · exact .inl rfl
    | _ => exact .inl rfl

theorem stopsFor_proceed (h : Reachable p t.state) {i : Nat} {rest : List Nat} (hu : t.proceed p i rest = .ok u) :
    StopsFor p t.state u.state none := by
  rcases proceed_cases p t i rest with hsame | ⟨e, agenda, hafter, hreason⟩
  · rw [hsame] at hu
    cases hu
    exact .of_eq rfl rfl
  · rw [hafter] at hu
    exact hreason ▸ stopsFor_after h hu

omit [Clock τ] in
theorem reason?_of_mem_abortAll {s : CampaignState τ} {e : CampaignEvent τ} (he : e ∈ abortAll s) :
    e.reason? = none := by
  obtain ⟨i, -, rfl⟩ := mem_map.mp he
  rfl

section
variable (h : Reachable p t.state)
include h

theorem stopsFor_meet {d : Due τ} (hu : t.meet p d = .ok u) : StopsFor p t.state u.state d.reason? := by
  cases d with
  | request r rest =>
    cases r with
    | cancel reason => exact stopsFor_after (t := { t with requests := rest }) h hu
    | interrupt =>
      rw [meet, h.applyAll, foldl_append] at hu
      cases hu
      exact (h.stopsFor_foldl fun _ => reason?_of_mem_abortAll).trans (stopsFor_cancel _ _)
  | expire i => exact stopsFor_after h hu
  | proceed i =>
    cases hu
    exact .of_eq rfl rfl
  | deadline => exact stopsFor_after h hu
  | drained =>
    rw [meet, h.applyAll] at hu
    cases hu
    exact h.stopsFor_foldl fun _ => reason?_of_mem_abortAll

theorem stopsFor_pass (hu : t.pass p = .ok u) :
    StopsFor p t.state u.state ((earliest (t.dues p)).bind (·.2.reason?)) := by
  unfold pass at hu
  split at hu
  next hnone =>
    cases hu
    rw [hnone]
    exact .of_eq rfl rfl
  next m due hsome =>
    rw [h.apply] at hu
    rw [hsome]
    have htick := h.next (.tick (notBefore t.state.now m))
    exact (h.stopsFor_next (.tick (notBefore t.state.now m))).trans
      (stopsFor_meet (t := { t with state := _ }) htick hu)

theorem stopsFor_step (hu : t.step p = .ok u) : StopsFor p t.state u.state ((t.due? p).bind Due.reason?) := by
  unfold step at hu
  unfold due?
  split at hu
  next hagenda =>
    rw [hagenda]
    exact stopsFor_proceed h hu
  next hagenda =>
    rw [hagenda]
    split at hu
    next hphase =>
      rw [hphase]
      split at hu
      next hcancelled =>
        cases hu
        simp only [hcancelled, if_true]
        exact .of_eq rfl rfl
      next hcancelled =>
        simp only [hcancelled, Bool.false_eq_true, if_false, Option.bind_map]
        exact stopsFor_pass h hu
    next hphase =>
      rw [hphase]
      simp only [Option.bind_map]
      exact stopsFor_pass h hu

theorem cancelReason_run {fuel : Nat} {s : CampaignState τ} (hrun : t.run p fuel = .ok (some s)) :
    s.cancelReason = t.state.cancelReason.or (StepRequests.heard (t.stepRequests p fuel)).head? := by
  induction fuel generalizing t with
  | zero =>
    rw [run] at hrun
    split at hrun <;> cases hrun
    simp [stepRequests, StepRequests.heard]
  | succ fuel ih =>
    rw [run] at hrun
    rw [stepRequests]
    split at hrun
    next hover =>
      cases hrun
      rw [if_pos hover]
      simp [StepRequests.heard]
    next hover =>
      obtain ⟨u, hu, hreaches⟩ := step_reaches h
      rw [hu] at hrun
      rw [if_neg hover, hu, ih (h.reaches hreaches) hrun, (stopsFor_step h hu).cancelReason]
      simp [StepRequests.heard, Option.or_assoc]

end

theorem step_of_due {d : Due τ} (hdue : t.due? p = some d) :
    ∃ now, t.step p = ({ t with state := { t.state with now } } : Timeline τ).meet p d := by
  obtain ⟨hstep, hearliest⟩ : t.step p = t.pass p ∧ (earliest (t.dues p)).map (·.2) = some d := by
    unfold due? at hdue
    split at hdue
    · cases hdue
    next hagenda hphase =>
      split at hdue
      · cases hdue
      next hcancelled => exact ⟨by simp [step, hagenda, hphase, hcancelled], hdue⟩
    next hagenda hphase => exact ⟨by simp [step, hagenda, hphase], hdue⟩
  obtain ⟨⟨m, _⟩, hm, rfl⟩ := Option.map_eq_some_iff.mp hearliest
  refine ⟨notBefore t.state.now m, ?_⟩
  rw [hstep, pass, hm]
  rfl

theorem ends_meet {d : Due τ} (h : Reachable p t.state) (hu : t.meet p d = .ok u) (hd : d.reason? ≠ none) :
    Ends t.state u.state := by
  cases d with
  | request r rest =>
    cases r with
    | cancel reason =>
      rw [meet, after] at hu
      cases hu
      exact ends_cancel _ _
    | interrupt =>
      rw [meet, h.applyAll, foldl_append] at hu
      cases hu
      exact (ends_abort t.state (List.range t.state.jobs.length)).trans (ends_cancel _ interruptedReason)
  | deadline =>
    rw [meet, after] at hu
    cases hu
    obtain ⟨l, hl, hends⟩ := ends_cancel (t.state.recordDeadline p) "campaign deadline reached"
    exact ⟨l, by rw [← (recordDeadline_stop p t.state).2, ← hl], hends⟩
  | expire _ | proceed _ | drained => exact absurd rfl hd

/-- Unless a watch waits for jobs to be cancelled, no step meets a request while watches ask for something. -/
theorem quiet_stepRequests (hwatches : ∀ w ∈ p.watches, w.state ≠ .cancelled) (h : Reachable p t.state) (fuel : Nat) :
    ∀ s ∈ t.stepRequests p fuel, s.met = none ∨ s.watched = [] := by
  induction fuel generalizing t with
  | zero => exact nofun
  | succ fuel ih =>
    rw [stepRequests]
    split
    · exact nofun
    · obtain ⟨u, hu, hreaches⟩ := step_reaches h
      rw [hu]
      intro s hs
      rcases mem_cons.mp hs with rfl | hs
      · cases hdue : t.due? p with
        | none => exact .inl rfl
        | some d =>
          by_cases hd : d.reason? = none
          · exact .inl hd
          · obtain ⟨now, hstep⟩ := step_of_due hdue
            obtain ⟨l, hl, hends⟩ := ends_meet (t := { t with state := { t.state with now } }) (h.next (.tick now))
              (hstep.symm.trans hu) hd
            exact .inr ((congrArg (watchReasons p) (since_eq hl)).trans (watchReasons_of_ends hwatches hends))
      · exact ih (h.reaches hreaches) s hs

end Timeline

/-! ### Campaigns one after the other -/

/-- A runner that was asked to stop and to run campaigns, in whatever order; the reasons are those of the
    requests to stop since the last campaign returned. -/
inductive Runner.Session [Clock τ] (c : CampaignSettings) (span : Seconds → τ) : List String → Runner → Prop where
  | start : Session c span [] {}
  | cancel {asks : List String} {r : Runner} (h : Session c span asks r) (reason : String) :
    Session c span (asks ++ [reason]) (r.cancel reason)
  /-- A campaign was refused, so it did not return. -/
  | refused {asks : List String} {r : Runner} (h : Session c span asks r) (q : CampaignRequest τ) {e : RunError}
    (hplan : Runner.plan c span q = .error e) : Session c span asks (r.run c span q).2
  | returned {asks : List String} {r : Runner} (h : Session c span asks r) (q : CampaignRequest τ) {run : CampaignRun τ}
    (hrun : (r.run c span q).1 = .ok run) : Session c span [] (r.run c span q).2

namespace Runner

variable {c : CampaignSettings} {span : Seconds → τ} {asks : List String} {r : Runner} {q : CampaignRequest τ}
  {run : CampaignRun τ}

theorem watches_of_plan (h : plan c span q = .ok p) : p.watches = q.watches := by
  obtain ⟨count, -, h⟩ := bind_eq_ok.mp h
  split at h
  · cases h
  · obtain ⟨timeout, -, h⟩ := bind_eq_ok.mp h
    split at h <;> cases h
    rfl

variable [Clock τ]

theorem plan_of_run (h : (r.run c span q).1 = .ok run) :
    ∃ p, plan c span q = .ok p ∧ runPlan p r.pending q.requests = .ok run ∧ (r.run c span q).2 = {} := by
  unfold Runner.run at h ⊢
  split at h
  · cases h
  next p hplan => exact ⟨p, hplan, h, rfl⟩

/-- The request that the next campaign begins with is the first one since the last campaign. -/
theorem Session.pending (h : Session c span asks r) : r.pending = asks.head? := by
  induction h with
  | start => rfl
  | cancel _ reason ih => simp [Runner.cancel, ih]
  | refused _ q hplan ih =>
    rw [Runner.run, hplan]
    exact ih
  | returned _ q hrun _ =>
    obtain ⟨_, -, -, hnext⟩ := plan_of_run hrun
    rw [hnext]
    rfl

def courseRequests (p : Plan τ) (pending : Option String) (requests : List (τ × Request)) : List StepRequests :=
  (Timeline.initial p pending requests).stepRequests p patience

theorem cancelReason_runPlan {pending : Option String} {requests : List (τ × Request)}
    (h : runPlan p pending requests = .ok run) :
    run.campaign.cancelReason = pending.or (StepRequests.heard (courseRequests p pending requests)).head? := by
  unfold runPlan at h
  split at h <;> cases h
  next s hs => exact Timeline.cancelReason_run (.initial pending) hs

end Runner

/-- However a runner was used before: a campaign stops for the first reason that was given since the last
    campaign returned, in whatever order things happen in it; one that was given none runs as with a new
    runner. Where a watch waits for jobs to be cancelled, what it asks for as an interruption ends the jobs
    counts before the interruption. -/
theorem stop_reason_attributed [Clock τ] (c : CampaignSettings) (span : Seconds → τ) (asks : List String) (r : Runner)
    (h : Runner.Session c span asks r) (q : CampaignRequest τ) :
    (asks = [] → r.run c span q = Runner.run {} c span q) ∧
    ∀ p, Runner.plan c span q = .ok p →
      (∀ events : List (CampaignEvent τ), ∃ s, (CampaignState.initial p r.pending).applyAll p events = .ok s ∧
        s.cancelReason = (asks ++ CampaignState.asked p (.initial p r.pending) events).head?) ∧
      ∀ run, (r.run c span q).1 = .ok run →
        run.campaign.cancelReason =
          (asks ++ StepRequests.heard (Runner.courseRequests p r.pending q.requests)).head? ∧
        ((∀ w ∈ q.watches, w.state ≠ .cancelled) → run.campaign.cancelReason =
          (asks ++ StepRequests.issued (Runner.courseRequests p r.pending q.requests)).head?) := by
  have hpending := h.pending
  refine ⟨fun hasks => ?_, fun p hplan => ⟨fun events => ?_, fun run hrun => ?_⟩⟩
  · obtain rfl : r = {} := by
      rw [hasks] at hpending
      exact congrArg Runner.mk hpending
    rfl
  · obtain ⟨s, hs, hreason⟩ := (CampaignState.Reachable.initial (p := p) r.pending).cancelReason_applyAll events
    refine ⟨s, hs, ?_⟩
    rw [hreason, List.head?_append, ← hpending]
    rfl
  · obtain ⟨p', hplan', hrun, -⟩ := Runner.plan_of_run hrun
    obtain rfl : p' = p := Except.ok.inj (hplan'.symm.trans hplan)
    have hreason := Runner.cancelReason_runPlan hrun
    rw [hpending, ← List.head?_append] at hreason
    rw [hpending]
    refine ⟨hreason, fun hwatches => ?_⟩
    have hquiet := Timeline.quiet_stepRequests (t := Timeline.initial p' asks.head? q.requests)
      (Runner.watches_of_plan hplan ▸ hwatches) (.initial asks.head?) Runner.patience
    rw [hreason, Runner.courseRequests, StepRequests.heard_eq_issued hquiet]

def sampleRequest : CampaignRequest Nat where
  campaignId := samplePlan.campaignId
  targets := [sampleTarget "vault"]
  strategies := [.seedReplay]
  corpus := { seeds := [[1]] }
  jobCount := some (.int 1)
  perJobTimeout := some (.int 10)

/-- A campaign returned, and two requests to stop came after it: the next one stops for the first. -/
theorem stop_reason_attributed_sampleRequest :
    ∃ r p run, Runner.Session {} (fun _ => 10) ["enough", "again"] r ∧
      Runner.plan {} (fun _ => 10) sampleRequest = .ok p ∧ (r.run {} (fun _ => 10) sampleRequest).1 = .ok run ∧
      run.campaign.cancelReason = some "enough" ∧ run.campaign.cancelReason = (["enough", "again"] ++
        StepRequests.issued (Runner.courseRequests p r.pending sampleRequest.requests)).head? := by
  have hfirst : (Runner.run {} {} (fun _ => 10) sampleRequest).1.toOption.any
      (·.campaign.cancelReason = none) = true := by decide
  cases hrun : (Runner.run {} {} (fun _ => 10) sampleRequest).1 with
  | error e =>
    rw [hrun] at hfirst
    cases hfirst
  | ok first =>
    have hsession := ((Runner.Session.start.returned sampleRequest hrun).cancel "enough").cancel "again"
    have hlast : ((((Runner.run {} {} (fun _ => 10) sampleRequest).2.cancel "enough").cancel "again").run {}
      (fun _ => 10)
        sampleRequest).1.toOption.any (·.campaign.cancelReason = some "enough") = true := by decide
    cases hrun' : ((((Runner.run {} {} (fun _ => 10) sampleRequest).2.cancel "enough").cancel "again").run {}
      (fun _ => 10)
        sampleRequest).1 with
    | error e =>
      rw [hrun'] at hlast
      cases hlast
    | ok run =>
      rw [hrun'] at hlast
      obtain ⟨p, hplan, -, -⟩ := Runner.plan_of_run hrun'
      exact ⟨_, p, run, hsession, hplan, hrun', of_decide_eq_true hlast,
        (((stop_reason_attributed _ _ _ _ hsession sampleRequest).2 p hplan).2 run hrun').2 nofun⟩

/-- A campaign whose target never answers is interrupted, and a watch waits for its job to be cancelled. -/
def brokenOffRequest : CampaignRequest Nat := { sampleRequest with
  targets := [{ sampleTarget "vault" with react := fun _ _ => ⟨none, .ok {}⟩ }]
  watches := [{ state := .cancelled, reason := "job gone" }]
  requests := [(1, .interrupt)] }

/-- The interruption is the first request, but the campaign gives the reason of the watch. -/
theorem stop_reason_not_first :
    ∃ p run, Runner.Session (τ := Nat) {} (fun _ => 10) [] {} ∧
      Runner.plan {} (fun _ => 10) brokenOffRequest = .ok p ∧
      (Runner.run {} {} (fun _ => 10) brokenOffRequest).1 = .ok run ∧
      (StepRequests.issued (Runner.courseRequests p none brokenOffRequest.requests)).head? = some interruptedReason ∧
      run.campaign.cancelReason = some "job gone" := by
  have hissued : (Runner.plan {} (fun _ => 10) brokenOffRequest).toOption.any (fun p =>
      (StepRequests.issued (Runner.courseRequests p none brokenOffRequest.requests)).head? =
        some interruptedReason) = true := by decide
  have hreason : (Runner.run {} {} (fun _ => 10) brokenOffRequest).1.toOption.any
      (·.campaign.cancelReason = some "job gone") = true := by decide
  cases hrun : (Runner.run {} {} (fun _ => 10) brokenOffRequest).1 with
  | error e =>
    rw [hrun] at hreason
    cases hreason
  | ok run =>
    obtain ⟨p, hplan, -, -⟩ := Runner.plan_of_run hrun
    rw [hplan] at hissued
    rw [hrun] at hreason
    exact ⟨p, run, .start, hplan, rfl, of_decide_eq_true hissued, of_decide_eq_true hreason⟩

end ContractAudit

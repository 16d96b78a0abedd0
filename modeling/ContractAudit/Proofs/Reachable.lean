import ContractAudit.Campaign.Runner
import ContractAudit.Proofs.Turn

/-! # Reachable states

A state is reachable if it comes of some events, in whatever order, from the start of a campaign. -/

namespace ContractAudit
open Runner

variable {τ : Type} {p : Plan τ}

namespace JobRun

variable {r : JobRun τ} {stopping full : Bool}

def IsActive (r : JobRun τ) : Prop := r.activity ≠ .waiting ∧ r.activity ≠ .over

inductive Takes (p : Plan τ) (stopping full : Bool) (r : JobRun τ) : Turn → Prop where
  | start : r.activity = .waiting → full = false → stopping = false → Takes p stopping full r .start
  | refuse : r.activity = .waiting → full = false → stopping = true → Takes p stopping full r .refuse
  | proceed {ends : Option τ} : r.activity = .preparing ends (.ok ()) → Takes p stopping full r .proceed
  | execute {input : List UInt8} {generator : Twister} : r.activity = .ready → stopping = false →
      r.strategy.next p.corpus r.job.executions r.generator = .ok (some input, generator) →
      Takes p stopping full r (.execute input generator)
  | pass {input : List UInt8} {ends : Option τ} {result : ExecutionResult} :
      r.activity = .executing input ends (.ok result) → result.failed = false → Takes p stopping full r (.pass result)
  | crash {input : List UInt8} {ends : Option τ} {result : ExecutionResult} :
      r.activity = .executing input ends (.ok result) → result.failed = true →
      Takes p stopping full r (.crash input result)
  | timeOut : r.IsActive → Takes p stopping full r .timeOut
  | fail {kind source message : String} : r.IsActive → kind ≠ Diagnostic.campaignTimeout →
      Takes p stopping full r (.fail kind source message)
  | complete : r.IsActive → Takes p stopping full r .complete
  | cancel : r.activity ≠ .over → Takes p stopping full r .cancel

theorem takes_obstacleTurn (hr : r.IsActive) (o : Obstacle) : r.Takes p stopping full (r.obstacleTurn o) := by
  cases o with
  | timeout _ => exact .timeOut hr
  | unreachable _ _ | fault _ => exact .fail hr (by decide)

theorem takes_choiceTurn (ha : r.activity = .ready) : r.Takes p stopping full (r.choiceTurn p stopping) := by
  have hr : r.IsActive := by simp [IsActive, ha]
  unfold choiceTurn
  split
  · exact .cancel hr.2
  next hstopping =>
    split
    · exact .complete hr
    · split
      · exact .fail hr (by decide)
      · exact .complete hr
      next hnext => exact .execute ha (by simpa using hstopping) hnext

theorem takes_outcomeTurn {input : List UInt8} {ends : Option τ} {outcome : Except Obstacle ExecutionResult}
    (ha : r.activity = .executing input ends outcome) : r.Takes p stopping full (r.outcomeTurn input outcome) := by
  cases outcome with
  | error o => exact takes_obstacleTurn (by simp [IsActive, ha]) o
  | ok result =>
    simp only [outcomeTurn]
    split
    next hf => exact .crash ha hf
    next hf => exact .pass ha (by simpa using hf)

theorem takes_of_turn? {sig : Signal} {t : Turn} (h : r.turn? p stopping full sig = some t) :
    r.Takes p stopping full t := by
  cases sig <;> cases ha : r.activity <;> simp only [turn?, ha, reduceCtorEq, Option.some.injEq] at h
  case enter.waiting =>
    cases hfull : full with
    | true => simp [hfull] at h
    | false =>
      subst hfull
      cases stopping with
      | true => exact Option.some.inj h ▸ .refuse ha rfl rfl
      | false => exact Option.some.inj h ▸ .start ha rfl rfl
  case prepared.preparing ends outcome =>
    cases outcome with
    | error o =>
      cases h
      exact takes_obstacleTurn (by simp [IsActive, ha]) o
    | ok _ =>
      cases h
      exact .proceed ha
  case choose.ready => exact h ▸ takes_choiceTurn ha
  case executed.executing => exact h ▸ takes_outcomeTurn ha
  case expire.preparing | expire.ready | expire.executing => exact h ▸ .timeOut (by simp [IsActive, ha])
  case abort.waiting | abort.preparing | abort.ready | abort.executing => exact h ▸ .cancel (by simp [ha])

theorem Consistent.running_iff (hr : r.Consistent) : r.job.state = .running ↔ r.IsActive := by
  unfold Consistent at hr
  cases ha : r.activity <;> simp only [ha] at hr <;> simp [IsActive, ha, hr]
  intro hrun
  rw [hrun] at hr
  cases hr

theorem Consistent.isTerminal_iff (hr : r.Consistent) : r.job.state.isTerminal = true ↔ r.activity = .over := by
  unfold Consistent at hr
  cases ha : r.activity <;> simp only [ha] at hr <;> simp only [hr, reduceCtorEq] <;> decide

theorem Consistent.after [Clock τ] {t : Turn} (hr : r.Consistent) (ht : r.Takes p stopping full t) (now : τ)
    (call : Nat) : (r.after p now call t).Consistent := by
  cases ht with
  | proceed ha | execute ha _ _ | pass ha _ => exact hr.running_iff.mpr (by simp [IsActive, ha])
  | _ => rfl

end JobRun

namespace CampaignState
variable {motive : CampaignState τ → Prop}

variable {s t : CampaignState τ}

/-- Nothing happens to the jobs: at most the campaign is asked to stop, or its time is up. -/
structure Quiet (p : Plan τ) (s t : CampaignState τ) : Prop where
  jobs : t.jobs = s.jobs
  slots : t.slots = s.slots
  findings : t.findings = s.findings
  stats : t.stats = s.stats
  reported : t.reported = s.reported
  diagnostics : ∃ added, t.diagnostics = s.diagnostics ++ added ∧
    ∀ d ∈ added, d.subject = p.campaignId ∧ d.kind = Diagnostic.campaignTimeout
  stop : ∃ reason, t.cancelReason = (s.cancelReason <|> reason) ∧
    t.history = stopNote s.cancelReason reason ++ s.history

theorem Quiet.refl (p : Plan τ) (s : CampaignState τ) : Quiet p s s where
  jobs := rfl
  slots := rfl
  findings := rfl
  stats := rfl
  reported := rfl
  diagnostics := ⟨[], by simp, by simp⟩
  stop := ⟨none, by simp, by simp [stopNote]⟩

theorem Quiet.cancel (h : Quiet p s t) (hstop : t.cancelReason = s.cancelReason ∧ t.history = s.history)
    (reason : String) : Quiet p s (t.cancel reason) := by
  rw [cancel_eq]
  exact { h with stop := ⟨some reason, by rw [hstop.1], by rw [hstop.1, hstop.2]⟩ }

theorem Quiet.recordDeadline (p : Plan τ) (s : CampaignState τ) : Quiet p s (s.recordDeadline p) := by
  unfold CampaignState.recordDeadline
  split
  · exact refl p s
  · exact { refl p s with diagnostics := ⟨_, rfl, by simp⟩ }

theorem recordDeadline_stop (p : Plan τ) (s : CampaignState τ) :
    (s.recordDeadline p).cancelReason = s.cancelReason ∧ (s.recordDeadline p).history = s.history := by
  unfold recordDeadline
  split <;> exact ⟨rfl, rfl⟩

variable [Clock τ]

theorem next_cases (quiet : ∀ t, Quiet p s t → motive t)
    (turn : ∀ i r t, s.jobs[i]? = some r → r.Takes p s.isCancelled s.slots.isFull t → motive (s.commit p i r t))
    (e : CampaignEvent τ) : motive (s.next p e) := by
  have told : ∀ i sig, motive (s.tell p i sig) := by
    intro i sig
    unfold tell
    split
    · exact quiet s (.refl p s)
    next r hr =>
      split
      · exact quiet s (.refl p s)
      next t ht => exact turn i r t hr (JobRun.takes_of_turn? ht)
  cases e with
  | cancel reason => exact quiet _ ((Quiet.refl p s).cancel ⟨rfl, rfl⟩ reason)
  | deadline => exact quiet _ ((Quiet.recordDeadline p s).cancel (recordDeadline_stop p s) _)
  | tick now => exact quiet _ { Quiet.refl p s with }
  | _ => exact told _ _

/-- The state comes of events from the start of a campaign. -/
inductive Reachable (p : Plan τ) : CampaignState τ → Prop where
  | initial (cancelReason : Option String) : Reachable p (initial p cancelReason)
  | next {s : CampaignState τ} (e : CampaignEvent τ) : Reachable p s → Reachable p (s.next p e)

section
variable (h : Reachable p s)
include h

/-- What holds at the start and is kept by each turn, and whatever else happens, holds in every
    reachable state. -/
theorem Reachable.induct (initial : ∀ cancelReason, motive (.initial p cancelReason))
    (quiet : ∀ s t, Reachable p s → motive s → Quiet p s t → motive t)
    (turn : ∀ s i r t, Reachable p s → motive s → s.jobs[i]? = some r →
      r.Takes p s.isCancelled s.slots.isFull t → motive (s.commit p i r t)) : motive s := by
  induction h with
  | initial cancelReason => exact initial cancelReason
  | @next s e h ih =>
    exact next_cases (quiet s · h ih) (fun i r t hr ht => turn s i r t h ih hr ht) e

theorem Reachable.consistent : s.Consistent := by
  refine h.induct ?initial ?quiet ?turn
  case initial =>
    intro _ r hr
    obtain ⟨a, -, rfl⟩ := List.mem_map.mp hr
    rfl
  case quiet =>
    intro s t _ ih hq
    rw [Consistent, hq.jobs]
    exact ih
  case turn =>
    intro s i r t _ ih hr ht r' hr'
    rcases List.mem_or_eq_of_mem_set hr' with hr' | rfl
    · exact ih r' hr'
    · exact (ih r (List.mem_of_getElem? hr)).after ht _ _

theorem Reachable.fits {i : Nat} {r : JobRun τ} (hr : s.jobs[i]? = some r) : r.Consistent :=
  h.consistent r (List.mem_of_getElem? hr)

theorem Reachable.apply (e : CampaignEvent τ) : s.apply p e = .ok (s.next p e) :=
  apply_eq_next h.consistent e

theorem Reachable.applyAll (events : List (CampaignEvent τ)) :
    s.applyAll p events = .ok (events.foldl (CampaignState.next p) s) := by
  induction events generalizing s with
  | nil => rfl
  | cons e events ih =>
    rw [applyAll, List.foldlM_cons, h.apply e]
    exact ih (h.next e)

end

def Reaches (p : Plan τ) (s t : CampaignState τ) : Prop :=
  ∃ events : List (CampaignEvent τ), events.foldl (next p) s = t

theorem Reaches.refl (s : CampaignState τ) : Reaches p s s := ⟨[], rfl⟩

theorem Reaches.next (s : CampaignState τ) (e : CampaignEvent τ) : Reaches p s (s.next p e) := ⟨[e], rfl⟩

theorem Reaches.trans {u : CampaignState τ} (h : Reaches p s t) (h' : Reaches p t u) : Reaches p s u := by
  obtain ⟨events, rfl⟩ := h
  obtain ⟨events', rfl⟩ := h'
  exact ⟨events ++ events', List.foldl_append⟩

theorem Reachable.reaches (h : Reachable p s) (ht : Reaches p s t) : Reachable p t := by
  obtain ⟨events, rfl⟩ := ht
  induction events generalizing s with
  | nil => exact h
  | cons e events ih => exact ih (h.next e)

/-- What holds in a reachable state and is kept by each turn, and whatever else happens, holds in every
    state that comes of it. -/
theorem Reaches.induct (h : Reaches p s t) (hs : Reachable p s) (here : motive s)
    (quiet : ∀ s t, Reachable p s → motive s → Quiet p s t → motive t)
    (turn : ∀ s i r t, Reachable p s → motive s → s.jobs[i]? = some r →
      r.Takes p s.isCancelled s.slots.isFull t → motive (s.commit p i r t)) : motive t := by
  obtain ⟨events, rfl⟩ := h
  induction events generalizing s with
  | nil => exact here
  | cons e events ih =>
    exact ih (hs.next e) (next_cases (quiet s · hs here) (fun i r t hr ht => turn s i r t hs here hr ht) e)

theorem Reachable.exists_applyAll (h : Reachable p s) (events : List (CampaignEvent τ)) :
    ∃ t, s.applyAll p events = .ok t ∧ Reaches p s t :=
  ⟨_, h.applyAll events, events, rfl⟩

end CampaignState

namespace Timeline

open CampaignState

variable [Clock τ] {t : Timeline τ} (h : Reachable p t.state)
include h

theorem after_reaches (e : CampaignEvent τ) (agenda : List Nat) :
    ∃ u, t.after p e agenda = .ok u ∧ Reaches p t.state u.state := by
  rw [after, h.apply e]
  exact ⟨_, rfl, .next t.state e⟩

theorem proceed_reaches (i : Nat) (rest : List Nat) :
    ∃ u, t.proceed p i rest = .ok u ∧ Reaches p t.state u.state := by
  unfold proceed
  repeat' split
  all_goals first
    | exact ⟨_, rfl, .refl _⟩
    | exact after_reaches h _ _

theorem meet_reaches (d : Due τ) : ∃ u, t.meet p d = .ok u ∧ Reaches p t.state u.state := by
  cases d with
  | request r rest =>
    cases r with
    | cancel reason => exact after_reaches (t := { t with requests := rest }) h _ _
    | interrupt =>
      rw [meet, h.applyAll]
      exact ⟨_, rfl, _, rfl⟩
  | expire i => exact after_reaches h _ _
  | proceed i => exact ⟨_, rfl, .refl _⟩
  | deadline => exact after_reaches h _ _
  | drained =>
    rw [meet, h.applyAll]
    exact ⟨_, rfl, _, rfl⟩

theorem pass_reaches : ∃ u, t.pass p = .ok u ∧ Reaches p t.state u.state := by
  unfold pass
  split
  · exact ⟨t, rfl, .refl _⟩
  next m due _ =>
    rw [h.apply]
    obtain ⟨u, hu, hreaches⟩ := meet_reaches (t := { t with state := _ }) (h.next (.tick (notBefore t.state.now m))) due
    exact ⟨u, hu, (Reaches.next t.state (.tick (notBefore t.state.now m))).trans hreaches⟩

theorem step_reaches : ∃ u, t.step p = .ok u ∧ Reaches p t.state u.state := by
  unfold step
  split
  · exact proceed_reaches h _ _
  · split
    · split
      · exact ⟨_, rfl, .refl _⟩
      · exact pass_reaches h
    · exact pass_reaches h

/-- No step of the course fails, and where it ends all jobs are over. -/
theorem run_reaches (fuel : Nat) :
    ∃ o, t.run p fuel = .ok o ∧ ∀ s, o = some s → Reaches p t.state s ∧ s.isOver = true := by
  induction fuel generalizing t with
  | zero =>
    refine ⟨_, rfl, fun s hs => ?_⟩
    split at hs
    next hover =>
      cases hs
      exact ⟨.refl _, hover⟩
    · cases hs
  | succ fuel ih =>
    rw [run]
    split
    next hover =>
      refine ⟨_, rfl, fun s hs => ?_⟩
      cases hs
      exact ⟨.refl _, hover⟩
    · obtain ⟨u, hu, hreaches⟩ := step_reaches h
      obtain ⟨o, ho, hend⟩ := ih (h.reaches hreaches)
      rw [hu]
      exact ⟨o, ho, fun s hs => ⟨hreaches.trans (hend s hs).1, (hend s hs).2⟩⟩

end Timeline

/-- No job of a campaign has to go where it cannot, and a campaign that was run to its end comes of some
    events after which all jobs are over. -/
theorem Runner.runPlan_reaches [Clock τ] (p : Plan τ) (pending : Option String) (requests : List (τ × Request)) :
    (∀ e, runPlan p pending requests ≠ .error (.transition e)) ∧ ∀ run, runPlan p pending requests = .ok run →
        ∃ s, CampaignState.Reaches p (.initial p pending) s ∧ s.isOver = true ∧ run = finished p s := by
  obtain ⟨o, ho, hend⟩ := Timeline.run_reaches (t := Timeline.initial p pending requests)
    (CampaignState.Reachable.initial pending) patience
  rw [runPlan, ho]
  cases o with
  | none => exact ⟨nofun, nofun⟩
  | some s =>
    refine ⟨nofun, fun run hrun => ?_⟩
    cases hrun
    exact ⟨s, (hend s rfl).1, (hend s rfl).2, rfl⟩

end ContractAudit

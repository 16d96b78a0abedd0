import ContractAudit.Campaign.Event

/-! # The course of a campaign in time

On a clock of its own a campaign runs in one way only. -/

namespace ContractAudit
open Clock

inductive Request where
  | cancel (reason : String)
  | interrupt
deriving DecidableEq, Repr

def interruptedReason : String := "interrupted"

inductive Phase (τ : Type) where
  /-- It goes on until all jobs are over or its time is up. -/
  | watching
  /-- It is to stop, and jobs may go on until a moment, if one is set. -/
  | draining (ends : Option τ)

structure Timeline (τ : Type) where
  state : CampaignState τ
  /-- The jobs that may go on at this moment, in turn. -/
  agenda : List Nat
  phase : Phase τ := .watching
  requests : List (τ × Request) := []

inductive Due (τ : Type) where
  | request (r : Request) (rest : List (τ × Request))
  | expire (job : Nat)
  | proceed (job : Nat)
  | deadline
  | drained

namespace Timeline

variable {τ : Type} [Clock τ] (p : Plan τ) (t : Timeline τ)

def initial (p : Plan τ) (cancelReason : Option String) (requests : List (τ × Request)) :
    Timeline τ :=
  let state := CampaignState.initial p cancelReason
  { state, agenda := List.range state.jobs.length, requests }

def isDue (moment : Option τ) : Bool :=
  moment.any fun m => !before t.state.now m

def isWaiting (r : JobRun τ) : Bool :=
  match r.activity with
  | .waiting => true
  | _ => false

/-- The agenda with the first job that waits, if there is a slot for it. -/
def wake (s : CampaignState τ) (agenda : List Nat) : List Nat :=
  if s.slots.isFull then agenda
  else match s.jobs.zipIdx.find? fun (r, i) => isWaiting r && !agenda.contains i with
    | some (_, i) => agenda ++ [i]
    | none => agenda

def after (e : CampaignEvent τ) (agenda : List Nat) : Attempt (Timeline τ) := do
  let state ← t.state.apply p e
  return { t with state, agenda := wake state agenda }

def proceed (i : Nat) (rest : List Nat) : Attempt (Timeline τ) :=
  match t.state.jobs[i]? with
  | none => .ok { t with agenda := rest }
  | some r => match r.activity with
    | .waiting =>
      if t.state.slots.isFull then .ok { t with agenda := rest }
      else t.after p (.enter i) (rest ++ [i])
    | .preparing ends _ =>
      if t.isDue ends then t.after p (.prepared i) (i :: rest) else .ok { t with agenda := rest }
    | .ready => t.after p (.choose i) (rest ++ [i])
    | .executing _ ends _ =>
      if t.isDue ends then t.after p (.executed i) (i :: rest) else .ok { t with agenda := rest }
    | .over => .ok { t with agenda := rest }

def jobDeadline? (r : JobRun τ) : Option τ :=
  match r.activity with
  | .waiting | .over => none
  | _ => r.job.startedAt.map fun m => later m p.limits.job

def activityEnd? (r : JobRun τ) : Option τ :=
  match r.activity with
  | .preparing ends _ | .executing _ ends _ => ends
  | _ => none

def expiries : List (τ × Due τ) :=
  t.state.jobs.zipIdx.filterMap fun x => (jobDeadline? p x.1).map fun m => (m, .expire x.2)

def endings : List (τ × Due τ) :=
  t.state.jobs.zipIdx.filterMap fun x => (activityEnd? x.1).map fun m => (m, .proceed x.2)

def dueRequest : List (τ × Due τ) :=
  match t.requests with
  | [] => []
  | (m, r) :: rest => [(m, .request r rest)]

def duePhase : List (τ × Due τ) :=
  match t.phase with
  | .watching => p.limits.campaign.toList.map fun d => (Clock.after start d, .deadline)
  | .draining ends => ends.toList.map fun m => (m, .drained)

/-- All that is going to be due. Of two things at the same moment the first one counts. -/
def dues : List (τ × Due τ) :=
  t.dueRequest ++ t.expiries p ++ t.endings ++ t.duePhase p

def earliest : List (τ × Due τ) → Option (τ × Due τ)
  | [] => none
  | d :: ds => match earliest ds with
    | none => some d
    | some e => if before e.1 d.1 then some e else some d

def abortAll (s : CampaignState τ) : List (CampaignEvent τ) :=
  (List.range s.jobs.length).map .abort

def meet : Due τ → Attempt (Timeline τ)
  | .request (.cancel reason) rest => { t with requests := rest }.after p (.cancel reason) []
  | .request .interrupt rest => do
    let state ← t.state.applyAll p (abortAll t.state ++ [.cancel interruptedReason])
    return { t with state, requests := rest }
  | .expire i => t.after p (.expire i) []
  | .proceed i => .ok { t with agenda := [i] }
  | .deadline => t.after p .deadline []
  | .drained => do return { t with state := ← t.state.applyAll p (abortAll t.state) }

def notBefore (now m : τ) : τ := if before m now then now else m

def pass : Attempt (Timeline τ) :=
  match earliest (t.dues p) with
  | none => .ok t
  | some (m, due) => do
    let state ← t.state.apply p (.tick (notBefore t.state.now m))
    { t with state }.meet p due

def step : Attempt (Timeline τ) :=
  match t.agenda with
  | i :: rest => t.proceed p i rest
  | [] => match t.phase with
    | .watching =>
      if t.state.isCancelled then
        .ok { t with phase := .draining (p.limits.grace.map (later t.state.now)) }
      else t.pass p
    | .draining _ => t.pass p

def run (p : Plan τ) : (fuel : Nat) → Timeline τ → Attempt (Option (CampaignState τ))
  | 0, t => .ok (if t.state.isOver then some t.state else none)
  | fuel + 1, t =>
    if t.state.isOver then .ok (some t.state) else do run p fuel (← t.step p)

end Timeline

end ContractAudit

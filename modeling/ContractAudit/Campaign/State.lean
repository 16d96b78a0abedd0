import ContractAudit.Audit.Entry
import ContractAudit.Campaign.Plan

/-! # The state of a campaign -/

namespace ContractAudit

structure NoSlots where
  given : Int

def NoSlots.message (e : NoSlots) : String := "max_concurrent must be >= 1, got " ++ toString e.given

structure Slots where
  mode : ExecutionMode := .parallel
  limit : Nat
  holders : List Nat := []
  peak : Nat := 0
  admitted : Nat := 0
deriving DecidableEq

namespace Slots

def create (count : Int) (mode : ExecutionMode) : Except NoSlots Slots :=
  if count < 1 then .error ⟨count⟩
  else .ok { mode, limit := if mode == .sequential then 1 else count.toNat }

def running (s : Slots) : Nat := s.holders.length

def isFull (s : Slots) : Bool := s.limit ≤ s.running

def take (s : Slots) (n : Nat) : Slots :=
  { s with
    holders := s.holders ++ [n]
    peak := max s.peak (s.running + 1)
    admitted := s.admitted + 1 }

def release (s : Slots) (n : Nat) : Slots := { s with holders := s.holders.erase n }

def toValue (s : Slots) : Value :=
  .record [("mode", .str s.mode.name), ("max_concurrent", .int s.limit), ("running", .int s.running),
    ("peak_running", .int s.peak), ("admitted", .int s.admitted)]

end Slots

/-- Slots with those who wait for one, and those who want to leave as soon as they can. -/
structure SlotQueue where
  slots : Slots
  waiting : List Nat := []
  leaving : List Nat := []
  next : Nat := 0

namespace SlotQueue

/-- Slots given to those who wait, as long as there are any; who wants to leave does so at once. -/
def fill (slots : Slots) (leaving : List Nat) : List Nat → Slots × List Nat
  | [] => (slots, [])
  | w :: ws =>
    if slots.isFull then (slots, w :: ws)
    else
      let taken := slots.take w
      fill (if leaving.contains w then taken.release w else taken) leaving ws

def settle (q : SlotQueue) : SlotQueue :=
  let left := q.slots.holders.filter (!q.leaving.contains ·)
  let (slots, waiting) := fill { q.slots with holders := left } q.leaving q.waiting
  { q with slots, waiting }

def enter (q : SlotQueue) : SlotQueue :=
  settle { q with waiting := q.waiting ++ [q.next], next := q.next + 1 }

def exit (q : SlotQueue) (n : Nat) : SlotQueue :=
  if n < q.next then settle { q with leaving := n :: q.leaving } else q

def exitAll (q : SlotQueue) : SlotQueue := settle { q with leaving := List.range q.next }

end SlotQueue

inductive Activity (τ : Type) where
  | waiting
  /-- The target is being prepared; it is known when that ends, if ever, and how. -/
  | preparing (ends : Option τ) (outcome : Except Obstacle Unit)
  | ready
  | executing (input : List UInt8) (ends : Option τ) (outcome : Except Obstacle ExecutionResult)
  | over

structure JobRun (τ : Type) where
  job : Job τ
  place : Nat
  target : Target τ
  strategy : Strategy
  generator : Twister
  activity : Activity τ := .waiting

structure CampaignStats where
  executions : Nat := 0
  crashes : Nat := 0
  violations : Nat := 0
  timeouts : Nat := 0
  failed : Nat := 0
  cancelled : Nat := 0
  completed : Nat := 0
  coverage : List Int := []

namespace CampaignStats

def countState (s : CampaignStats) : JobState → CampaignStats
  | .timedOut => { s with timeouts := s.timeouts + 1 }
  | .failed => { s with failed := s.failed + 1 }
  | .cancelled => { s with cancelled := s.cancelled + 1 }
  | .completed => { s with completed := s.completed + 1 }
  | _ => s

def countResult (s : CampaignStats) (r : ExecutionResult) : CampaignStats :=
  { s with
    executions := s.executions + 1
    coverage := r.coverage.foldl (fun all n => if all.contains n then all else all ++ [n]) s.coverage
    crashes := if r.status = .crash then s.crashes + 1 else s.crashes
    violations := if r.status = .violation then s.violations + 1 else s.violations }

def toValue (s : CampaignStats) (peak : Nat) : Value :=
  .record [("executions", .int s.executions), ("crashes", .int s.crashes),
    ("violations", .int s.violations), ("timeouts", .int s.timeouts), ("failed", .int s.failed),
    ("cancelled", .int s.cancelled), ("completed", .int s.completed), ("peak_running", .int peak),
    ("coverage", .int s.coverage.length)]

end CampaignStats

inductive Occurrence (τ : Type) where
  | moved (job : Nat) (old new : JobState) (moment : τ)
  | executes (job : Nat) (input : List UInt8)
  | cancels (reason : String)

structure CampaignState (τ : Type) where
  now : τ
  jobs : List (JobRun τ)
  slots : Slots
  /-- Why the campaign is to stop, if it is. -/
  cancelReason : Option String := none
  calls : List Nat
  findings : List Finding := []
  diagnostics : List Diagnostic := []
  stats : CampaignStats := {}
  /-- What has happened, the newest first. -/
  history : List (Occurrence τ) := []
  reported : List AuditEvent := []

/-- What comes of a step, unless a job would have to go where it cannot. -/
abbrev Attempt := Except InvalidTransition

def JobRun.ofAssignment {τ : Type} (p : Plan τ) (a : Assignment τ) : JobRun τ where
  job := { id := a.id, target := a.target.name, strategy := a.strategy.name, corpus := p.corpus.name }
  place := a.place
  target := a.target
  strategy := a.strategy
  generator := p.generator a.id

namespace CampaignState

variable {τ : Type} (s : CampaignState τ)

def initial [Clock τ] (p : Plan τ) (cancelReason : Option String) : CampaignState τ where
  now := Clock.start
  jobs := p.assignments.map (.ofAssignment p)
  slots := { limit := p.slotCount }
  cancelReason
  calls := p.targets.map fun _ => 0

def isCancelled : Bool := s.cancelReason.isSome

def isOver : Bool := s.jobs.all (·.job.state.isTerminal)

def cancel (reason : String) : CampaignState τ :=
  match s.cancelReason with
  | some _ => s
  | none => { s with cancelReason := some reason, history := .cancels reason :: s.history }

def modifyJob (i : Nat) (f : JobRun τ → JobRun τ) : CampaignState τ :=
  { s with jobs := s.jobs.modify i f }

def setActivity (i : Nat) (a : Activity τ) : CampaignState τ :=
  s.modifyJob i fun r => { r with activity := a }

def jobEvent (j : Job τ) : AuditEvent :=
  .job (.str j.id) (.str j.state.name) (.record [("target", .str j.target),
    ("strategy", .str j.strategy), ("executions", .int j.executions)])

def observe (p : Plan τ) (s : CampaignState τ) (i : Nat) (old : JobState) (j : Job τ) :
    CampaignState τ :=
  let s := { s with
    stats := s.stats.countState j.state
    history := .moved i old j.state s.now :: s.history
    reported := jobEvent j :: s.reported }
  (p.watches.filter (·.matches j.id j.state)).foldl (fun s w => s.cancel w.reason) s

def move (p : Plan τ) (s : CampaignState τ) (i : Nat) (new : JobState) :
    Attempt (CampaignState τ) :=
  match s.jobs[i]? with
  | none => .ok s
  | some r => do
    let job ← r.job.move s.now new
    return observe p { s with jobs := s.jobs.set i { r with job } } i r.job.state job

def finish (p : Plan τ) (s : CampaignState τ) (i : Nat) (new : JobState) :
    Attempt (CampaignState τ) := do
  let s ← s.move p i new
  return { s.setActivity i .over with slots := s.slots.release i }

end CampaignState

end ContractAudit

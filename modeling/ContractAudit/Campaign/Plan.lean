import ContractAudit.Config.Fuzz
import ContractAudit.Fuzz.Strategy
import ContractAudit.Fuzz.Target

/-! # Jobs and plans -/

namespace ContractAudit

inductive JobState where
  | pending
  | running
  | completed
  | timedOut
  | crashed
  | cancelled
  | failed
deriving DecidableEq, Repr

namespace JobState

def name : JobState → String
  | pending => "pending"
  | running => "running"
  | completed => "completed"
  | timedOut => "timed_out"
  | crashed => "crashed"
  | cancelled => "cancelled"
  | failed => "failed"

def all : List JobState := [pending, running, completed, timedOut, crashed, cancelled, failed]

def ofName? (s : String) : Option JobState := all.find? (·.name == s)

def isTerminal : JobState → Bool
  | pending | running => false
  | _ => true

def leadsTo : JobState → JobState → Bool
  | pending, new => new == running || new == cancelled
  | running, new => new.isTerminal
  | _, _ => false

end JobState

structure InvalidTransition where
  jobId : String
  old : JobState
  new : JobState
deriving DecidableEq, Repr

def InvalidTransition.message (e : InvalidTransition) : String :=
  "job " ++ e.jobId ++ ": " ++ e.old.name ++ " -> " ++ e.new.name ++ " is not allowed"

/-- What is known of a job; the target, the strategy and the corpus are given by their names. -/
structure Job (τ : Type) where
  id : String
  target : String
  strategy : String
  corpus : String
  state : JobState := .pending
  /-- How many executions have ended with a result. -/
  executions : Nat := 0
  startedAt : Option τ := none
  finishedAt : Option τ := none
  error : Option String := none
  finding : Option Finding := none

namespace Job

variable {τ : Type}

def move (j : Job τ) (now : τ) (new : JobState) : Except InvalidTransition (Job τ) :=
  if j.state.leadsTo new then
    .ok { j with
      state := new
      startedAt := if new = .running then some now else j.startedAt
      finishedAt := if new.isTerminal then some now else j.finishedAt }
  else .error ⟨j.id, j.state, new⟩

def toValue (j : Job τ) : Value :=
  .record [("job_id", .str j.id), ("target", .str j.target), ("strategy", .str j.strategy),
    ("corpus", .str j.corpus), ("state", .str j.state.name), ("executions", .int j.executions),
    ("error", .ofString? j.error), ("finding_id", .ofString? (j.finding.map (·.id)))]

end Job

structure Limits (τ : Type) where
  job : τ
  campaign : Option τ := none
  execution : Option τ := none
  /-- How long jobs may go on after a request to stop, if there is an end to it. -/
  grace : Option τ

/-- A request to stop as soon as a job, or a certain job, comes to a state. -/
structure Watch where
  state : JobState
  job : Option String := none
  reason : String

def Watch.matches (w : Watch) (id : String) (new : JobState) : Bool :=
  w.state == new && w.job.all (· == id)

structure Assignment (τ : Type) where
  id : String
  place : Nat
  target : Target τ
  strategy : Strategy

structure Plan (τ : Type) where
  campaignId : String
  settings : CampaignSettings
  jobCount : Amount
  perJobTimeout : Seconds
  limits : Limits τ
  targets : List (Target τ)
  strategies : List Strategy
  corpus : Corpus := {}
  watches : List Watch := []

namespace Plan

variable {τ : Type}

def jobId (n : Nat) : String :=
  let digits := toString n
  "job-" ++ String.ofList (List.replicate (4 - digits.length) '0') ++ digits

def pairs (p : Plan τ) : List (Nat × Target τ × Strategy) :=
  p.targets.zipIdx.flatMap fun (t, place) => p.strategies.map fun s => (place, t, s)

def assignments (p : Plan τ) : List (Assignment τ) :=
  p.pairs.zipIdx.map fun ((place, target, strategy), i) => ⟨jobId (i + 1), place, target, strategy⟩

/-- How many slots there are for the jobs. Slots are taken one by one until none is left, so a number
    that is not whole is never used up. -/
def slotCount (p : Plan τ) : Nat :=
  match p.jobCount.whole? with
  | some n => n.toNat
  | none => p.assignments.length

/-- The generator of a job: it depends on the seed of the campaign and on the id of the job. -/
def generator (p : Plan τ) (id : String) : Twister := .ofText (p.settings.seed.plain ++ ":" ++ id)

end Plan

/-- The limits in the settings of a campaign; a limit of no time is none. -/
def CampaignSettings.limits {τ : Type} (c : CampaignSettings) (span : Seconds → τ)
    (perJobTimeout : Seconds) : Limits τ where
  job := span perJobTimeout
  campaign := (c.campaignTimeout.filter (!·.isZero)).map span
  execution := (c.executionTimeout.filter (!·.isZero)).map span
  grace := c.gracePeriod.map span

end ContractAudit

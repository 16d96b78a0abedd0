import Mathlib.Data.List.Nodup
import ContractAudit.Proofs.Reachable

/-! # What becomes of a job -/

namespace ContractAudit
open List JobRun

variable {τ : Type} {p : Plan τ}

namespace Plan

theorem toList_jobId (n : Nat) :
    (jobId n).toList = "job-".toList ++ (replicate (4 - (toString n).length) '0' ++ Nat.toDigits 10 n) := by
  simp [jobId, Nat.toString_eq_repr]

theorem head?_jobId (n : Nat) : (jobId n).toList.head? = some 'j' := by
  rw [toList_jobId]
  rfl

/-- The number of a job can be read off its id: zeros in front of a number do not change it. -/
theorem jobId_injective {m n : Nat} (h : jobId m = jobId n) : m = n := by
  have hlist := congrArg String.toList h
  rw [toList_jobId, toList_jobId] at hlist
  have hnumber := congrArg (Nat.ofDigitChars 10 · 0) (append_cancel_left hlist)
  simpa [Nat.ofDigitChars_append, Nat.ofDigitChars_replicate_zero] using hnumber

theorem length_pairs (p : Plan τ) : p.pairs.length = p.targets.length * p.strategies.length := by
  simp [pairs, length_flatMap]

theorem length_assignments (p : Plan τ) : p.assignments.length = p.targets.length * p.strategies.length := by
  rw [assignments, length_map, length_zipIdx, length_pairs]

theorem id_of_assignments {i : Nat} {a : Assignment τ} (h : p.assignments[i]? = some a) : a.id = jobId (i + 1) := by
  simp only [assignments, getElem?_map, getElem?_zipIdx, Option.map_map, Option.map_eq_some_iff] at h
  obtain ⟨x, -, rfl⟩ := h
  simp

theorem target_mem_of_mem_assignments {a : Assignment τ} (h : a ∈ p.assignments) : a.target ∈ p.targets := by
  obtain ⟨⟨⟨place, target, strategy⟩, i⟩, hx, rfl⟩ := mem_map.mp h
  obtain ⟨⟨t, k⟩, ht, hpair⟩ := mem_flatMap.mp (fst_mem_of_mem_zipIdx hx)
  obtain ⟨s, -, heq⟩ := mem_map.mp hpair
  cases heq
  exact fst_mem_of_mem_zipIdx ht

end Plan

namespace JobRun

def assignment (r : JobRun τ) : Assignment τ := ⟨r.job.id, r.place, r.target, r.strategy⟩

theorem after_assignment [Clock τ] (p : Plan τ) (now : τ) (call : Nat) (r : JobRun τ) (t : Turn) :
    (r.after p now call t).assignment = r.assignment := by
  cases t <;> rfl

end JobRun

namespace CampaignState

variable [Clock τ] {s : CampaignState τ} {i : Nat} {r : JobRun τ} (h : Reachable p s)
include h

theorem Reachable.assignments : s.jobs.map (·.assignment) = p.assignments := by
  refine h.induct (motive := fun s => s.jobs.map (·.assignment) = p.assignments) ?initial ?quiet ?turn
  case initial =>
    intro _
    rw [CampaignState.initial, map_map]
    exact map_id _
  case quiet =>
    intro s t _ ih hq
    rw [hq.jobs, ih]
  case turn =>
    intro s i r t _ ih hr _
    obtain ⟨hi, rfl⟩ := List.getElem?_eq_some_iff.mp hr
    rw [commit, List.map_set, after_assignment, ← List.map_set, List.set_getElem_self, ih]

theorem Reachable.length_jobs : s.jobs.length = p.targets.length * p.strategies.length := by
  rw [← p.length_assignments, ← h.assignments, length_map]

theorem Reachable.id_eq (hr : s.jobs[i]? = some r) : r.job.id = Plan.jobId (i + 1) := by
  have ha : p.assignments[i]? = some r.assignment := by rw [← h.assignments, getElem?_map, hr, Option.map_some]
  exact Plan.id_of_assignments ha

theorem Reachable.target_mem (hr : s.jobs[i]? = some r) : r.target ∈ p.targets := by
  have ha : r.assignment ∈ p.assignments := h.assignments ▸ mem_map_of_mem (mem_of_getElem? hr)
  exact Plan.target_mem_of_mem_assignments ha

theorem Reachable.nodup_ids : (s.jobs.map (·.job.id)).Nodup := by
  have hids : s.jobs.map (·.job.id) = (List.range s.jobs.length).map fun i => Plan.jobId (i + 1) := by
    refine ext_getElem (by simp) fun i hi hi' => ?_
    rw [getElem_map, getElem_map, getElem_range]
    exact h.id_eq (getElem?_eq_getElem _)
  rw [hids]
  exact nodup_range.map fun i j hij => Nat.succ.inj (Plan.jobId_injective hij)

end CampaignState

def Occurrence.job? : Occurrence τ → Option Nat
  | .moved i _ _ _ | .executes i _ => some i
  | .cancels _ => none

def movesOf (i : Nat) : List (Occurrence τ) → List (JobState × JobState)
  | [] => []
  | .moved j old new _ :: h => if j = i then (old, new) :: movesOf i h else movesOf i h
  | .executes _ _ :: h | .cancels _ :: h => movesOf i h

def lastInput? (i : Nat) : List (Occurrence τ) → Option (List UInt8)
  | [] => none
  | .executes j input :: h => if j = i then some input else lastInput? i h
  | .moved _ _ _ _ :: h | .cancels _ :: h => lastInput? i h

@[simp] def Turn.input? : Turn → Option (List UInt8)
  | .execute input _ => some input
  | _ => none

section Others
variable {i : Nat} {o : Occurrence τ}

theorem movesOf_cons_of_ne (ho : o.job? ≠ some i) (h : List (Occurrence τ)) : movesOf i (o :: h) = movesOf i h := by
  cases o with
  | moved j _ _ _ => exact if_neg fun hj => ho (congrArg some hj)
  | executes _ _ | cancels _ => rfl

theorem lastInput?_cons_of_ne (ho : o.job? ≠ some i) (h : List (Occurrence τ)) :
    lastInput? i (o :: h) = lastInput? i h := by
  cases o with
  | executes j _ => exact if_neg fun hj => ho (congrArg some hj)
  | moved _ _ _ _ | cancels _ => rfl

end Others

namespace CampaignState

variable {s : CampaignState τ} {i : Nat} {r : JobRun τ}

theorem job?_of_mem_stopNote {given reason : Option String} {o : Occurrence τ} (ho : o ∈ stopNote given reason) :
    o.job? = none := by
  unfold stopNote at ho
  split at ho
  · cases ho
  · obtain ⟨_, -, rfl⟩ := mem_map.mp ho
    rfl

theorem job?_of_mem_told {t : Turn} {o : Occurrence τ} (ho : o ∈ s.told p i r t) : o.job? = none ∨ o.job? = some i := by
  rw [told, append_assoc, mem_append, mem_append] at ho
  rcases ho with ho | ho | ho
  · exact .inl (job?_of_mem_stopNote ho)
  · obtain ⟨_, -, rfl⟩ := mem_map.mp ho
    exact .inr rfl
  · cases t <;> simp only [Turn.noted, mem_singleton, not_mem_nil] at ho
    exact .inr (ho ▸ rfl)

theorem movesOf_stopNote (given reason : Option String) (h : List (Occurrence τ)) :
    movesOf i (stopNote given reason ++ h) = movesOf i h := by
  unfold stopNote
  split
  · rfl
  · cases reason <;> rfl

theorem lastInput?_stopNote (given reason : Option String) (h : List (Occurrence τ)) :
    lastInput? i (stopNote given reason ++ h) = lastInput? i h := by
  unfold stopNote
  split
  · rfl
  · cases reason <;> rfl

theorem movesOf_told (t : Turn) :
    movesOf i (s.told p i r t ++ s.history) = t.state?.toList.map (r.job.state, ·) ++ movesOf i s.history := by
  rw [told, append_assoc, append_assoc, movesOf_stopNote]
  cases t <;> simp [movesOf]

theorem lastInput?_told (t : Turn) :
    lastInput? i (s.told p i r t ++ s.history) = (t.input? <|> lastInput? i s.history) := by
  rw [told, append_assoc, append_assoc, lastInput?_stopNote]
  cases t <;> simp [lastInput?]

/-- What holds of a job at the start, and is kept by its own turns, holds in every reachable state:
    what happens to other jobs is told of them alone. -/
theorem Reachable.forall_jobs [Clock τ] {motive : Nat → JobRun τ → List (Occurrence τ) → Prop} (h : Reachable p s)
    (initial : ∀ i a, p.assignments[i]? = some a → motive i (.ofAssignment p a) [])
    (other : ∀ i r o h, o.job? ≠ some i → motive i r h → motive i r (o :: h))
    (turn : ∀ s i r t, Reachable p s → motive i r s.history → s.jobs[i]? = some r →
      r.Takes p s.isCancelled s.slots.isFull t →
      motive i (r.after p s.now (s.calls.getD r.place 0) t) (s.told p i r t ++ s.history)) :
    ∀ i r, s.jobs[i]? = some r → motive i r s.history := by
  have others : ∀ i r l h, (∀ o ∈ l, Occurrence.job? o ≠ some i) → motive i r h → motive i r (l ++ h) := by
    intro i r l h hl hm
    induction l with
    | nil => exact hm
    | cons o l ih => exact other i r o _ (hl o (by simp)) (ih fun o ho => hl o (by simp [ho]))
  refine h.induct (motive := fun s => ∀ i r, s.jobs[i]? = some r → motive i r s.history) ?initial ?quiet ?turn
  case initial =>
    intro _ i r hr
    rw [CampaignState.initial, getElem?_map, Option.map_eq_some_iff] at hr
    obtain ⟨a, ha, rfl⟩ := hr
    exact initial i a ha
  case quiet =>
    intro s t _ ih hq i r hr
    obtain ⟨reason, -, hhistory⟩ := hq.stop
    rw [hhistory]
    refine others i r _ _ (fun o ho => ?_) (ih i r (hq.jobs ▸ hr))
    rw [job?_of_mem_stopNote ho]
    exact nofun
  case turn =>
    intro s j r t hs ih hr ht i r' hr'
    by_cases hij : i = j
    · subst hij
      rw [commit, getElem?_set_of_some hr _] at hr'
      cases hr'
      exact turn s i r t hs (ih i r hr) hr ht
    · rw [commit, getElem?_set_ne (Ne.symm hij)] at hr'
      refine others i r' _ _ (fun o ho => ?_) (ih i r' hr')
      rcases job?_of_mem_told ho with ho | ho <;> rw [ho]
      · exact nofun
      · exact fun hj => hij (Option.some.inj hj).symm

end CampaignState

/-- The changes of state, the newest first, that lead a job to a state. -/
inductive LeadTo : JobState → List (JobState × JobState) → Prop where
  | waits : LeadTo .pending []
  | runs : LeadTo .running [(.pending, .running)]
  | ends {new : JobState} : new.isTerminal = true → LeadTo new [(.running, new), (.pending, .running)]
  | leaves : LeadTo .cancelled [(.pending, .cancelled)]

/-- What is recorded of a job agrees with what the history tells of it. -/
structure JobRun.Recorded (p : Plan τ) (i : Nat) (r : JobRun τ) (h : List (Occurrence τ)) : Prop where
  path : LeadTo r.job.state (movesOf i h)
  fresh : r.job.state = .pending → r.job.executions = 0
  found : r.job.finding.isSome = true ↔
    r.job.state = .crashed ∨ p.settings.timeoutsAsFindings = true ∧ r.job.state = .timedOut
  executing : ∀ input ends outcome, r.activity = .executing input ends outcome → lastInput? i h = some input
  crashed : r.job.state = .crashed → ∃ input result r', lastInput? i h = some input ∧
    ExecutionResult.failed result = true ∧ assignment r' = r.assignment ∧
    r.job.finding = some (r'.crashFinding p.settings input result)
  timedOut : r.job.state = .timedOut → ∀ f, r.job.finding = some f →
    ∃ r', assignment r' = r.assignment ∧ f = r'.timeoutFinding p.settings p.perJobTimeout

namespace JobRun

variable {i : Nat} {r : JobRun τ} {h : List (Occurrence τ)}

theorem Recorded.other {o : Occurrence τ} (hr : r.Recorded p i h) (ho : o.job? ≠ some i) :
    r.Recorded p i (o :: h) where
  __ := hr
  path := movesOf_cons_of_ne ho h ▸ hr.path
  executing := lastInput?_cons_of_ne ho h ▸ hr.executing
  crashed := lastInput?_cons_of_ne ho h ▸ hr.crashed

theorem Recorded.finding_eq_none (hr : r.Recorded p i h) (hlive : r.job.state.isTerminal = false) :
    r.job.finding = none := by
  rw [← Option.not_isSome_iff_eq_none, hr.found]
  rintro (hstate | ⟨-, hstate⟩) <;> rw [hstate] at hlive <;> cases hlive

variable {t : Turn} {stopping full : Bool}

theorem Consistent.pending (hr : r.Consistent) (ha : r.activity = .waiting) : r.job.state = .pending := by
  rw [Consistent, ha] at hr
  exact hr

theorem Takes.isTerminal_eq_false (ht : r.Takes p stopping full t) (hr : r.Consistent) :
    r.job.state.isTerminal = false := by
  have hlive : r.activity ≠ .over := by
    cases ht with
    | start ha _ _ | refuse ha _ _ | proceed ha | execute ha _ _ | pass ha _ | crash ha _ =>
      rw [ha]
      exact nofun
    | timeOut ha | fail ha | complete ha => exact ha.2
    | cancel ha => exact ha
  exact Bool.eq_false_iff.mpr (mt hr.isTerminal_iff.mp hlive)

theorem Takes.leadTo {moves : List (JobState × JobState)} (ht : r.Takes p stopping full t) (hr : r.Consistent)
    (h : LeadTo r.job.state moves) :
    LeadTo (t.state?.getD r.job.state) (t.state?.toList.map (r.job.state, ·) ++ moves) := by
  have ended : r.IsActive → ∀ new, JobState.isTerminal new = true → LeadTo new ((r.job.state, new) :: moves) := by
    intro ha new hnew
    rw [hr.running_iff.mpr ha] at h ⊢
    cases h with
    | runs => exact .ends hnew
    | ends hend => cases hend
  have idle : r.activity = .waiting → r.job.state = .pending ∧ moves = [] := by
    intro ha
    have hpending := hr.pending ha
    rw [hpending] at h
    cases h with
    | waits => exact ⟨hpending, rfl⟩
    | ends hend => cases hend
  cases ht with
  | start ha _ _ =>
    obtain ⟨hstate, rfl⟩ := idle ha
    exact hstate ▸ .runs
  | refuse ha _ _ =>
    obtain ⟨hstate, rfl⟩ := idle ha
    exact hstate ▸ .leaves
  | proceed _ | execute _ _ _ | pass _ _ => exact h
  | crash ha _ => exact ended (by simp [IsActive, ha]) _ rfl
  | timeOut ha | fail ha | complete ha => exact ended ha _ rfl
  | cancel hlive =>
    by_cases ha : r.activity = .waiting
    · obtain ⟨hstate, rfl⟩ := idle ha
      exact hstate ▸ .leaves
    · exact ended ⟨ha, hlive⟩ _ rfl

/-- What is recorded of a job stays so through its own turns. -/
theorem Takes.recorded [Clock τ] {s : CampaignState τ} {now : τ} {n : Nat} (ht : r.Takes p stopping full t)
    (hc : r.Consistent) (hr : r.Recorded p i s.history) :
    (r.after p now n t).Recorded p i (s.told p i r t ++ s.history) := by
  have hlive := ht.isTerminal_eq_false hc
  have hnone := hr.finding_eq_none hlive
  constructor
  case path =>
    rw [after_state, CampaignState.movesOf_told]
    exact ht.leadTo hc hr.path
  case fresh =>
    rw [after_state]
    intro hpending
    cases ht with
    | proceed _ | execute _ _ _ => exact hr.fresh hpending
    | pass ha _ =>
      have hrun := hc.running_iff.mpr (by simp [IsActive, ha])
      rw [show r.job.state = .pending from hpending] at hrun
      cases hrun
    | _ => cases hpending
  case found =>
    cases t with
    | proceed | execute _ _ | pass _ => exact hr.found
    | timeOut => by_cases hf : p.settings.timeoutsAsFindings = true <;> simp [JobRun.after, ended, hf, hnone]
    | _ => simp [JobRun.after, ended, hnone]
  case executing =>
    rw [CampaignState.lastInput?_told]
    cases t <;> simp_all [JobRun.after, ended]
  case crashed =>
    rw [after_state, CampaignState.lastInput?_told]
    intro hcrashed
    cases ht with
    | @crash input ends result ha hf =>
      exact ⟨input, result, r, hr.executing _ _ _ ha, hf, rfl, rfl⟩
    | proceed _ | execute _ _ _ | pass _ _ =>
      rw [show r.job.state = .crashed from hcrashed] at hlive
      cases hlive
    | _ => cases hcrashed
  case timedOut =>
    rw [after_state]
    intro htimedOut f hf
    cases t with
    | timeOut =>
      refine ⟨r, rfl, ?_⟩
      simp only [JobRun.after, ended] at hf
      split at hf
      · exact (Option.some.inj hf).symm
      · rw [hnone] at hf
        cases hf
    | proceed | execute _ _ | pass _ =>
      rw [show r.job.state = .timedOut from htimedOut] at hlive
      cases hlive
    | _ => cases htimedOut

end JobRun

theorem CampaignState.Reachable.recorded [Clock τ] {s : CampaignState τ} {i : Nat} {r : JobRun τ} (h : Reachable p s)
    (hr : s.jobs[i]? = some r) : r.Recorded p i s.history := by
  refine h.forall_jobs (motive := fun i r h => r.Recorded p i h) ?initial ?other ?turn i r hr
  case initial =>
    intro i a _
    constructor
    · exact .waits
    all_goals simp [ofAssignment]
  case other => exact fun i r o h ho hr => hr.other ho
  case turn => exact fun s i r t hs ih hr ht => ht.recorded (hs.fits hr) ih

end ContractAudit

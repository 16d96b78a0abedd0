import Mathlib.Data.List.Perm.Subperm
import ContractAudit.Proofs.Coupling
import ContractAudit.Proofs.CrashEvidence

/-! # The number of slots does not change what a campaign finds

Two campaigns that differ in their job count take the jobs through the same courses, if at different times. -/

namespace ContractAudit
open List Timeline JobRun Campaign Guide Job
variable {τ : Type} [Clock τ] {p : Plan τ}

namespace Timeline

def waits (s : CampaignState τ) (i : Nat) : Bool := s.jobs[i]?.any isWaiting

/-- Every job that waits is on the agenda, or enough of them are to take all slots that are left. -/
def Roused (s : CampaignState τ) (agenda : List Nat) : Prop :=
  (∀ i, waits s i = true → i ∈ agenda) ∨ s.slots.limit ≤ s.slots.running + agenda.countP (waits s)

variable {s : CampaignState τ} {t u : Timeline τ} {agenda : List Nat} {i : Nat} {r : JobRun τ} {turn : Turn}

omit [Clock τ] in
theorem waits_iff (hr : s.jobs[i]? = some r) : waits s i = true ↔ r.activity = .waiting := by
  rw [waits, hr]
  exact isWaiting_iff

omit [Clock τ] in
theorem roused_wake (h : (∀ i, waits s i = true → i ∈ agenda) ∨
    s.slots.limit ≤ s.slots.running + agenda.countP (waits s) + 1) :
    Roused s (wake s agenda) := by
  rcases wake_cases s agenda with ⟨heq, hfull | hall⟩ | ⟨i, r, heq, hr, hw, hi⟩ <;> rw [heq]
  · exact .inr (Nat.le_trans (by simpa [Slots.isFull] using hfull) (Nat.le_add_right _ _))
  · refine .inl fun i hi => ?_
    obtain ⟨r, hr, hw⟩ := (Option.any_eq_true ..).mp hi
    exact hall i r hr (isWaiting_iff.mp hw)
  · rcases h with hall | hcount
    · exact absurd (hall i ((waits_iff hr).mpr hw)) hi
    · refine .inr ?_
      rw [countP_append, countP_singleton, if_pos ((waits_iff hr).mpr hw)]
      exact hcount

theorem waits_commit (hr : s.jobs[i]? = some r) (ht : r.Takes p false false turn) (j : Nat) :
    waits (s.commit p i r turn) j = true ↔ j ≠ i ∧ waits s j = true := by
  have hi := (List.getElem?_eq_some_iff.mp hr).1
  by_cases hj : j = i
  · subst hj
    have hafter : (s.commit p j r turn).jobs[j]? = some (r.after p s.now (s.calls.getD r.place 0) turn) :=
      getElem?_set_self hi
    rw [waits_iff hafter]
    exact iff_of_false (after_activity_ne_waiting p _ _ ht) (fun h => h.1 rfl)
  · rw [waits, CampaignState.commit, getElem?_set_ne (Ne.symm hj)]
    exact (and_iff_right hj).symm

theorem countP_waits_le (hr : s.jobs[i]? = some r) (ht : r.Takes p false false turn) (hnodup : agenda.Nodup) :
    agenda.countP (waits s) ≤ agenda.countP (waits (s.commit p i r turn)) + if isWaiting r then 1 else 0 := by
  by_cases hw : isWaiting r = true
  · rw [if_pos hw, countP_eq_length_filter, countP_eq_length_filter, ← length_cons (a := i)]
    refine ((hnodup.filter _).subperm fun j hj => ?_).length_le
    obtain ⟨hj, hwaits⟩ := mem_filter.mp hj
    by_cases heq : j = i
    · exact heq ▸ mem_cons_self ..
    · exact mem_cons_of_mem i (mem_filter.mpr ⟨hj, (waits_commit hr ht j).mpr ⟨heq, hwaits⟩⟩)
  · rw [if_neg hw, Nat.add_zero]
    refine countP_mono_left fun j _ hwaits => (waits_commit hr ht j).mpr ⟨?_, hwaits⟩
    rintro rfl
    exact hw (isWaiting_iff.mpr ((waits_iff hr).mp hwaits))

omit [Clock τ] in
theorem running_slots_le (hstart : r.activity = .waiting → turn = .start) (i : Nat) (slots : Slots) :
    (turn.slots i slots).limit = slots.limit ∧
      slots.running + (if isWaiting r then 1 else 0) ≤ (turn.slots i slots).running + 1 := by
  have herase : slots.holders.length ≤ (slots.holders.erase i).length + 1 := by
    rw [length_erase]
    split <;> omega
  by_cases hw : isWaiting r = true
  · cases hstart (isWaiting_iff.mp hw)
    simp [hw, Slots.take, Slots.running]
  · cases turn <;> simp [hw, Slots.take, Slots.release, Slots.running, length_erase_of_mem] <;> omega

theorem Roused.moved (h : Roused t.state t.agenda) (hnodup : t.agenda.Nodup) (hr : t.state.jobs[i]? = some r)
    (ht : r.Takes p false false turn) (hstart : r.activity = .waiting → turn = .start)
    (hagenda : agenda.Perm t.agenda) :
    Roused (t.moved p i r turn agenda).state (t.moved p i r turn agenda).agenda := by
  refine roused_wake ?_
  rcases h with hall | hcount
  · exact .inl fun j hj => hagenda.mem_iff.mpr (hall j ((waits_commit hr ht j).mp hj).2)
  · have hwaits := countP_waits_le hr ht hnodup
    obtain ⟨hlimit, hrunning⟩ := running_slots_le hstart i t.state.slots
    refine .inr ?_
    rw [hagenda.countP_eq]
    show (turn.slots i t.state.slots).limit ≤
      (turn.slots i t.state.slots).running + t.agenda.countP (waits (t.state.commit p i r turn)) + 1
    omega

omit [Clock τ] in
/-- A job leaves the agenda without a slot only if there is none. -/
theorem Roused.leave {rest : List Nat} (h : Roused s (i :: rest))
    (hfull : ∀ r, s.jobs[i]? = some r → r.activity = .waiting → s.slots.isFull = true) : Roused s rest := by
  cases hw : waits s i with
  | true =>
    obtain ⟨r, hr, hr'⟩ := (Option.any_eq_true ..).mp hw
    have hlimit : s.slots.limit ≤ s.slots.running := by simpa [Slots.isFull] using hfull r hr (isWaiting_iff.mp hr')
    exact .inr (Nat.le_trans hlimit (Nat.le_add_right _ _))
  | false =>
    rcases h with hall | hcount
    · refine .inl fun j hj => (mem_cons.mp (hall j hj)).resolve_left ?_
      rintro rfl
      rw [hw] at hj
      cases hj
    · rw [countP_cons_of_neg (by simp [hw])] at hcount
      exact .inr hcount

theorem Roused.moves (h : Roused t.state t.agenda) (hnodup : t.agenda.Nodup) (hm : t.Moves p u) :
    Roused u.state u.agenda := by
  cases hm with
  | @enter i rest r hagenda hr ha _ =>
    exact h.moved hnodup hr (.start ha rfl rfl) (fun _ => rfl) (hagenda ▸ perm_append_singleton i rest)
  | @choose i rest r hagenda hr ha =>
    exact h.moved hnodup hr (takes_choiceTurn ha) (fun hw => absurd (ha.symm.trans hw) nofun)
      (hagenda ▸ perm_append_singleton i rest)
  | finish hagenda hr hawaits _ =>
    exact h.moved hnodup hr (takes_of_awaits hawaits false false)
      (fun hw => absurd hw (isActive_of_awaits hawaits).1) (hagenda ▸ .refl _)
  | leave hagenda hidle =>
    refine (hagenda ▸ h).leave fun r hr hw => ?_
    rcases hidle r hr with ⟨-, hfull⟩ | ho | ⟨ends, turn, hawaits, -⟩
    · exact hfull
    · exact absurd (hw.symm.trans ho) nofun
    · exact absurd hw (isActive_of_awaits hawaits).1
  | @expire i m r hagenda _ hr ha =>
    exact Roused.moved (t := t.passed m) h hnodup hr (.timeOut ha) (fun hw => absurd hw ha.1) (hagenda ▸ .refl _)
  | @proceed i m hagenda _ =>
    rw [hagenda] at h
    rcases h with hall | hcount
    · exact .inl fun j hj => absurd (hall j hj) not_mem_nil
    · exact .inr (Nat.le_trans hcount (Nat.le_add_right _ _))
  | halt _ _ => exact h

theorem roused_initial (p : Plan τ) (cancelReason : Option String) (requests : List (τ × Request)) :
    Roused (initial p cancelReason requests).state (initial p cancelReason requests).agenda := by
  refine .inl fun i hi => ?_
  obtain ⟨r, hr, -⟩ := (Option.any_eq_true ..).mp hi
  exact List.mem_range.mpr (List.getElem?_eq_some_iff.mp hr).1

theorem Roused.isOver (h : Roused s []) (hs : CampaignState.Reachable p s)
    (hslots : p.assignments ≠ [] → 0 < p.slotCount)
    (hidle : ∀ r ∈ s.jobs, ¬r.IsActive) : s.isOver = true := by
  have hrunning : s.slots.running = 0 := by
    rw [← hs.admitted.count, countP_eq_zero]
    exact fun r hr hrun => hidle r hr ((hs.consistent r hr).running_iff.mp (by simpa using hrun))
  refine all_eq_true.mpr fun r hr => (hs.consistent r hr).isTerminal_iff.mpr ?_
  have hwaiting : r.activity ≠ .waiting := by
    intro hw
    obtain ⟨i, hi⟩ := mem_iff_getElem?.mp hr
    rcases h with hall | hcount
    · exact absurd (hall i ((waits_iff hi).mpr hw)) not_mem_nil
    · have hsome : p.assignments ≠ [] := by
        rw [← hs.assignments]
        exact ne_nil_of_mem (mem_map_of_mem hr)
      have := hslots hsome
      rw [hrunning, hs.admitted.limit, countP_nil] at hcount
      omega
  exact not_not.mp fun ho => hidle r hr ⟨hwaiting, ho⟩

end Timeline

def Timeline.EndsIn (p : Plan τ) (t : Timeline τ) (s : CampaignState τ) : Prop := ∃ fuel, t.run p fuel = .ok (some s)

theorem Timeline.endsIn_of_run {t : Timeline τ} {s : CampaignState τ} {fuel : Nat}
    (h : (t.run p fuel).toOption.join = some s) : t.EndsIn p s := by
  refine ⟨fuel, ?_⟩
  cases hrun : t.run p fuel with
  | error e => simp [hrun, Except.toOption] at h
  | ok o => simpa [hrun, Except.toOption] using h

theorem Timeline.endsIn_of_isOver {t : Timeline τ} (h : t.state.isOver = true) : t.EndsIn p t.state :=
  ⟨0, by rw [run, if_pos h]⟩

theorem Timeline.exists_endsIn_of_step {t u : Timeline τ} (h : t.step p = .ok u) (hu : ∃ s, u.EndsIn p s) :
    ∃ s, t.EndsIn p s := by
  obtain ⟨s, fuel, hrun⟩ := hu
  by_cases hover : t.state.isOver = true
  · exact ⟨_, endsIn_of_isOver hover⟩
  · refine ⟨s, fuel + 1, ?_⟩
    rw [run, if_neg hover, h]
    exact hrun

/-- A campaign of the plan comes to its end in a state if it is left to itself. -/
def Plan.EndsIn (p : Plan τ) (s : CampaignState τ) : Prop := (initial p none []).EndsIn p s

theorem Plan.endsIn_of_runPlan {run : CampaignRun τ} (h : Runner.runPlan p none [] = .ok run) :
    ∃ s, p.EndsIn s ∧ run = Runner.finished p s := by
  unfold Runner.runPlan at h
  split at h
  · cases h
  · cases h
  next s hrun =>
    cases h
    exact ⟨s, ⟨_, hrun⟩, rfl⟩

/-- How many steps guides are away from the ends of their courses, if these come after some steps. -/
def Guide.remaining (last : Assignment τ → Nat) : List (Guide τ) → Nat
  | [] => 0
  | g :: gs => (last g.assignment - g.steps) + remaining last gs

omit [Clock τ] in
theorem Guide.remaining_set_lt {last : Assignment τ → Nat} {gs : List (Guide τ)} {i : Nat} {g : Guide τ}
    (hg : gs[i]? = some g)
    (hlast : g.steps < last g.assignment) (m : τ) : remaining last (gs.set i (g.advance m)) < remaining last gs := by
  induction gs generalizing i with
  | nil => simp at hg
  | cons g' gs ih =>
    cases i with
    | zero =>
      cases hg
      simp only [set_cons_zero, remaining, advance]
      omega
    | succ i =>
      have := ih hg
      simp only [set_cons_succ, remaining]
      omega

namespace Coupled

variable [LawfulClock τ] {t : Timeline τ} {gs : List (Guide τ)}

/-- Some job goes on after finitely many steps, unless all are over: a job that is not ready to go on
    leaves the agenda, and when nobody is on it time passes until one is. -/
theorem exists_endsIn_of_advance (hsteady : p.Steady) (hslots : p.assignments ≠ [] → 0 < p.slotCount)
    (next : ∀ {u : Timeline τ} {i : Nat} {g : Guide τ} {m : τ}, gs[i]? = some g → (g.course p).run.activity ≠ .over →
      Coupled p u (gs.set i (g.advance m)) → Roused u.state u.agenda → ∃ s, u.EndsIn p s)
    (h : Coupled p t gs) (hroused : Roused t.state t.agenda) : ∃ s, t.EndsIn p s := by
  induction hagenda : t.agenda generalizing t with
  | nil =>
    obtain ⟨u, hu, hmoves, ho⟩ := h.step hsteady
    have hroused' := hroused.moves h.nodup hmoves
    cases ho with
    | advance hg hgo h' => exact exists_endsIn_of_step hu (next hg hgo h' hroused')
    | leave heq _ _ => exact absurd (hagenda.symm.trans heq) nofun
    | pass _ heq hripe h' =>
      -- What was waited for has come, so the next step is not to wait again.
      obtain ⟨v, hv, hmoves', ho'⟩ := h'.step hsteady
      refine exists_endsIn_of_step hu (exists_endsIn_of_step hv ?_)
      cases ho' with
      | advance hg hgo h'' => exact next hg hgo h'' (hroused'.moves h'.nodup hmoves')
      | leave heq' hunripe _ =>
        obtain rfl := (List.cons.inj (heq.symm.trans heq')).1
        exact absurd hripe hunripe
      | pass hnil _ _ _ | halt hnil _ _ => exact absurd (heq.symm.trans hnil) nofun
    | halt _ _ hidle =>
      rw [hagenda] at hroused
      exact ⟨_, endsIn_of_isOver (hroused.isOver h.reachable hslots hidle)⟩
  | cons i rest ih =>
    obtain ⟨u, hu, hmoves, ho⟩ := h.step hsteady
    have hroused' := hroused.moves h.nodup hmoves
    cases ho with
    | advance hg hgo h' => exact exists_endsIn_of_step hu (next hg hgo h' hroused')
    | leave heq _ h' =>
      have hrest := (List.cons.inj (hagenda.symm.trans heq)).2
      exact exists_endsIn_of_step hu (ih h' hroused' hrest.symm)
    | pass hnil _ _ _ | halt hnil _ _ => exact absurd (hagenda.symm.trans hnil) nofun

theorem exists_endsIn {last : Assignment τ → Nat} (hsteady : p.Steady) (hslots : p.assignments ≠ [] → 0 < p.slotCount)
    (hlast : ∀ a ∈ p.assignments, (Course.after p a (last a)).run.activity = .over) (h : Coupled p t gs)
    (hroused : Roused t.state t.agenda) : ∃ s, t.EndsIn p s := by
  induction hn : remaining last gs using Nat.strongRecOn generalizing t gs with
  | ind n ih =>
    refine exists_endsIn_of_advance hsteady hslots (fun {u i g m} hg hgo h' hroused' => ?_) h hroused
    have hmem : g.assignment ∈ p.assignments := h.assignments ▸ mem_map_of_mem (mem_of_getElem? hg)
    -- The job had not come to the end of its course, so it has fewer steps to go now.
    have hbefore : g.steps < last g.assignment := by
      by_contra hle
      have hsame : g.course p = .after p g.assignment (last g.assignment) :=
        Course.after_eq_of_le (hlast _ hmem) (Nat.not_lt.mp hle)
      exact hgo (hsame ▸ hlast _ hmem)
    exact ih _ (hn ▸ remaining_set_lt hg hbefore m) h' hroused' rfl

end Coupled

variable {τ : Type} {p : Plan τ}

namespace CampaignState

theorem report_eq {s s' : CampaignState τ} {q : Plan τ} (hfindings : s.findings.Perm s'.findings)
    (hdiagnostics : s.diagnostics.Perm s'.diagnostics) :
    (ofState p s).report.findings = (ofState q s').report.findings ∧
      (ofState p s).report.diagnostics = (ofState q s').report.diagnostics := by
  have heq := aggregate_of_perm fuzzRuleOrder [] hfindings fun d => hdiagnostics.mem_iff (a := d)
  have hfound := congrArg Report.findings heq
  have hcomplained := congrArg Report.diagnostics heq
  -- what the report says about the campaign itself does not change its findings
  exact ⟨hfound, hcomplained⟩

end CampaignState

def Job.timeless (j : Job τ) : Job τ := { j with startedAt := none, finishedAt := none }

/-- Two campaigns come to the same: their jobs differ in nothing but their times, they count the same,
    and their reports have the same findings and diagnostics, in the same order. -/
structure Campaign.Agrees (c d : Campaign τ) : Prop where
  jobs : c.jobs.map timeless = d.jobs.map timeless
  executions : c.stats.executions = d.stats.executions
  crashes : c.stats.crashes = d.stats.crashes
  violations : c.stats.violations = d.stats.violations
  timeouts : c.stats.timeouts = d.stats.timeouts
  failed : c.stats.failed = d.stats.failed
  cancelled : c.stats.cancelled = d.stats.cancelled
  completed : c.stats.completed = d.stats.completed
  coverage : c.stats.coverage.Perm d.stats.coverage
  findings : c.report.findings = d.report.findings
  diagnostics : c.report.diagnostics = d.report.diagnostics

theorem totalExecutions_timeless (jobs : List (Job τ)) :
    totalExecutions (jobs.map timeless) = totalExecutions jobs := by
  induction jobs with
  | nil => rfl
  | cons j jobs ih =>
    rw [map_cons, totalExecutions, totalExecutions, ih]
    rfl

/-- What a campaign counts and finds is read off its jobs, whenever they did what they did. -/
theorem CampaignState.Reachable.agrees [Clock τ] {q : Plan τ} {s s' : CampaignState τ} (h : Reachable p s)
    (h' : Reachable q s')
    (hjobs : (s.jobs.map (·.job)).map timeless = (s'.jobs.map (·.job)).map timeless)
    (hdiagnostics : s.diagnostics.Perm s'.diagnostics) (hcoverage : s.stats.coverage.Perm s'.stats.coverage) :
    (ofState p s).Agrees (.ofState q s') := by
  have counted (test : Job τ → Bool) (htest : ∀ j, test j.timeless = test j) (s : CampaignState τ) :
      s.jobs.countP (test ·.job) = ((s.jobs.map (·.job)).map timeless).countP test := by
    rw [countP_map, countP_map]
    exact countP_congr fun r _ => by simp [htest]
  have ended (new : JobState) (hnew : new.isTerminal = true) : s.stats.ended new = s'.stats.ended new := by
    have hcount := counted (decide <| ·.state = new) (fun _ => rfl)
    rw [h.tallied.ended new hnew, h'.tallied.ended new hnew]
    exact (hcount s).trans ((congrArg _ hjobs).trans (hcount s').symm)
  have broken (violation : Bool) : s.stats.broken violation = s'.stats.broken violation := by
    have hcount := counted (·.finding.any (·.ruleId == brokenRule violation)) (fun _ => rfl)
    rw [h.tallied.broken, h'.tallied.broken]
    exact (hcount s).trans ((congrArg _ hjobs).trans (hcount s').symm)
  have found : s.findings.Perm s'.findings := by
    have hfound (s : CampaignState τ) : s.jobs.filterMap (·.job.finding) =
        ((s.jobs.map (·.job)).map timeless).filterMap (·.finding) := by
      rw [filterMap_map, filterMap_map]
      rfl
    have hsame : s.jobs.filterMap (·.job.finding) = s'.jobs.filterMap (·.job.finding) := by rw [hfound, hfound, hjobs]
    exact h.tallied.findings.trans (hsame ▸ h'.tallied.findings.symm)
  obtain ⟨hfindings, hcomplaints⟩ := report_eq (p := p) (q := q) found hdiagnostics
  exact {
    jobs := hjobs
    executions := by
      have hsum := congrArg totalExecutions hjobs
      rwa [totalExecutions_timeless, totalExecutions_timeless, ← h.tallied.executions, ← h'.tallied.executions] at hsum
    crashes := broken false
    violations := broken true
    timeouts := ended .timedOut rfl
    failed := ended .failed rfl
    cancelled := ended .cancelled rfl
    completed := ended .completed rfl
    coverage := hcoverage
    findings := hfindings
    diagnostics := hcomplaints }

theorem Plan.slotCount_pos {n : Amount} (hn : ∀ k ∈ n.whole?, 1 ≤ k) (hsome : p.assignments ≠ []) :
    0 < (p.withJobCount n).slotCount := by
  unfold slotCount
  split
  next k hk =>
    have := hn k hk
    omega
  · exact length_pos_iff.mpr hsome

namespace Coupled

variable [Clock τ] {n n' : Amount} {t t' : Timeline τ} {gs gs' : List (Guide τ)}

theorem map_timeless (h : Coupled p t gs) :
    (t.state.jobs.map (·.job)).map timeless = gs.map fun g => (g.course p).run.job.timeless := by
  rw [map_map]
  refine ext_getElem (by simp [h.length_eq]) fun i hi hi' => ?_
  rw [length_map] at hi hi'
  rw [getElem_map, getElem_map]
  show t.state.jobs[i].job.timeless = _
  rw [(h.follows i _ _ (getElem?_eq_getElem hi) (getElem?_eq_getElem hi')).1]
  rfl

theorem courses_eq (h : Coupled (p.withJobCount n) t gs) (h' : Coupled (p.withJobCount n') t' gs')
    (hover : t.state.isOver = true) (hover' : t'.state.isOver = true) :
    gs.map (·.course p) = gs'.map (·.course p) := by
  have hsame : gs.map (·.assignment) = gs'.map (·.assignment) := h.assignments.trans h'.assignments.symm
  refine ext_getElem (by simpa using congrArg List.length hsame) fun i hi hi' => ?_
  rw [length_map] at hi hi'
  have hend := h.course_over hover (getElem_mem hi)
  have hend' := h'.course_over hover' (getElem_mem hi')
  have ha : gs[i].assignment = gs'[i].assignment := by simpa [hi, hi'] using congrArg (·[i]?) hsame
  rw [course_withJobCount] at hend hend'
  rw [getElem_map, getElem_map]
  rw [course, ha] at hend ⊢
  exact Course.after_eq_of_over hend hend'

theorem agrees (h : Coupled (p.withJobCount n) t gs) (h' : Coupled (p.withJobCount n') t' gs')
    (hover : t.state.isOver = true) (hover' : t'.state.isOver = true) :
    (ofState (p.withJobCount n) t.state).Agrees (.ofState (p.withJobCount n') t'.state) := by
  have hcourses := h.courses_eq h' hover hover'
  have flat {α : Type} (f : Course τ → List α) :
      (gs.flatMap fun g => f (g.course p)) = gs'.flatMap fun g => f (g.course p) := by
    rw [← flatMap_map, hcourses, flatMap_map]
  refine h.reachable.agrees h'.reachable ?jobs ?diagnostics ?coverage
  case jobs =>
    have hjobs := congrArg (List.map fun c => c.run.job.timeless) hcourses
    rw [map_map, map_map] at hjobs
    rw [h.map_timeless, h'.map_timeless]
    simp only [course_withJobCount]
    exact hjobs
  case diagnostics =>
    have hd := h.diagnostics
    have hd' := h'.diagnostics
    simp only [course_withJobCount] at hd hd'
    rw [flat] at hd
    exact hd.trans hd'.symm
  case coverage =>
    refine (perm_ext_iff_of_nodup h.coverage h'.coverage).mpr fun k => ?_
    have hk := h.covered k
    have hk' := h'.covered k
    simp only [course_withJobCount] at hk hk'
    rw [hk, hk', flat]

end Coupled

section JobCounts
variable [Clock τ] [LawfulClock τ] {n n' : Amount} {s : CampaignState τ}

theorem Plan.EndsIn.coupled (h : p.EndsIn s) (hsteady : p.Steady) (hwatches : p.watches = [])
    (hdeadline : p.limits.campaign = none) : s.isOver = true ∧ ∃ t gs, t.state = s ∧ Coupled p t gs := by
  obtain ⟨fuel, hrun⟩ := h
  exact (Coupled.initial hwatches hdeadline).run hsteady hrun

theorem exists_endsIn_withJobCount (hsteady : p.Steady) (hwatches : p.watches = [])
    (hdeadline : p.limits.campaign = none)
    (hn' : ∀ k ∈ n'.whole?, 1 ≤ k) (hs : (p.withJobCount n).EndsIn s) : ∃ s', (p.withJobCount n').EndsIn s' := by
  obtain ⟨hover, t, gs, rfl, h⟩ := hs.coupled hsteady hwatches hdeadline
  -- The courses end for the one job count, and they are the same for the other.
  have hends : ∀ a, ∃ k, a ∈ p.assignments → (Course.after (p.withJobCount n') a k).run.activity = .over := by
    intro a
    by_cases ha : a ∈ p.assignments
    · have ha' : a ∈ gs.map (·.assignment) := h.assignments ▸ ha
      obtain ⟨g, hg, rfl⟩ := mem_map.mp ha'
      refine ⟨g.steps, fun _ => ?_⟩
      have hend := h.course_over hover hg
      rw [course_withJobCount] at hend
      rw [Course.after_withJobCount]
      exact hend
    · exact ⟨0, fun ha' => absurd ha' ha⟩
  obtain ⟨last, hlast⟩ := Classical.skolem.mp hends
  have h' : Coupled (p.withJobCount n') (.initial _ none []) _ := .initial hwatches hdeadline
  exact h'.exists_endsIn hsteady (Plan.slotCount_pos hn') hlast (roused_initial _ _ _)

end JobCounts

/-- What a campaign finds does not depend on its job count, if targets react to the input alone and nobody
    stops the campaign, on a clock that is exact. It comes to its end with one job count if and only if it
    does with another, and then both campaigns come to the same. -/
theorem jobCount_irrelevant [Clock τ] [LawfulClock τ] (p : Plan τ) (hsteady : p.Steady) (hwatches : p.watches = [])
    (hdeadline : p.limits.campaign = none) (n n' : Amount) (hn : ∀ k ∈ n.whole?, 1 ≤ k) (hn' : ∀ k ∈ n'.whole?, 1 ≤ k) :
    ((∃ s, (p.withJobCount n).EndsIn s) ↔ ∃ s', (p.withJobCount n').EndsIn s') ∧
    (∀ s s', (p.withJobCount n).EndsIn s → (p.withJobCount n').EndsIn s' →
      (Campaign.ofState (p.withJobCount n) s).Agrees (.ofState (p.withJobCount n') s')) ∧
    (∀ run run', Runner.runPlan (p.withJobCount n) none [] = .ok run →
      Runner.runPlan (p.withJobCount n') none [] = .ok run' → run.campaign.Agrees run'.campaign) := by
  have agree : ∀ s s', (p.withJobCount n).EndsIn s → (p.withJobCount n').EndsIn s' →
      (ofState (p.withJobCount n) s).Agrees (.ofState (p.withJobCount n') s') := by
    intro s s' hs hs'
    obtain ⟨hover, t, gs, rfl, h⟩ := hs.coupled hsteady hwatches hdeadline
    obtain ⟨hover', t', gs', rfl, h'⟩ := hs'.coupled hsteady hwatches hdeadline
    exact h.agrees h' hover hover'
  refine ⟨⟨?_, ?_⟩, agree, ?_⟩
  · rintro ⟨s, hs⟩
    exact exists_endsIn_withJobCount hsteady hwatches hdeadline hn' hs
  · rintro ⟨s', hs'⟩
    exact exists_endsIn_withJobCount hsteady hwatches hdeadline hn hs'
  · intro run run' hrun hrun'
    obtain ⟨s, hs, rfl⟩ := Plan.endsIn_of_runPlan hrun
    obtain ⟨s', hs', rfl⟩ := Plan.endsIn_of_runPlan hrun'
    exact agree s s' hs hs'

/-- Two jobs that share a slot, or have one each. -/
theorem jobCount_irrelevant_samplePlan :
    samplePlan.Steady ∧ samplePlan.watches = [] ∧ samplePlan.limits.campaign = none ∧
    ∃ s s', (samplePlan.withJobCount (.whole 1)).EndsIn s ∧ (samplePlan.withJobCount (.whole 2)).EndsIn s' ∧
      (Campaign.ofState (samplePlan.withJobCount (.whole 1)) s).Agrees
        (.ofState (samplePlan.withJobCount (.whole 2)) s') := by
  have hsteady : samplePlan.Steady := by
    intro target htarget call call' input
    rcases List.mem_cons.mp htarget with rfl | htarget
    · rfl
    · rw [List.mem_singleton.mp htarget]
      rfl
  have hends : ((initial (samplePlan.withJobCount (.whole 1)) none []).run
      (samplePlan.withJobCount (.whole 1)) 60).toOption.join.isSome = true := by decide
  obtain ⟨s, hrun⟩ := Option.isSome_iff_exists.mp hends
  have hs : (samplePlan.withJobCount (.whole 1)).EndsIn s := endsIn_of_run hrun
  obtain ⟨hiff, hagree, -⟩ := jobCount_irrelevant samplePlan hsteady rfl rfl (.whole 1) (.whole 2) (by decide)
    (by decide)
  obtain ⟨s', hs'⟩ := hiff.mp ⟨s, hs⟩
  exact ⟨hsteady, rfl, rfl, s, s', hs, hs', hagree s s' hs hs'⟩

/-- A target that takes its time for each input, and crashes on one byte. -/
def slowTarget (name : String) (span : Float) (crashing : UInt8) : Target Float where
  name := name
  implementation := "FunctionTarget"
  prepare := .now (.ok ())
  react _ input := ⟨some span, .ok (if input = [crashing] then { status := .crash, message := "broken" } else {})⟩

/-- The second job executes three inputs for a tenth of a second each, and has three tenths. -/
def tenthsPlan : Plan Float where
  campaignId := "5f0c9a34-77c1-4be2-9d0e-3a2b1c0d4e5f"
  settings := {}
  jobCount := .whole 1
  perJobTimeout := .double 0.3
  limits := { job := 0.3, grace := some 5 }
  targets := [slowTarget "vault" 0.08 0, slowTarget "pool" 0.1 3]
  strategies := [.seedReplay]
  corpus := { seeds := [[1], [2], [3]] }

/-- On doubles the job count can decide what a campaign finds. Three tenths of a second are over after 0.3 s if
    the job starts at once, and before 0.54 s if it starts at 0.24 s, so that it crashes only in the second case. -/
theorem jobCount_relevant_tenthsPlan :
    tenthsPlan.Steady ∧ tenthsPlan.watches = [] ∧ tenthsPlan.limits.campaign = none ∧
    (0.3 : Float) < 0.1 + 0.1 + 0.1 ∧ (0.24 + 0.1 + 0.1 + 0.1 : Float) < 0.24 + 0.3 ∧
    ∃ s s', (tenthsPlan.withJobCount (.whole 1)).EndsIn s ∧ (tenthsPlan.withJobCount (.whole 2)).EndsIn s' ∧
      s.stats.crashes = 1 ∧ s'.stats.crashes = 0 ∧
      ¬(Campaign.ofState (tenthsPlan.withJobCount (.whole 1)) s).Agrees
        (.ofState (tenthsPlan.withJobCount (.whole 2)) s') := by
  have hsteady : tenthsPlan.Steady := by
    intro target htarget call call' input
    rcases List.mem_cons.mp htarget with rfl | htarget
    · rfl
    · rw [List.mem_singleton.mp htarget]
      rfl
  have ends {n : Amount} {k : Nat} (h : ((initial (tenthsPlan.withJobCount n) none []).run
      (tenthsPlan.withJobCount n) 60).toOption.join.map (·.stats.crashes) = some k) :
      ∃ s, (tenthsPlan.withJobCount n).EndsIn s ∧ s.stats.crashes = k := by
    obtain ⟨s, hrun, hcrashes⟩ := Option.map_eq_some_iff.mp h
    exact ⟨s, endsIn_of_run hrun, hcrashes⟩
  obtain ⟨s, hs, hcrashes⟩ := ends (n := .whole 1) (k := 1) (by decide +kernel)
  obtain ⟨s', hs', hcrashes'⟩ := ends (n := .whole 2) (k := 0) (by decide +kernel)
  refine ⟨hsteady, rfl, rfl, by decide +kernel, by decide +kernel, s, s', hs, hs', hcrashes, hcrashes', fun h => ?_⟩
  have hsame : s.stats.crashes = s'.stats.crashes := h.crashes
  omega

end ContractAudit

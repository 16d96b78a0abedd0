import ContractAudit.Proofs.Accounting
import ContractAudit.Proofs.Pace

/-! # Jobs go through their courses

Each job of a campaign that is left to itself is somewhere on its course, moved in time to the moment at
which it started; one that is not on the agenda has gone as far as it can. -/

namespace ContractAudit
open List Timeline Clock Course JobRun Activity

variable {τ : Type} [Clock τ] {p : Plan τ}

/-! ### One job -/

/-- How a job keeps up with its course, which began at a moment; the job is on the agenda or not. -/
inductive Paced (p : Plan τ) (now : τ) (queued : Prop) (m : τ) (c : Course τ) : Prop where
  | idle : c.run.activity = .waiting ∨ c.run.activity = .over → Paced p now queued m c
  /-- It has come so far at this moment. -/
  | current : queued → now = after m c.now → Paced p now queued m c
  /-- What it waits for ends at this moment. -/
  | due {e : τ} {turn : Turn} : queued → c.run.awaits? = some (some e, turn) → before c.now e = true →
      before e (limit p) = true → now = after m e → Paced p now queued m c
  /-- It waits for something. -/
  | asleep {ends : Option τ} {turn : Turn} : ¬queued → c.run.awaits? = some (ends, turn) →
      (∀ e ∈ ends, before c.now e = true ∧ before (after m e) now = false) →
      before (after m (limit p)) now = false → Paced p now queued m c

namespace Paced

variable {now m : τ} {queued queued' : Prop} {c : Course τ}

theorem congr (h : Paced p now queued m c) (hq : c.run.activity ≠ .waiting → (queued ↔ queued')) :
    Paced p now queued' m c := by
  by_cases hw : c.run.activity = .waiting
  · exact .idle (.inl hw)
  · have hq := hq hw
    cases h with
    | idle hidle => exact .idle hidle
    | current hqueued hnow => exact .current (hq.mp hqueued) hnow
    | due hqueued hawaits he hlimit hnow => exact .due (hq.mp hqueued) hawaits he hlimit hnow
    | asleep hqueued hawaits hends hlimit => exact .asleep (mt hq.mpr hqueued) hawaits hends hlimit

theorem of_not_isActive (h : ¬c.run.IsActive) : Paced p now queued m c :=
  .idle (Classical.or_iff_not_imp_left.mpr fun hw => not_not.mp fun ho => h ⟨hw, ho⟩)

end Paced

/-- A course that began at a moment, after a number of steps. -/
structure Guide (τ : Type) where
  assignment : Assignment τ
  start : τ
  steps : Nat

namespace Guide

variable (p)

def course (g : Guide τ) : Course τ := .after p g.assignment g.steps

def advance (g : Guide τ) (m : τ) : Guide τ := { g with start := m, steps := g.steps + 1 }

theorem course_advance (g : Guide τ) (m : τ) : (g.advance m).course p = (g.course p).next p := rfl

theorem course_withJobCount (n : Amount) (g : Guide τ) : g.course (p.withJobCount n) = g.course p :=
  after_withJobCount p n g.assignment g.steps

theorem regular [LawfulClock τ] (g : Guide τ) : Course.Regular p g.assignment (g.course p) :=
  regular_after p g.assignment g.steps

end Guide

/-! ### All jobs -/

theorem flatMap_set_perm {α β : Type} {l : List α} {i : Nat} {a b : α} {f : α → List β} {added : List β}
    (h : l[i]? = some a) (hb : f b = f a ++ added) : ((l.set i b).flatMap f).Perm (l.flatMap f ++ added) := by
  have hperm := (perm_set h b).flatMap_right f
  rw [flatMap_cons, flatMap_cons, hb, append_assoc, perm_append_left_iff] at hperm
  exact hperm.trans perm_append_comm

/-- Each job of the campaign is on its course, and what they complained about and covered is what the
    campaign has recorded. -/
structure Coupled (p : Plan τ) (t : Timeline τ) (gs : List (Guide τ)) : Prop where
  reachable : t.state.Reachable p
  undisturbed : t.Undisturbed p
  nodup : t.agenda.Nodup
  assignments : gs.map (·.assignment) = p.assignments
  follows : ∀ (i : Nat) (r : JobRun τ) (g : Guide τ), t.state.jobs[i]? = some r → gs[i]? = some g →
    r = (g.course p).run.shift g.start ∧ Paced p t.state.now (i ∈ t.agenda) g.start (g.course p)
  diagnostics : t.state.diagnostics.Perm (gs.flatMap fun g => (g.course p).diagnostics)
  covered : ∀ n, n ∈ t.state.stats.coverage ↔ n ∈ gs.flatMap fun g => (g.course p).covered
  coverage : t.state.stats.coverage.Nodup

/-! ### What is recorded -/

namespace CampaignStats

theorem coverage_countState (s : CampaignStats) (new : JobState) : (s.countState new).coverage = s.coverage := by
  cases new <;> rfl

theorem mem_coverage_countResult {s : CampaignStats} {result : ExecutionResult} {n : Int} :
    n ∈ (s.countResult result).coverage ↔ n ∈ s.coverage ∨ n ∈ result.coverage := by
  show n ∈ result.coverage.foldl _ s.coverage ↔ _
  generalize s.coverage = all
  induction result.coverage generalizing all with
  | nil => simp
  | cons k l ih =>
    rw [foldl_cons, ih]
    split <;> grind

theorem nodup_coverage_countResult {s : CampaignStats} (h : s.coverage.Nodup) (result : ExecutionResult) :
    (s.countResult result).coverage.Nodup := by
  show (result.coverage.foldl _ s.coverage).Nodup
  revert h
  generalize s.coverage = all
  induction result.coverage generalizing all with
  | nil => exact id
  | cons k l ih =>
    intro h
    rw [foldl_cons]
    refine ih _ ?_
    split
    · exact h
    next hk => exact nodup_append.mpr ⟨h, by simp, fun a ha b hb hab => by simp_all⟩

end CampaignStats

namespace Turn

theorem mem_coverage_counted {s : CampaignStats} {t : Turn} {n : Int} :
    n ∈ (t.counted s).coverage ↔ n ∈ s.coverage ∨ n ∈ t.result?.elim [] (·.coverage) := by
  have hstate : (t.counted s).coverage = (t.result?.elim s s.countResult).coverage := by
    unfold counted
    cases t.state? with
    | none => rfl
    | some new => exact CampaignStats.coverage_countState _ new
  rw [hstate]
  cases t.result? with
  | none => simp
  | some result => exact CampaignStats.mem_coverage_countResult

theorem nodup_coverage_counted {s : CampaignStats} (h : s.coverage.Nodup) (t : Turn) :
    (t.counted s).coverage.Nodup := by
  have hresult : (t.result?.elim s s.countResult).coverage.Nodup := by
    cases t.result? with
    | none => exact h
    | some result => exact CampaignStats.nodup_coverage_countResult h result
  unfold counted
  cases t.state? with
  | none => exact hresult
  | some new => exact (CampaignStats.coverage_countState _ new).symm ▸ hresult

theorem diagnostics_shift (m : τ) (r : JobRun τ) (t : Turn) : t.diagnostics (r.shift m) = t.diagnostics r := by
  cases t <;> rfl

omit [Clock τ] in
theorem stopReason?_eq_none (h : p.watches = []) (r : JobRun τ) (t : Turn) : t.stopReason? p r = none := by
  rw [stopReason?, h]
  cases t.state? <;> rfl

end Turn

namespace Coupled
variable {turn : Turn} {ends : Option τ}

open CampaignState

variable {t u : Timeline τ} {gs : List (Guide τ)} {i : Nat} {r : JobRun τ} {g : Guide τ}

variable (h : Coupled p t gs)
include h

theorem length_eq : gs.length = t.state.jobs.length := by
  have hsame := congrArg List.length (h.assignments.trans h.reachable.assignments.symm)
  rwa [length_map, length_map] at hsame

theorem exists_guide (hr : t.state.jobs[i]? = some r) : ∃ g, gs[i]? = some g :=
  ⟨_, List.getElem?_eq_getElem (h.length_eq ▸ (List.getElem?_eq_some_iff.mp hr).1)⟩

theorem exists_job (hg : gs[i]? = some g) : ∃ r, t.state.jobs[i]? = some r :=
  ⟨_, List.getElem?_eq_getElem (h.length_eq ▸ (List.getElem?_eq_some_iff.mp hg).1)⟩

theorem moved [LawfulClock τ] {m now : τ} {agenda : List Nat} (hsteady : p.Steady)
    (hreach : Reachable p (t.moved p i r turn agenda).state) (hr : t.state.jobs[i]? = some r) (hg : gs[i]? = some g)
    (hrun : r = (g.course p).run.shift m) (hnow : t.state.now = after m now)
    (hnext : (g.course p).next p = (g.course p).take p now turn) (hagenda : agenda.Perm t.agenda)
    (hi : i ∈ agenda ∨ ((g.course p).next p).run.activity = .over) :
    Coupled p (t.moved p i r turn agenda) (gs.set i (g.advance m)) := by
  have hcourse : (g.advance m).course p = (g.course p).take p now turn := (Guide.course_advance p g m).trans hnext
  have hafter : r.after p t.state.now (t.state.calls.getD r.place 0) turn = ((g.advance m).course p).run.shift m := by
    have htarget : (g.course p).run.target ∈ p.targets := by
      have := h.reachable.target_mem hr
      rwa [hrun] at this
    have hshift := after_shift (p := p) (hsteady _ htarget) m now (t.state.calls.getD r.place 0) 0 turn
    rw [← hrun, ← hnow] at hshift
    rw [hshift, hcourse]
    rfl
  constructor
  case reachable => exact hreach
  case undisturbed =>
    refine { h.undisturbed with cancelReason := ?_ }
    show (t.state.cancelReason <|> turn.stopReason? p r) = none
    rw [h.undisturbed.cancelReason, Turn.stopReason?_eq_none h.undisturbed.watches]
    rfl
  case nodup => exact nodup_wake (hagenda.nodup_iff.mpr h.nodup)
  case assignments =>
    obtain ⟨_, rfl⟩ := List.getElem?_eq_some_iff.mp hg
    rw [← h.assignments, map_set]
    show (gs.map (·.assignment)).set i gs[i].assignment = _
    rw [← map_set, set_getElem_self]
  case follows =>
    intro j q g' hq hg'
    have hq' : (t.state.commit p i r turn).jobs[j]? = some q := hq
    by_cases hj : j = i
    · subst hj
      rw [commit, getElem?_set_of_some hr] at hq'
      rw [getElem?_set_of_some hg] at hg'
      cases hg'
      cases hq'
      refine ⟨hafter, ?_⟩
      rcases hi with hi | hover
      · exact .current (mem_wake hi) (by rw [hcourse]; exact hnow)
      · exact .idle (.inr hover)
    · rw [commit, getElem?_set_ne (Ne.symm hj)] at hq'
      rw [getElem?_set_ne (Ne.symm hj)] at hg'
      obtain ⟨hshift, hpaced⟩ := h.follows j q g' hq' hg'
      refine ⟨hshift, hpaced.congr fun hw => ?_⟩
      have hw' : q.activity ≠ .waiting := by
        rw [hshift]
        exact mt shift_eq_waiting.mp hw
      exact ((mem_wake_iff hq hw').trans hagenda.mem_iff).symm
  case diagnostics =>
    have hperm := flatMap_set_perm (f := fun g => (g.course p).diagnostics) (b := g.advance m) hg
      (congrArg Course.diagnostics hcourse)
    have hsame : turn.diagnostics r = turn.diagnostics (g.course p).run := by rw [hrun, Turn.diagnostics_shift]
    show (t.state.diagnostics ++ turn.diagnostics r).Perm _
    rw [hsame]
    exact (h.diagnostics.append_right _).trans hperm.symm
  case covered =>
    intro n
    have hperm := flatMap_set_perm (f := fun g => (g.course p).covered) (b := g.advance m) hg
      (congrArg Course.covered hcourse)
    rw [hperm.mem_iff, mem_append, ← h.covered n]
    exact Turn.mem_coverage_counted
  case coverage => exact Turn.nodup_coverage_counted h.coverage turn

theorem asleep (hagenda : t.agenda = []) (hr : t.state.jobs[i]? = some r)
    (hg : gs[i]? = some g) (ha : r.IsActive) : ∃ ends turn, (g.course p).run.awaits? = some (ends, turn) ∧
      (∀ e ∈ ends, before (g.course p).now e = true ∧ before (after g.start e) t.state.now = false) ∧
      before (after g.start (limit p)) t.state.now = false := by
  obtain ⟨hshift, hpaced⟩ := h.follows i r g hr hg
  have hqueued : i ∉ t.agenda := hagenda ▸ not_mem_nil
  cases hpaced with
  | idle hidle =>
    obtain ⟨hwaiting, hover⟩ := isActive_shift.mp (hshift ▸ ha)
    exact absurd hidle (not_or.mpr ⟨hwaiting, hover⟩)
  | current hq _ => exact absurd hq hqueued
  | due hq _ _ _ _ => exact absurd hq hqueued
  | @asleep ends turn _ hawaits hends hlimit => exact ⟨ends, turn, hawaits, hends, hlimit⟩

section
variable (hr : t.state.jobs[i]? = some r) (hg : gs[i]? = some g)
include hr hg

theorem jobDeadline?_eq [LawfulClock τ] (ha : r.IsActive) : jobDeadline? p r = some (after g.start (limit p)) := by
  have hshift := (h.follows i r g hr hg).1
  have hactive : (g.course p).run.IsActive := isActive_shift.mp (hshift ▸ ha)
  have hstarted : r.job.startedAt = some g.start := by
    rw [hshift]
    show (g.course p).run.job.startedAt.map (after g.start) = _
    rw [(g.regular p).startedAt hactive, Option.map_some, LawfulClock.after_start]
  rw [jobDeadline?_of_isActive ha, hstarted, Option.map_some, limit, ← later_after, LawfulClock.after_start]

theorem mem_expiries [LawfulClock τ] (ha : r.IsActive) : (after g.start (limit p), .expire i) ∈ t.expiries p :=
  Timeline.mem_expiries.mpr ⟨i, r, hr, h.jobDeadline?_eq hr hg ha, rfl⟩

theorem exists_awaits (hawaits : r.awaits? = some (ends, turn)) :
    ∃ own, (g.course p).run.awaits? = some (own, turn) ∧ ends = own.map (after g.start) := by
  rw [(h.follows i r g hr hg).1, awaits?_shift, Option.map_eq_some_iff] at hawaits
  obtain ⟨⟨own, turn'⟩, hown, heq⟩ := hawaits
  cases heq
  exact ⟨own, hown, rfl⟩

theorem activityEnd?_eq (hawaits : (g.course p).run.awaits? = some (ends, turn)) :
    activityEnd? r = ends.map (after g.start) := by
  rw [Timeline.activityEnd?_eq, (h.follows i r g hr hg).1, awaits?_shift, hawaits]
  rfl

theorem mem_endings {e : τ} (hawaits : (g.course p).run.awaits? = some (ends, turn)) (he : e ∈ ends) :
    (after g.start e, .proceed i) ∈ t.endings := by
  have hend : activityEnd? r = some (after g.start e) := by
    rw [h.activityEnd?_eq hr hg hawaits, Option.mem_def.mp he, Option.map_some]
  exact Timeline.mem_endings.mpr ⟨i, r, hr, hend, rfl⟩

end

theorem passed [LawfulClock τ] {d : τ × Due τ} (hagenda : t.agenda = [])
    (hearliest : earliest (t.expiries p ++ t.endings) = some d) (hnow : before d.1 t.state.now = false) :
    (t.passed d.1).state.now = d.1 ∧ Coupled p (t.passed d.1) gs := by
  have hpassed : (t.passed d.1).state.now = d.1 := by
    show notBefore t.state.now d.1 = d.1
    rw [notBefore, hnow]
    rfl
  refine ⟨hpassed, { h with
    reachable := h.reachable.next (.tick _), undisturbed := { h.undisturbed with }, follows := ?_ }⟩
  intro j q g' hq hg'
  have hq' : t.state.jobs[j]? = some q := hq
  obtain ⟨hshift, hpaced⟩ := h.follows j q g' hq' hg'
  refine ⟨hshift, ?_⟩
  rw [hpassed]
  by_cases ha : q.IsActive
  · obtain ⟨ends, turn, hawaits, hends, -⟩ := h.asleep hagenda hq' hg' ha
    have hfirst := before_earliest hearliest
    refine .asleep (hagenda ▸ not_mem_nil) hawaits (fun e he => ⟨(hends e he).1, ?_⟩) ?_
    · exact hfirst _ (mem_append_right _ (h.mem_endings hq' hg' hawaits he))
    · exact hfirst _ (mem_append_left _ (h.mem_expiries hq' hg' ha))
  · exact .of_not_isActive fun hactive => ha (hshift ▸ isActive_shift.mpr hactive)

end Coupled

/-! ### Steps -/

def Timeline.Ripe (t : Timeline τ) (i : Nat) : Prop :=
  ∃ r ends turn, t.state.jobs[i]? = some r ∧ r.awaits? = some (ends, turn) ∧ t.isDue ends = true

/-- What a step of the campaign means for the courses of its jobs. -/
inductive Onward (p : Plan τ) (t : Timeline τ) (gs : List (Guide τ)) (u : Timeline τ) : Prop where
  | advance {i : Nat} {g : Guide τ} {m : τ} : gs[i]? = some g → (g.course p).run.activity ≠ .over →
      Coupled p u (gs.set i (g.advance m)) → Onward p t gs u
  | leave {i : Nat} : t.agenda = i :: u.agenda → ¬t.Ripe i → Coupled p u gs → Onward p t gs u
  | pass {i : Nat} : t.agenda = [] → u.agenda = [i] → u.Ripe i → Coupled p u gs → Onward p t gs u
  | halt : t.agenda = [] → u = t → (∀ r ∈ t.state.jobs, ¬r.IsActive) → Onward p t gs u

namespace Coupled

open CampaignState LawfulClock

variable [LawfulClock τ] {t : Timeline τ} {gs : List (Guide τ)} {i : Nat} {rest : List Nat} {r : JobRun τ}

variable (h : Coupled p t gs)
include h

theorem enter (hsteady : p.Steady) (hagenda : t.agenda = i :: rest) (hr : t.state.jobs[i]? = some r)
    (ha : r.activity = .waiting) (hreach : Reachable p (t.moved p i r .start (rest ++ [i])).state) :
    Onward p t gs (t.moved p i r .start (rest ++ [i])) := by
  obtain ⟨g, hg⟩ := h.exists_guide hr
  have hshift := (h.follows i r g hr hg).1
  have hwaiting : (g.course p).run.activity = .waiting := shift_eq_waiting.mp (hshift ▸ ha)
  have hfresh := (g.regular p).waiting hwaiting
  -- A job that has not started yet is the same whenever it starts.
  have hrun : r = (g.course p).run.shift t.state.now := by
    rw [hshift, hfresh, ofAssignment_shift, ofAssignment_shift]
  refine .advance hg (by simp [hwaiting]) (h.moved hsteady hreach hr hg hrun (after_start _).symm
    (next_of_waiting hwaiting) (hagenda ▸ perm_append_singleton i rest) (.inl (by simp)))

theorem choose (hsteady : p.Steady) (hagenda : t.agenda = i :: rest) (hr : t.state.jobs[i]? = some r)
    (ha : r.activity = .ready) (hreach : Reachable p (t.moved p i r (r.choiceTurn p false) (rest ++ [i])).state) :
    Onward p t gs (t.moved p i r (r.choiceTurn p false) (rest ++ [i])) := by
  obtain ⟨g, hg⟩ := h.exists_guide hr
  obtain ⟨hshift, hpaced⟩ := h.follows i r g hr hg
  have hready : (g.course p).run.activity = .ready := shift_eq_ready.mp (hshift ▸ ha)
  have hnothing : (g.course p).run.awaits? = none := by simp [awaits?, hready]
  have hnow : t.state.now = after g.start (g.course p).now := by
    cases hpaced with
    | idle hidle => simp [hready] at hidle
    | current _ hnow => exact hnow
    | due _ hawaits _ _ _ | asleep _ hawaits _ _ => cases hnothing.symm.trans hawaits
  have hnext : (g.course p).next p = (g.course p).take p (g.course p).now (r.choiceTurn p false) := by
    rw [hshift, choiceTurn_shift]
    exact next_of_ready hready
  exact .advance hg (by simp [hready]) (h.moved hsteady hreach hr hg hshift hnow hnext
    (hagenda ▸ perm_append_singleton i rest) (.inl (by simp)))

theorem finish {ends : Option τ} {turn : Turn} (hsteady : p.Steady) (hagenda : t.agenda = i :: rest)
    (hr : t.state.jobs[i]? = some r) (hawaits : r.awaits? = some (ends, turn)) (hdue : t.isDue ends = true)
    (hreach : Reachable p (t.moved p i r turn (i :: rest)).state) : Onward p t gs (t.moved p i r turn (i :: rest)) := by
  obtain ⟨g, hg⟩ := h.exists_guide hr
  obtain ⟨hshift, hpaced⟩ := h.follows i r g hr hg
  have hactive : (g.course p).run.IsActive := isActive_shift.mp (hshift ▸ isActive_of_awaits hawaits)
  obtain ⟨own, hown, rfl⟩ := h.exists_awaits hr hg hawaits
  cases own with
  | none => cases hdue
  | some e =>
    have hcome : before t.state.now (after g.start e) = false := by simpa [isDue] using hdue
    have onward : ∀ now, t.state.now = after g.start now →
        (g.course p).next p = (g.course p).take p now turn → Onward p t gs (t.moved p i r turn (i :: rest)) :=
      fun now hnow hnext => .advance hg hactive.2 (h.moved hsteady hreach hr hg hshift hnow hnext
        (hagenda ▸ .refl _) (.inl (by simp)))
    cases hpaced with
    | idle hidle => exact absurd hidle (not_or.mpr hactive)
    | current _ hnow =>
      rw [hnow, before_after] at hcome
      exact onward _ hnow ((next_of_awaits hown).trans (await_at_once hcome turn))
    | due _ hawaits he hlimit hnow =>
      cases hown.symm.trans hawaits
      exact onward _ hnow ((next_of_awaits hown).trans (await_in_time he hlimit turn))
    | asleep hqueued _ _ _ => exact absurd (hagenda ▸ mem_cons_self ..) hqueued

theorem leave (hagenda : t.agenda = i :: rest)
    (hidle : ∀ r, t.state.jobs[i]? = some r → r.activity = .waiting ∧ t.state.slots.isFull = true ∨ r.activity = .over ∨
      ∃ ends turn, r.awaits? = some (ends, turn) ∧ t.isDue ends = false) :
    Onward p t gs { t with agenda := rest } := by
  have hnodup : i ∉ rest ∧ rest.Nodup := nodup_cons.mp (hagenda ▸ h.nodup)
  have hripe : ¬t.Ripe i := by
    rintro ⟨r, ends, turn, hr, hawaits, hdue⟩
    have hactive := isActive_of_awaits hawaits
    rcases hidle r hr with ⟨hw, -⟩ | ho | ⟨ends', turn', hawaits', hdue'⟩
    · exact hactive.1 hw
    · exact hactive.2 ho
    · cases hawaits.symm.trans hawaits'
      exact absurd (hdue.symm.trans hdue') nofun
  refine .leave hagenda hripe { h with undisturbed := { h.undisturbed with }, nodup := hnodup.2, follows := ?_ }
  intro j q g hq hg
  have hq' : t.state.jobs[j]? = some q := hq
  obtain ⟨hshift, hpaced⟩ := h.follows j q g hq' hg
  refine ⟨hshift, ?_⟩
  by_cases hj : j = i
  · subst hj
    rcases hidle q hq' with ⟨hw, -⟩ | ho | ⟨ends, turn, hawaits, hdue⟩
    · exact .idle (.inl (shift_eq_waiting.mp (hshift ▸ hw)))
    · exact .idle (.inr (shift_eq_over.mp (hshift ▸ ho)))
    · obtain ⟨own, hown, rfl⟩ := h.exists_awaits hq' hg hawaits
      have hlater : ∀ e ∈ own, before t.state.now (after g.start e) = true := by
        rintro e ⟨⟩
        simpa [isDue] using hdue
      -- The job has come so far at this moment, and nothing is due: it falls asleep.
      cases hpaced with
      | idle hidle => exact .idle hidle
      | current _ hnow =>
        refine .asleep hnodup.1 hown (fun e he => ?_) ?_
        · have hbefore := hlater e he
          refine ⟨?_, before_asymm hbefore⟩
          rwa [hnow, before_after] at hbefore
        · show before _ t.state.now = false
          rw [hnow, before_after]
          exact (g.regular p).now
      | due _ hawaits _ _ hnow =>
        cases hown.symm.trans hawaits
        have hbefore := hlater _ rfl
        rw [hnow, before_irrefl] at hbefore
        cases hbefore
      | asleep hqueued _ _ _ => exact absurd (hagenda ▸ mem_cons_self ..) hqueued
  · refine hpaced.congr fun _ => ?_
    rw [hagenda, mem_cons, or_iff_right hj]

theorem expire {m : τ} (hsteady : p.Steady) (hagenda : t.agenda = [])
    (hearliest : earliest (t.expiries p ++ t.endings) = some (m, .expire i)) (hr : t.state.jobs[i]? = some r)
    (ha : r.IsActive) (hreach : Reachable p ((t.passed m).moved p i r .timeOut []).state) :
    Onward p t gs ((t.passed m).moved p i r .timeOut []) := by
  obtain ⟨g, hg⟩ := h.exists_guide hr
  obtain ⟨ends, turn, hawaits, hends, hlimit⟩ := h.asleep hagenda hr hg ha
  -- The time of a job counts from its start, so it is up here where it is in the course.
  have hdeadline := h.jobDeadline?_eq hr hg ha
  have hm : m = after g.start (limit p) := by
    rcases mem_append.mp (mem_of_earliest hearliest) with hmem | hmem
    · obtain ⟨j, q, hq, hq', hj⟩ := Timeline.mem_expiries.mp hmem
      cases hj
      cases hr.symm.trans hq
      exact Option.some.inj (hq'.symm.trans hdeadline)
    · obtain ⟨j, q, -, -, hj⟩ := Timeline.mem_endings.mp hmem
      cases hj
  subst hm
  obtain ⟨hpassed, hcoupled⟩ := h.passed hagenda hearliest hlimit
  have hnext : (g.course p).next p = (g.course p).take p (limit p) .timeOut := by
    rw [next_of_awaits hawaits]
    refine await_expired (fun e he => ⟨(hends e he).1, ?_⟩) turn
    have hfirst := before_earliest hearliest _ (mem_append_right _ (h.mem_endings hr hg hawaits he))
    rwa [before_after] at hfirst
  have hactive := isActive_of_awaits hawaits
  exact .advance hg hactive.2 (hcoupled.moved hsteady hreach hr hg (h.follows i r g hr hg).1 hpassed hnext
    (hagenda ▸ .refl _) (.inr (hnext ▸ rfl)))

theorem proceed {m : τ} (hagenda : t.agenda = [])
    (hearliest : earliest (t.expiries p ++ t.endings) = some (m, .proceed i)) :
    Onward p t gs { t.passed m with agenda := [i] } := by
  have hlate : (m, Due.proceed i) ∉ t.expiries p := by
    intro hmem
    obtain ⟨j, q, -, -, hj⟩ := Timeline.mem_expiries.mp hmem
    cases hj
  have hmem := (mem_append.mp (mem_of_earliest hearliest)).resolve_left hlate
  obtain ⟨j, r, hr, hend, hj⟩ := Timeline.mem_endings.mp hmem
  cases hj
  obtain ⟨g, hg⟩ := h.exists_guide hr
  have ha : r.IsActive := by
    rw [Timeline.activityEnd?_eq, Option.bind_eq_some_iff] at hend
    obtain ⟨⟨ends, turn⟩, hawaits, -⟩ := hend
    exact isActive_of_awaits hawaits
  obtain ⟨ends, turn, hawaits, hends, -⟩ := h.asleep hagenda hr hg ha
  rw [h.activityEnd?_eq hr hg hawaits, Option.map_eq_some_iff] at hend
  obtain ⟨e, rfl, rfl⟩ := hend
  obtain ⟨hbegun, hnow⟩ := hends e rfl
  obtain ⟨hpassed, hcoupled⟩ := h.passed hagenda hearliest hnow
  -- The time of the job comes first in the list, so what is met before it is strictly earlier.
  have hlimit : before e (limit p) = true := by
    have hfirst := before_of_earliest_append hearliest hlate _ (h.mem_expiries hr hg ha)
    rwa [before_after] at hfirst
  have hshift := (h.follows i r g hr hg).1
  refine .pass hagenda rfl ⟨r, some (after g.start e), turn, hr, ?_, ?_⟩
    { hcoupled with undisturbed := { hcoupled.undisturbed with }, nodup := nodup_singleton i, follows := ?_ }
  · rw [hshift, awaits?_shift, hawaits]
    rfl
  · show (!before (t.passed (after g.start e)).state.now (after g.start e)) = true
    rw [hpassed, before_irrefl]
    rfl
  · intro j q g' hq hg'
    have hq' : (t.passed (after g.start e)).state.jobs[j]? = some q := hq
    obtain ⟨hshift', hpaced⟩ := hcoupled.follows j q g' hq' hg'
    refine ⟨hshift', ?_⟩
    by_cases hj : j = i
    · subst hj
      cases hg.symm.trans hg'
      exact .due (mem_singleton_self j) hawaits hbegun hlimit hpassed
    · refine hpaced.congr fun _ => ?_
      show j ∈ t.agenda ↔ j ∈ [i]
      simp [hagenda, hj]

theorem halt (hagenda : t.agenda = []) (hnothing : t.expiries p ++ t.endings = []) :
    Onward p t gs t := by
  refine .halt hagenda rfl fun r hr ha => ?_
  obtain ⟨i, hr⟩ := mem_iff_getElem?.mp hr
  obtain ⟨g, hg⟩ := h.exists_guide hr
  have hmem := h.mem_expiries hr hg ha
  rw [(append_eq_nil_iff.mp hnothing).1] at hmem
  cases hmem

/-- Each step of a campaign takes its jobs along their courses. -/
theorem step (hsteady : p.Steady) : ∃ u, t.step p = .ok u ∧ t.Moves p u ∧ Onward p t gs u := by
  obtain ⟨u, hu, hmoves⟩ := step_moves h.reachable h.undisturbed
  obtain ⟨u', hu', hreaches⟩ := step_reaches h.reachable
  cases hu.symm.trans hu'
  have hreach := h.reachable.reaches hreaches
  refine ⟨u, hu, hmoves, ?_⟩
  cases hmoves with
  | enter hagenda hr ha _ => exact h.enter hsteady hagenda hr ha hreach
  | choose hagenda hr ha => exact h.choose hsteady hagenda hr ha hreach
  | finish hagenda hr hawaits hdue => exact h.finish hsteady hagenda hr hawaits hdue hreach
  | leave hagenda hidle => exact h.leave hagenda hidle
  | expire hagenda hearliest hr ha => exact h.expire hsteady hagenda hearliest hr ha hreach
  | proceed hagenda hearliest => exact h.proceed hagenda hearliest
  | halt hagenda hnothing => exact h.halt hagenda hnothing

end Coupled

/-! ### Whole runs -/

def Guide.initial (p : Plan τ) : List (Guide τ) := p.assignments.map fun a => ⟨a, Clock.start, 0⟩

theorem Guide.flatMap_initial {α : Type} {f : Course τ → List α} (h : ∀ a, f (.initial p a) = []) :
    (Guide.initial p).flatMap (fun g => f (g.course p)) = [] := by
  refine flatMap_eq_nil_iff.mpr fun g hg => ?_
  obtain ⟨a, -, rfl⟩ := mem_map.mp hg
  exact h a

namespace Coupled

open CampaignState

variable {t u : Timeline τ} {gs : List (Guide τ)}

theorem initial (hwatches : p.watches = []) (hdeadline : p.limits.campaign = none) :
    Coupled p (.initial p none []) (Guide.initial p) := by
  constructor
  case reachable => exact .initial none
  case undisturbed => exact ⟨hwatches, hdeadline, rfl, rfl, rfl⟩
  case nodup => exact nodup_range
  case assignments =>
    rw [Guide.initial, map_map]
    exact map_id _
  case follows =>
    intro i r g hr hg
    have hr' : (p.assignments.map (ofAssignment p))[i]? = some r := hr
    rw [getElem?_map, Option.map_eq_some_iff] at hr'
    obtain ⟨a, ha, rfl⟩ := hr'
    rw [Guide.initial, getElem?_map, ha] at hg
    cases hg
    exact ⟨(ofAssignment_shift p a start).symm, .idle (.inl rfl)⟩
  case diagnostics =>
    rw [Guide.flatMap_initial fun _ => rfl]
    exact .refl _
  case covered =>
    rw [Guide.flatMap_initial fun _ => rfl]
    exact fun n => Iff.rfl
  case coverage => exact nodup_nil

theorem onward (h : Coupled p t gs) (ho : Onward p t gs u) : ∃ gs', Coupled p u gs' := by
  cases ho with
  | advance _ _ h' => exact ⟨_, h'⟩
  | leave _ _ h' | pass _ _ _ h' => exact ⟨gs, h'⟩
  | halt _ heq _ => exact ⟨gs, heq ▸ h⟩

theorem course_over {g : Guide τ} (h : Coupled p t gs) (hover : t.state.isOver = true) (hg : g ∈ gs) :
    (g.course p).run.activity = .over := by
  obtain ⟨i, hg⟩ := mem_iff_getElem?.mp hg
  obtain ⟨r, hr⟩ := h.exists_job hg
  have hterminal : r.job.state.isTerminal = true := all_eq_true.mp hover r (mem_of_getElem? hr)
  have hactivity : r.activity = .over := (h.reachable.fits hr).isTerminal_iff.mp hterminal
  exact shift_eq_over.mp ((h.follows i r g hr hg).1 ▸ hactivity)

theorem run [LawfulClock τ] {fuel : Nat} {s : CampaignState τ} (h : Coupled p t gs) (hsteady : p.Steady)
    (hrun : t.run p fuel = .ok (some s)) : s.isOver = true ∧ ∃ u gs', u.state = s ∧ Coupled p u gs' := by
  induction fuel generalizing t gs with
  | zero =>
    rw [Timeline.run, Except.ok.injEq] at hrun
    split at hrun
    next hover =>
      cases hrun
      exact ⟨hover, t, gs, rfl, h⟩
    · cases hrun
  | succ fuel ih =>
    rw [Timeline.run] at hrun
    split at hrun
    next hover =>
      cases hrun
      exact ⟨hover, t, gs, rfl, h⟩
    · obtain ⟨u, hu, -, ho⟩ := h.step hsteady
      obtain ⟨gs', h'⟩ := h.onward ho
      rw [hu] at hrun
      exact ih h' hrun

end Coupled

end ContractAudit

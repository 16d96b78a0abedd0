import ContractAudit.Proofs.JobHistory

/-! # The course of a job and the pace of a campaign

A job that is left to itself goes through a course, on a clock of its own, which depends on the assignment
alone, provided that the target reacts to the input alone. As long as nobody asks a campaign to stop, a step
takes the first job of the agenda on or off, and if there is none, time passes until something is due. -/

namespace ContractAudit
open List JobRun Clock

/-- A clock that is exact: spans add up, and moments are in one order, which a later start does not
    change. -/
class LawfulClock (τ : Type) [Clock τ] : Prop where
  after_start (t : τ) : after t start = t
  after_assoc (a b c : τ) : after (after a b) c = after a (after b c)
  before_after (m a b : τ) : before (after m a) (after m b) = before a b
  before_irrefl (a : τ) : before a a = false
  before_trans {a b c : τ} : before a b = true → before b c = true → before a c = true
  before_total (a b : τ) : before a b = true ∨ a = b ∨ before b a = true

instance : LawfulClock Nat where
  after_start := Nat.add_zero
  after_assoc := Nat.add_assoc
  before_after m a b := by simp [Clock.before, Clock.after]
  before_irrefl a := by simp [before]
  before_trans h h' := by
    simp only [before, decide_eq_true_eq] at *
    exact Nat.lt_trans h h'
  before_total a b := by
    simp only [before, decide_eq_true_eq]
    exact Nat.lt_trichotomy a b

namespace Clock

variable {τ : Type} [Clock τ] [LawfulClock τ] {a b c : τ}

open LawfulClock

theorem before_asymm (h : before a b = true) : before b a = false := by
  cases hba : before b a with
  | false => rfl
  | true => exact (before_irrefl a ▸ before_trans h hba).symm

theorem before_of_not_before_of_before (hab : before b a = false) (hbc : before b c = true) : before a c = true := by
  rcases before_total a b with h | rfl | h
  · exact before_trans h hbc
  · exact hbc
  · rw [hab] at h
    cases h

theorem later_after (m a d : τ) : later (after m a) d = after m (later a d) := by
  unfold later
  split
  · rfl
  · exact after_assoc m a d

theorem before_later (a d : τ) : before (later a d) a = false := by
  unfold later
  split
  · exact before_irrefl a
  next hd =>
    have h := before_after a d start
    rw [after_start] at h
    rw [h]
    exact Bool.eq_false_iff.mpr hd

end Clock

/-- Every target reacts to the input alone, however often it was called. -/
def Plan.Steady {τ : Type} (p : Plan τ) : Prop :=
  ∀ target ∈ p.targets, ∀ call call' input, target.react call input = target.react call' input

def Plan.withJobCount {τ : Type} (p : Plan τ) (n : Amount) : Plan τ := { p with jobCount := n }

section Shift
variable {τ : Type} [Clock τ]
variable {m : τ}

def Activity.shift (m : τ) : Activity τ → Activity τ
  | .waiting => .waiting
  | .preparing ends outcome => .preparing (ends.map (after m)) outcome
  | .ready => .ready
  | .executing input ends outcome => .executing input (ends.map (after m)) outcome
  | .over => .over

/-- The job with all its moments counted from another one. -/
def JobRun.shift (m : τ) (r : JobRun τ) : JobRun τ :=
  { r with
    job := { r.job with
      startedAt := r.job.startedAt.map (Clock.after m)
      finishedAt := r.job.finishedAt.map (Clock.after m) }
    activity := r.activity.shift m }

theorem Activity.shift_eq_waiting {a : Activity τ} : a.shift m = .waiting ↔ a = .waiting := by
  cases a <;> simp [shift]

theorem Activity.shift_eq_ready {a : Activity τ} : a.shift m = .ready ↔ a = .ready := by
  cases a <;> simp [shift]

theorem Activity.shift_eq_over {a : Activity τ} : a.shift m = .over ↔ a = .over := by
  cases a <;> simp [shift]

namespace JobRun
variable {t : Turn}

variable {p : Plan τ} {r : JobRun τ}

theorem isActive_shift {m : τ} : (r.shift m).IsActive ↔ r.IsActive :=
  and_congr (not_congr Activity.shift_eq_waiting) (not_congr Activity.shift_eq_over)

theorem ofAssignment_shift (p : Plan τ) (a : Assignment τ) (m : τ) : (ofAssignment p a).shift m = ofAssignment p a := by
  simp [ofAssignment, shift, Activity.shift]

theorem choiceTurn_shift (p : Plan τ) (stopping : Bool) (m : τ) (r : JobRun τ) :
    (r.shift m).choiceTurn p stopping = r.choiceTurn p stopping := rfl

/-- What a job waits for: when that ends, if ever, and what the job does then. -/
def awaits? (r : JobRun τ) : Option (Option τ × Turn) :=
  match r.activity with
  | .preparing ends (.ok ()) => some (ends, .proceed)
  | .preparing ends (.error o) => some (ends, r.obstacleTurn o)
  | .executing input ends outcome => some (ends, r.outcomeTurn input outcome)
  | _ => none

theorem awaits?_shift (m : τ) (r : JobRun τ) :
    (r.shift m).awaits? = r.awaits?.map fun x => (x.1.map (Clock.after m), x.2) := by
  cases r with
  | mk job place target strategy generator activity =>
    rcases activity with _ | ⟨ends, _ | _⟩ | _ | _ | _ <;> rfl

omit [Clock τ] in
theorem isActive_of_awaits {ends : Option τ} (h : r.awaits? = some (ends, t)) : r.IsActive := by
  unfold awaits? at h
  constructor <;> intro ha <;> rw [ha] at h <;> cases h

omit [Clock τ] in
theorem takes_of_awaits {ends : Option τ} (h : r.awaits? = some (ends, t)) (stopping full : Bool) :
    r.Takes p stopping full t := by
  have hactive := isActive_of_awaits h
  unfold awaits? at h
  split at h
  next ha =>
    cases h
    exact .proceed ha
  · cases h
    exact takes_obstacleTurn hactive _
  next ha =>
    cases h
    exact takes_outcomeTurn ha
  · cases h

omit [Clock τ] in
theorem Takes.ne_start {stopping full : Bool} (ht : r.Takes p stopping full t) (ha : r.IsActive) : t ≠ .start := by
  rintro rfl
  cases ht with
  | start hwaiting _ _ => exact ha.1 hwaiting

theorem after_activity_ne_waiting (p : Plan τ) (now : τ) (call : Nat) (ht : r.Takes p false false t) :
    (r.after p now call t).activity ≠ .waiting := by
  cases ht <;> exact nofun

theorem after_startedAt (ht : t ≠ .start) (p : Plan τ) (now : τ) (call : Nat) :
    (r.after p now call t).job.startedAt = r.job.startedAt := by
  cases t with
  | start => exact absurd rfl ht
  | _ => rfl

/-- A turn can be taken at any time, with the same outcome counted from then. -/
theorem after_shift [LawfulClock τ]
    (hreact : ∀ call call' input, r.target.react call input = r.target.react call' input)
    (m now : τ) (call call' : Nat) (t : Turn) :
    (r.shift m).after p (Clock.after m now) call t = (r.after p now call' t).shift m := by
  have hlater : ∀ d : Option τ,
      d.map (Clock.later (Clock.after m now)) = (d.map (Clock.later now)).map (Clock.after m) := by
    intro d
    cases d with
    | none => rfl
    | some d => exact congrArg some (later_after m now d)
  cases t with
  | start => simp [after, shift, Activity.shift, hlater]
  | execute input generator =>
    have hsame := hreact call call' input
    simp [after, shift, Activity.shift, hsame, hlater]
  | timeOut => simp [after, ended, shift, Activity.shift, timeoutFinding, timeoutEntries]
  | _ => rfl

end JobRun

end Shift

/-- How far a job has come, with the time since its start, and what it complained about and covered. -/
structure Course (τ : Type) where
  run : JobRun τ
  now : τ
  diagnostics : List Diagnostic := []
  covered : List Int := []

namespace Course

variable {τ : Type} [Clock τ] {p : Plan τ} {c : Course τ}

def initial (p : Plan τ) (a : Assignment τ) : Course τ := ⟨.ofAssignment p a, start, [], []⟩

/-- When the time of the job is up, counted from its start. -/
def limit (p : Plan τ) : τ := later start p.limits.job

def take (p : Plan τ) (c : Course τ) (now : τ) (t : Turn) : Course τ where
  run := c.run.after p now 0 t
  now := now
  diagnostics := c.diagnostics ++ t.diagnostics c.run
  covered := c.covered ++ t.result?.elim [] (·.coverage)

/-- The course after the job waited for something, or its time was up first. What is over at once does
    not depend on the time that is left. -/
def await (p : Plan τ) (c : Course τ) (ends : Option τ) (t : Turn) : Course τ :=
  match ends with
  | none => c.take p (limit p) .timeOut
  | some e =>
    if !before c.now e then c.take p c.now t
    else if before e (limit p) then c.take p e t
    else c.take p (limit p) .timeOut

def next (p : Plan τ) (c : Course τ) : Course τ :=
  match c.run.awaits? with
  | some (ends, t) => c.await p ends t
  | none => match c.run.activity with
    | .waiting => c.take p start .start
    | .ready => c.take p c.now (c.run.choiceTurn p false)
    | _ => c

def after (p : Plan τ) (a : Assignment τ) : Nat → Course τ
  | 0 => initial p a
  | k + 1 => (after p a k).next p

theorem await_at_once {e : τ} (h : before c.now e = false) (t : Turn) : c.await p (some e) t = c.take p c.now t := by
  simp [await, h]

theorem await_in_time {e : τ} (h : before c.now e = true) (he : before e (limit p) = true) (t : Turn) :
    c.await p (some e) t = c.take p e t := by
  simp [await, h, he]

theorem await_expired {ends : Option τ}
    (h : ∀ e ∈ ends, before c.now e = true ∧ before e (limit p) = false) (t : Turn) :
    c.await p ends t = c.take p (limit p) .timeOut := by
  cases ends with
  | none => rfl
  | some e => simp [await, h e rfl]

theorem next_of_awaits {ends : Option τ} {t : Turn} (h : c.run.awaits? = some (ends, t)) :
    c.next p = c.await p ends t := by
  rw [next, h]

theorem next_of_waiting (h : c.run.activity = .waiting) : c.next p = c.take p start .start := by
  simp [next, awaits?, h]

theorem next_of_ready (h : c.run.activity = .ready) : c.next p = c.take p c.now (c.run.choiceTurn p false) := by
  simp [next, awaits?, h]

theorem next_of_over (h : c.run.activity = .over) : c.next p = c := by
  simp [next, awaits?, h]

theorem next_cases {motive : Course τ → Prop} (start : c.run.activity = .waiting → motive (c.take p start .start))
    (turn : ∀ now t, c.run.IsActive → c.run.Takes p false false t →
      now = c.now ∨ before now (limit p) = true ∨ now = limit p → motive (c.take p now t))
    (last : c.run.activity = .over → motive c) : motive (c.next p) := by
  cases hawaits : c.run.awaits? with
  | some x =>
    obtain ⟨ends, t⟩ := x
    have hactive := isActive_of_awaits hawaits
    have htakes := takes_of_awaits (p := p) hawaits false false
    have expired := turn (limit p) .timeOut hactive (.timeOut hactive) (.inr (.inr rfl))
    rw [next_of_awaits hawaits]
    unfold await
    split
    · exact expired
    next e =>
      split
      · exact turn c.now t hactive htakes (.inl rfl)
      · split
        next he => exact turn e t hactive htakes (.inr (.inl he))
        · exact expired
  | none =>
    cases ha : c.run.activity with
    | waiting =>
      rw [next_of_waiting ha]
      exact start ha
    | ready =>
      rw [next_of_ready ha]
      exact turn c.now _ (by simp [IsActive, ha]) (takes_choiceTurn ha) (.inl rfl)
    | preparing ends outcome => cases outcome <;> simp [awaits?, ha] at hawaits
    | executing _ _ _ => simp [awaits?, ha] at hawaits
    | _ =>
      rw [next_of_over ha]
      exact last ha

/-- What holds all along a course: the job keeps its assignment, runs from the start of its time, and
    does nothing after the end of it. -/
structure Regular (p : Plan τ) (a : Assignment τ) (c : Course τ) : Prop where
  assignment : c.run.assignment = a
  waiting : c.run.activity = .waiting → c.run = .ofAssignment p a
  startedAt : c.run.IsActive → c.run.job.startedAt = some start
  now : before (limit p) c.now = false

theorem Regular.next [LawfulClock τ] {a : Assignment τ} (h : Regular p a c) : Regular p a (c.next p) := by
  refine next_cases ?start ?turn ?last
  case start =>
    intro _
    exact ⟨h.assignment, nofun, fun _ => rfl, before_later _ _⟩
  case turn =>
    intro now t hactive ht hnow
    refine ⟨?_, fun hw => absurd hw (after_activity_ne_waiting p now 0 ht), fun _ => ?_, ?_⟩
    · exact (c.run.after_assignment p now 0 t).trans h.assignment
    · exact (after_startedAt (ht.ne_start hactive) p now 0).trans (h.startedAt hactive)
    · rcases hnow with rfl | hnow | rfl
      · exact h.now
      · exact before_asymm hnow
      · exact LawfulClock.before_irrefl _
  case last => exact fun _ => h

theorem regular_after [LawfulClock τ] (p : Plan τ) (a : Assignment τ) (k : Nat) : Regular p a (after p a k) := by
  induction k with
  | zero => exact ⟨rfl, fun _ => rfl, fun h => absurd rfl h.1, before_later _ _⟩
  | succ k ih => exact ih.next

theorem after_eq_of_le {a : Assignment τ} {j k : Nat} (hj : (after p a j).run.activity = .over) (hle : j ≤ k) :
    after p a k = after p a j := by
  induction hle with
  | refl => rfl
  | step _ ih => rw [after, ih, next_of_over hj]

theorem after_eq_of_over {a : Assignment τ} {j k : Nat} (hj : (after p a j).run.activity = .over)
    (hk : (after p a k).run.activity = .over) : after p a j = after p a k := by
  rcases Nat.le_total j k with h | h
  · exact (after_eq_of_le hj h).symm
  · exact after_eq_of_le hk h

theorem after_withJobCount (p : Plan τ) (n : Amount) (a : Assignment τ) (k : Nat) :
    after (p.withJobCount n) a k = after p a k := by
  induction k with
  | zero => rfl
  | succ k ih =>
    rw [after, ih, after]
    rfl

end Course

variable {τ : Type} [Clock τ] {p : Plan τ}

namespace Timeline
variable {l : List (τ × Due τ)} {d : τ × Due τ} {agenda : List Nat}

theorem earliest_eq_none_iff : earliest l = none ↔ l = [] := by
  cases l with
  | nil => exact ⟨fun _ => rfl, fun _ => rfl⟩
  | cons d l =>
    refine ⟨fun h => ?_, nofun⟩
    rw [earliest] at h
    split at h
    · cases h
    · split at h <;> cases h

theorem mem_of_earliest (h : earliest l = some d) : d ∈ l := by
  induction l with
  | nil => cases h
  | cons e l ih =>
    rw [earliest] at h
    split at h
    · cases h
      exact mem_cons_self ..
    next hl =>
      split at h
      · exact mem_cons_of_mem e (ih (hl.trans h))
      · cases h
        exact mem_cons_self ..

theorem before_earliest [LawfulClock τ] (h : earliest l = some d) : ∀ e ∈ l, before e.1 d.1 = false := by
  induction l generalizing d with
  | nil => cases h
  | cons c l ih =>
    rw [earliest] at h
    split at h
    next hl =>
      cases h
      rw [earliest_eq_none_iff.mp hl]
      exact fun e he => mem_singleton.mp he ▸ LawfulClock.before_irrefl _
    next c' hl =>
      have hrest := ih hl
      intro e he
      split at h
      next hbefore =>
        cases h
        rcases mem_cons.mp he with rfl | he
        · exact before_asymm hbefore
        · exact hrest e he
      next hbefore =>
        cases h
        rcases mem_cons.mp he with rfl | he
        · exact LawfulClock.before_irrefl _
        · cases hec : before e.1 c.1 with
          | false => rfl
          | true => exact absurd (before_of_not_before_of_before (hrest e he) hec) hbefore

theorem before_of_earliest_append {l' : List (τ × Due τ)} (h : earliest (l ++ l') = some d) (hd : d ∉ l) :
    ∀ e ∈ l, before d.1 e.1 = true := by
  induction l with
  | nil => exact nofun
  | cons c l ih =>
    have hne : d ≠ c := fun heq => hd (heq ▸ mem_cons_self ..)
    rw [cons_append, earliest] at h
    split at h
    · cases h
      exact absurd rfl hne
    next e hl =>
      split at h
      next hbefore =>
        cases h
        intro x hx
        rcases mem_cons.mp hx with rfl | hx
        · exact hbefore
        · exact ih hl (fun hmem => hd (mem_cons_of_mem c hmem)) x hx
      · cases h
        exact absurd rfl hne

/-- The course is left to itself: nobody asks it to stop, and it has no deadline. -/
structure Undisturbed (p : Plan τ) (t : Timeline τ) : Prop where
  watches : p.watches = []
  deadline : p.limits.campaign = none
  cancelReason : t.state.cancelReason = none
  phase : t.phase = .watching
  requests : t.requests = []

variable {t : Timeline τ}

theorem Undisturbed.dues_eq (h : Undisturbed p t) : t.dues p = t.expiries p ++ t.endings := by
  simp only [dues, dueRequest, h.requests, duePhase, h.phase, h.deadline]
  exact append_nil _

omit [Clock τ] in
theorem mem_filterMap_zipIdx {jobs : List (JobRun τ)} {moment? : JobRun τ → Option τ} {due : Nat → Due τ} :
    d ∈ (jobs.zipIdx.filterMap fun x => (moment? x.1).map fun m => (m, due x.2)) ↔
      ∃ i r, jobs[i]? = some r ∧ moment? r = some d.1 ∧ d.2 = due i := by
  simp only [mem_filterMap, Option.map_eq_some_iff]
  constructor
  · rintro ⟨⟨r, i⟩, hr, m, hm, rfl⟩
    exact ⟨i, r, mem_zipIdx_iff_getElem?.mp hr, hm, rfl⟩
  · rintro ⟨i, r, hr, hm, hd⟩
    exact ⟨(r, i), mem_zipIdx_iff_getElem?.mpr hr, d.1, hm, by rw [← hd]⟩

theorem mem_expiries : d ∈ t.expiries p ↔
    ∃ i r, t.state.jobs[i]? = some r ∧ jobDeadline? p r = some d.1 ∧ d.2 = .expire i := mem_filterMap_zipIdx

omit [Clock τ] in
theorem mem_endings : d ∈ t.endings ↔
    ∃ i r, t.state.jobs[i]? = some r ∧ activityEnd? r = some d.1 ∧ d.2 = .proceed i := mem_filterMap_zipIdx

theorem isActive_of_jobDeadline? {r : JobRun τ} {m : τ} (h : jobDeadline? p r = some m) : r.IsActive := by
  constructor <;> intro ha <;> rw [jobDeadline?, ha] at h <;> cases h

theorem jobDeadline?_of_isActive {r : JobRun τ} (h : r.IsActive) :
    jobDeadline? p r = r.job.startedAt.map fun m => later m p.limits.job := by
  obtain ⟨hwaiting, hover⟩ := h
  cases ha : r.activity <;> simp_all [jobDeadline?]

omit [Clock τ] in
theorem activityEnd?_eq (r : JobRun τ) : activityEnd? r = r.awaits?.bind (·.1) := by
  cases r with
  | mk job place target strategy generator activity =>
    rcases activity with _ | ⟨ends, _ | _⟩ | _ | _ | _ <;> rfl

omit [Clock τ] in
theorem isWaiting_iff {r : JobRun τ} : isWaiting r = true ↔ r.activity = .waiting := by
  unfold isWaiting
  split
  next ha => exact iff_of_true rfl ha
  next ha => exact iff_of_false nofun ha

omit [Clock τ] in
theorem wake_cases (s : CampaignState τ) (agenda : List Nat) : (wake s agenda = agenda ∧
      (s.slots.isFull = true ∨ ∀ i r, s.jobs[i]? = some r → r.activity = .waiting → i ∈ agenda)) ∨
    ∃ i r, wake s agenda = agenda ++ [i] ∧ s.jobs[i]? = some r ∧ r.activity = .waiting ∧ i ∉ agenda := by
  unfold wake
  split
  next hfull => exact .inl ⟨rfl, .inl hfull⟩
  · split
    next r i hfind =>
      have hmem := mem_zipIdx_iff_getElem?.mp (mem_of_find?_eq_some hfind)
      have htest := find?_some hfind
      simp only [Bool.and_eq_true, isWaiting_iff] at htest
      exact .inr ⟨i, r, rfl, hmem, htest.1, by simpa using htest.2⟩
    next hfind =>
      refine .inl ⟨rfl, .inr fun i r hr hw => ?_⟩
      have htest := find?_eq_none.mp hfind (r, i) (mem_zipIdx_iff_getElem?.mpr hr)
      simpa [isWaiting_iff.mpr hw] using htest

omit [Clock τ] in
theorem nodup_wake {s : CampaignState τ} (h : agenda.Nodup) : (wake s agenda).Nodup := by
  rcases wake_cases s agenda with ⟨heq, -⟩ | ⟨i, r, heq, -, -, hi⟩ <;> rw [heq]
  · exact h
  · exact nodup_append.mpr ⟨h, by simp, fun a ha b hb hab => hi (mem_singleton.mp hb ▸ hab ▸ ha)⟩

omit [Clock τ] in
theorem mem_wake {s : CampaignState τ} {i : Nat} (h : i ∈ agenda) : i ∈ wake s agenda := by
  rcases wake_cases s agenda with ⟨heq, -⟩ | ⟨j, r, heq, -⟩ <;> rw [heq]
  · exact h
  · exact mem_append_left _ h

omit [Clock τ] in
theorem mem_wake_iff {s : CampaignState τ} {i : Nat} {r : JobRun τ} (hr : s.jobs[i]? = some r)
    (hw : r.activity ≠ .waiting) : i ∈ wake s agenda ↔ i ∈ agenda := by
  rcases wake_cases s agenda with ⟨heq, -⟩ | ⟨j, q, heq, hq, hj, -⟩ <;> rw [heq]
  rw [mem_append, mem_singleton, or_iff_left_iff_imp]
  rintro rfl
  rw [hr] at hq
  exact absurd (Option.some.inj hq ▸ hj) hw

def moved (p : Plan τ) (t : Timeline τ) (i : Nat) (r : JobRun τ) (turn : Turn) (agenda : List Nat) : Timeline τ :=
  { t with state := t.state.commit p i r turn, agenda := wake (t.state.commit p i r turn) agenda }

def passed (t : Timeline τ) (m : τ) : Timeline τ := { t with state := { t.state with now := notBefore t.state.now m } }

inductive Moves (p : Plan τ) (t : Timeline τ) : Timeline τ → Prop where
  | enter {i : Nat} {rest : List Nat} {r : JobRun τ} : t.agenda = i :: rest → t.state.jobs[i]? = some r →
      r.activity = .waiting → t.state.slots.isFull = false → Moves p t (t.moved p i r .start (rest ++ [i]))
  | choose {i : Nat} {rest : List Nat} {r : JobRun τ} : t.agenda = i :: rest → t.state.jobs[i]? = some r →
      r.activity = .ready → Moves p t (t.moved p i r (r.choiceTurn p false) (rest ++ [i]))
  | finish {i : Nat} {rest : List Nat} {r : JobRun τ} {ends : Option τ} {turn : Turn} : t.agenda = i :: rest →
      t.state.jobs[i]? = some r → r.awaits? = some (ends, turn) → t.isDue ends = true →
      Moves p t (t.moved p i r turn (i :: rest))
  | leave {i : Nat} {rest : List Nat} : t.agenda = i :: rest →
      (∀ r, t.state.jobs[i]? = some r → r.activity = .waiting ∧ t.state.slots.isFull = true ∨ r.activity = .over ∨
        ∃ ends turn, r.awaits? = some (ends, turn) ∧ t.isDue ends = false) → Moves p t { t with agenda := rest }
  | expire {i : Nat} {m : τ} {r : JobRun τ} : t.agenda = [] →
    earliest (t.expiries p ++ t.endings) = some (m, .expire i) →
      t.state.jobs[i]? = some r → r.IsActive → Moves p t ((t.passed m).moved p i r .timeOut [])
  | proceed {i : Nat} {m : τ} : t.agenda = [] → earliest (t.expiries p ++ t.endings) = some (m, .proceed i) →
      Moves p t { t.passed m with agenda := [i] }
  | halt : t.agenda = [] → t.expiries p ++ t.endings = [] → Moves p t t

end Timeline

namespace CampaignState

variable {s : CampaignState τ} {i : Nat} {r : JobRun τ}

theorem next_event {sig : Signal} {t : Turn} (hr : s.jobs[i]? = some r)
    (ht : r.turn? p s.isCancelled s.slots.isFull sig = some t) : s.next p (sig.event i) = s.commit p i r t := by
  have htell : s.tell p i sig = s.commit p i r t := by
    simp only [tell, hr, ht]
  cases sig <;> exact htell

end CampaignState

namespace Timeline

open CampaignState

variable {t : Timeline τ}

theorem after_moved {i : Nat} {r : JobRun τ} {turn : Turn} (h : Reachable p t.state) (sig : Signal)
    (hr : t.state.jobs[i]? = some r) (ht : r.turn? p t.state.isCancelled t.state.slots.isFull sig = some turn)
    (agenda : List Nat) : t.after p (sig.event i) agenda = .ok (t.moved p i r turn agenda) := by
  rw [after, h.apply, next_event hr ht]
  rfl

omit [Clock τ] in
theorem Undisturbed.isCancelled_eq (h : Undisturbed p t) : t.state.isCancelled = false := by
  rw [isCancelled, h.cancelReason]
  rfl

theorem proceed_moves {i : Nat} {rest : List Nat} (h : Reachable p t.state) (hu : Undisturbed p t)
    (hagenda : t.agenda = i :: rest) : ∃ u, t.proceed p i rest = .ok u ∧ Moves p t u := by
  have hc := hu.isCancelled_eq
  unfold proceed
  split
  next hnone => exact ⟨_, rfl, .leave hagenda fun r hr => by rw [hnone] at hr; cases hr⟩
  next r hr =>
    have only : ∀ {q : JobRun τ → Prop}, q r → ∀ r', t.state.jobs[i]? = some r' → q r' := by
      intro q hq r' hr'
      rw [hr] at hr'
      exact Option.some.inj hr' ▸ hq
    split
    next ha =>
      split
      next hfull => exact ⟨_, rfl, .leave hagenda (only (.inl ⟨ha, hfull⟩))⟩
      next hfull =>
        have hfree : t.state.slots.isFull = false := by simpa using hfull
        refine ⟨_, after_moved h .enter hr ?_ _, .enter hagenda hr ha hfree⟩
        simp [turn?, ha, hc, hfree]
    next ends outcome ha =>
      have hawaits : ∃ turn, r.awaits? = some (ends, turn) ∧
          r.turn? p t.state.isCancelled t.state.slots.isFull .prepared = some turn := by
        cases outcome <;> simp [awaits?, turn?, ha]
      obtain ⟨turn, hawaits, hturn⟩ := hawaits
      split
      next hdue => exact ⟨_, after_moved h .prepared hr hturn _, .finish hagenda hr hawaits hdue⟩
      next hdue => exact ⟨_, rfl, .leave hagenda (only (.inr (.inr ⟨ends, turn, hawaits, by simpa using hdue⟩)))⟩
    next ha =>
      refine ⟨_, after_moved h .choose hr ?_ _, .choose hagenda hr ha⟩
      simp [turn?, ha, hc]
    next input ends outcome ha =>
      have hawaits : r.awaits? = some (ends, r.outcomeTurn input outcome) := by simp [awaits?, ha]
      have hturn : r.turn? p t.state.isCancelled t.state.slots.isFull .executed =
          some (r.outcomeTurn input outcome) := by
        simp [turn?, ha]
      split
      next hdue => exact ⟨_, after_moved h .executed hr hturn _, .finish hagenda hr hawaits hdue⟩
      next hdue => exact ⟨_, rfl, .leave hagenda (only (.inr (.inr ⟨ends, _, hawaits, by simpa using hdue⟩)))⟩
    next ha => exact ⟨_, rfl, .leave hagenda (only (.inr (.inl ha)))⟩

theorem pass_moves (h : Reachable p t.state) (hu : Undisturbed p t) (hagenda : t.agenda = []) :
    ∃ u, t.pass p = .ok u ∧ Moves p t u := by
  unfold pass
  rw [hu.dues_eq]
  cases hearliest : earliest (t.expiries p ++ t.endings) with
  | none => exact ⟨t, rfl, .halt hagenda (earliest_eq_none_iff.mp hearliest)⟩
  | some d =>
    obtain ⟨m, due⟩ := d
    show ∃ u, (t.passed m).meet p due = .ok u ∧ Moves p t u
    rcases mem_append.mp (mem_of_earliest hearliest) with hmem | hmem
    · obtain ⟨i, r, hr, hdeadline, hdue⟩ := mem_expiries.mp hmem
      have hactive := isActive_of_jobDeadline? hdeadline
      cases show due = .expire i from hdue
      refine ⟨_, after_moved (t := t.passed m) (h.next (.tick _)) .expire hr ?_ _, .expire hagenda hearliest hr hactive⟩
      obtain ⟨hwaiting, hover⟩ := hactive
      cases ha : r.activity <;> simp_all [turn?]
    · obtain ⟨i, r, hr, -, hdue⟩ := mem_endings.mp hmem
      cases show due = .proceed i from hdue
      exact ⟨_, rfl, .proceed hagenda hearliest⟩

theorem step_moves (h : Reachable p t.state) (hu : Undisturbed p t) : ∃ u, t.step p = .ok u ∧ Moves p t u := by
  unfold step
  split
  next i rest hagenda => exact proceed_moves h hu hagenda
  next hagenda =>
    rw [hu.phase]
    simp only [hu.isCancelled_eq, Bool.false_eq_true, if_false]
    exact pass_moves h hu hagenda

end Timeline

end ContractAudit

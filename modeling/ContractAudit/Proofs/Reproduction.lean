import ContractAudit.Proofs.CrashEvidence

/-! # Finding inputs again

A job draws its inputs with a generator that depends on the seed of the campaign and on its own id; whatever
else happens only decides how many it draws. -/

namespace ContractAudit
open List
variable {τ : Type} {p : Plan τ}

namespace Occurrence

def starts : Occurrence τ → Bool
  | .moved _ _ new _ => new == .running
  | .executes _ _ => true
  | .cancels _ => false

def stops : Occurrence τ → Bool
  | .cancels _ => true
  | .moved _ _ _ _ | .executes _ _ => false

end Occurrence

namespace JobRun

def isExecuting (r : JobRun τ) : Bool :=
  match r.activity with
  | .executing _ _ _ => true
  | _ => false

/-- How many executions have ended with a result or are under way. -/
def begun (r : JobRun τ) : Nat := r.job.executions + if r.isExecuting then 1 else 0

/-- The second is what may become of the first if it does not start anything. -/
structure WindsDown (r r' : JobRun τ) : Prop where
  waiting : r.job.state = .pending → r'.job.executions = r.job.executions ∧
    (r'.job.state = .pending ∨ r'.job.state = .cancelled)
  begun : r'.begun ≤ r.begun

theorem WindsDown.refl (r : JobRun τ) : r.WindsDown r := ⟨fun h => ⟨rfl, .inl h⟩, Nat.le_refl _⟩

theorem begun_after_le [Clock τ] {r : JobRun τ} {t : Turn} {full : Bool} (ht : r.Takes p true full t) (now : τ)
    (call : Nat) : (r.after p now call t).begun ≤ r.begun := by
  have hle : r.job.executions ≤ r.begun := Nat.le_add_right _ _
  cases ht with
  | start _ _ hstop | execute _ hstop _ => cases hstop
  | pass ha _ | crash ha _ => simp [begun, isExecuting, after, ended, ha]
  | _ => exact hle

theorem WindsDown.after [Clock τ] {r r' : JobRun τ} {t : Turn} {full : Bool} (h : r.WindsDown r') (hc : r'.Consistent)
    (ht : r'.Takes p true full t) (now : τ) (call : Nat) : r.WindsDown (r'.after p now call t) := by
  refine ⟨fun hpending => ?_, Nat.le_trans (begun_after_le ht now call) h.begun⟩
  obtain ⟨hsame, hstate | hstate⟩ := h.waiting hpending
  · have hidle : ¬r'.IsActive := by
      rw [← hc.running_iff, hstate]
      exact nofun
    rw [← hsame, after_state]
    cases ht with
    | start _ _ hstop | execute _ hstop _ => cases hstop
    | refuse _ _ _ | cancel _ => exact ⟨rfl, .inr rfl⟩
    | proceed ha | pass ha _ | crash ha _ => exact absurd (by simp [IsActive, ha]) hidle
    | timeOut ha | fail ha | complete ha => exact absurd ha hidle
  · have hlive := ht.isTerminal_eq_false hc
    rw [hstate] at hlive
    cases hlive

end JobRun

/-- The second state comes of the first without anything being started or lost. -/
structure WindsDown (s t : CampaignState τ) : Prop where
  cancelled : t.isCancelled = true
  history : ∃ later, t.history = later ++ s.history ∧ ∀ o ∈ later, Occurrence.starts o = false
  findings : s.findings <+: t.findings
  jobs : ∀ (i : Nat) (r : JobRun τ), s.jobs[i]? = some r → ∃ r', t.jobs[i]? = some r' ∧ r.WindsDown r'

namespace CampaignState

variable {s t : CampaignState τ} {i : Nat} {r : JobRun τ}

theorem starts_of_mem_stopNote {given reason : Option String} {o : Occurrence τ} (ho : o ∈ stopNote given reason) :
    o.starts = false := by
  unfold stopNote at ho
  split at ho
  · cases ho
  · obtain ⟨_, -, rfl⟩ := mem_map.mp ho
    rfl

theorem starts_of_mem_told {turn : Turn} {full : Bool} {o : Occurrence τ} (ht : r.Takes p true full turn)
    (ho : o ∈ s.told p i r turn) : o.starts = false := by
  rw [told, append_assoc, mem_append] at ho
  rcases ho with ho | ho
  · exact starts_of_mem_stopNote ho
  · cases ht with
    | start _ _ hstop | execute _ hstop _ => cases hstop
    | proceed _ | pass _ _ => cases ho
    | _ => exact mem_singleton.mp ho ▸ rfl

theorem isCancelled_orElse (given reason : Option String) (h : given.isSome = true) :
    (given <|> reason).isSome = true := by
  cases given with
  | none => cases h
  | some _ => rfl

end CampaignState

namespace WindsDown

open CampaignState

variable {s t u : CampaignState τ}

theorem refl (h : s.isCancelled = true) : WindsDown s s where
  cancelled := h
  history := ⟨[], rfl, nofun⟩
  findings := prefix_rfl
  jobs _ r hr := ⟨r, hr, .refl r⟩

theorem quiet (h : WindsDown s t) (hq : t.Quiet p u) : WindsDown s u := by
  obtain ⟨later, hlater, hstarts⟩ := h.history
  obtain ⟨reason, hreason, hhistory⟩ := hq.stop
  constructor
  case cancelled =>
    rw [isCancelled, hreason]
    exact isCancelled_orElse _ _ h.cancelled
  case history =>
    refine ⟨stopNote t.cancelReason reason ++ later, by rw [hhistory, hlater, append_assoc], fun o ho => ?_⟩
    rcases mem_append.mp ho with ho | ho
    · exact starts_of_mem_stopNote ho
    · exact hstarts o ho
  case findings => exact hq.findings ▸ h.findings
  case jobs => exact hq.jobs ▸ h.jobs

theorem commit [Clock τ] {i : Nat} {r : JobRun τ} {turn : Turn} (h : WindsDown s t) (hc : r.Consistent)
    (hr : t.jobs[i]? = some r) (ht : r.Takes p t.isCancelled t.slots.isFull turn) :
    WindsDown s (t.commit p i r turn) := by
  obtain ⟨later, hlater, hstarts⟩ := h.history
  rw [h.cancelled] at ht
  constructor
  case cancelled => exact isCancelled_orElse _ _ h.cancelled
  case history =>
    refine ⟨t.told p i r turn ++ later, ?_, fun o ho => ?_⟩
    · show t.told p i r turn ++ t.history = _
      rw [hlater, append_assoc]
    · rcases mem_append.mp ho with ho | ho
      · exact starts_of_mem_told ht ho
      · exact hstarts o ho
  case findings => exact h.findings.trans (prefix_append _ _)
  case jobs =>
    intro j q hq
    obtain ⟨q', hq', hwinds⟩ := h.jobs j q hq
    by_cases hj : j = i
    · subst hj
      rw [hr] at hq'
      cases hq'
      exact ⟨_, getElem?_set_of_some hr _, hwinds.after hc ht _ _⟩
    · exact ⟨q', by rw [CampaignState.commit, List.getElem?_set_ne (Ne.symm hj), hq'], hwinds⟩

end WindsDown

/-- Nothing starts after a request to stop, and none was made as long as the campaign is not to stop. -/
structure StopsHeeded (given : Option String) (h : List (Occurrence τ)) : Prop where
  order : h.Pairwise fun newer older => older.stops = true → newer.starts = false
  none : given.isSome = false → ∀ o ∈ h, Occurrence.stops o = false

/-- The history goes on by a turn, which starts nothing if the campaign is to stop, and a request. -/
theorem StopsHeeded.append {given reason : Option String} {l h : List (Occurrence τ)} (hh : StopsHeeded given h)
    (hrest : ∀ o ∈ l, o.stops = false) (hstarts : given.isSome = true → ∀ o ∈ l, o.starts = false) :
    StopsHeeded (given <|> reason) (CampaignState.stopNote given reason ++ (l ++ h)) := by
  constructor
  case order =>
    rw [pairwise_append, pairwise_append]
    refine ⟨?_, ⟨?_, hh.order, ?_⟩, ?_⟩
    · exact pairwise_of_forall_mem_list fun o ho _ _ _ => CampaignState.starts_of_mem_stopNote ho
    · exact pairwise_of_forall_mem_list fun _ _ o ho hstops => by simp [hrest o ho] at hstops
    · intro newer hnewer older holder hstops
      cases hgiven : given.isSome with
      | true => exact hstarts hgiven newer hnewer
      | false => simp [hh.none hgiven older holder] at hstops
    · exact fun newer hnewer _ _ _ => CampaignState.starts_of_mem_stopNote hnewer
  case none =>
    intro hgiven o ho
    obtain ⟨rfl, rfl⟩ : given = Option.none ∧ reason = Option.none := by
      cases given <;> cases reason <;> simp_all
    rcases mem_append.mp (show o ∈ l ++ h from ho) with ho | ho
    · exact hrest o ho
    · exact hh.none rfl o ho

namespace CampaignState

variable [Clock τ] {s t : CampaignState τ}

theorem Reachable.stopsHeeded (h : Reachable p s) : StopsHeeded s.cancelReason s.history := by
  refine h.induct (motive := fun s => StopsHeeded s.cancelReason s.history) ?initial ?quiet ?turn
  case initial => exact fun _ => ⟨.nil, nofun⟩
  case quiet =>
    intro s t _ ih hq
    obtain ⟨reason, hreason, hhistory⟩ := hq.stop
    rw [hreason, hhistory]
    exact ih.append (l := []) nofun nofun
  case turn =>
    intro s i r t _ ih hr ht
    show StopsHeeded (s.cancelReason <|> t.stopReason? p r) (s.told p i r t ++ s.history)
    rw [told, append_assoc, append_assoc, ← append_assoc (t.state?.toList.map _)]
    refine ih.append (fun o ho => ?_) (fun hgiven o ho => ?_)
    · cases t <;> simp at ho <;> simp [ho, Occurrence.stops]
    · rw [isCancelled, hgiven] at ht
      refine starts_of_mem_told (s := s) (i := i) ht ?_
      rw [told, append_assoc]
      exact mem_append_right _ ho

theorem Reaches.windsDown (h : Reaches p s t) (hs : Reachable p s) (hc : s.isCancelled = true) : WindsDown s t :=
  h.induct hs (.refl hc) (fun _ _ _ ih hq => ih.quiet hq) (fun _ _ _ _ hu ih hr ht => ih.commit (hu.fits hr) hr ht)

end CampaignState

/-- From a moment at which the campaign is to stop to the end of the campaign. -/
structure StoppedSafely (s t : CampaignState τ) : Prop where
  /-- No job starts, and no execution begins. -/
  starts : ∃ later, t.history = later ++ s.history ∧ ∀ o ∈ later, Occurrence.starts o = false
  waiting : ∀ (i : Nat) (r r' : JobRun τ), s.jobs[i]? = some r → t.jobs[i]? = some r' → r.job.state = .pending →
    r'.job.state = .cancelled ∧ r'.job.executions = 0
  running : ∀ (i : Nat) (r r' : JobRun τ), s.jobs[i]? = some r → t.jobs[i]? = some r' → r.job.state = .running →
    r'.job.executions ≤ r.job.executions + if r.isExecuting then 1 else 0
  findings : s.findings <+: t.findings
  ended : ∀ r ∈ t.jobs, r.job.state ≠ .pending ∧ r.job.state ≠ .running

theorem CampaignState.Reaches.stoppedSafely [Clock τ] {s t : CampaignState τ} (h : Reaches p s t) (hs : Reachable p s)
    (hc : s.isCancelled = true) (hover : t.isOver = true) : StoppedSafely s t := by
  have hwinds := h.windsDown hs hc
  have hended : ∀ r ∈ t.jobs, r.job.state ≠ .pending ∧ r.job.state ≠ .running := by
    intro r hr
    have hterminal := all_eq_true.mp hover r hr
    constructor <;> intro hstate <;> rw [hstate] at hterminal <;> cases hterminal
  constructor
  case starts => exact hwinds.history
  case waiting =>
    intro i r r' hr hr' hpending
    obtain ⟨q, hq, hjob⟩ := hwinds.jobs i r hr
    rw [hr'] at hq
    cases hq
    obtain ⟨hexecutions, hstate⟩ := hjob.waiting hpending
    rw [(hs.recorded hr).fresh hpending] at hexecutions
    exact ⟨hstate.resolve_left (hended r' (mem_of_getElem? hr')).1, hexecutions⟩
  case running =>
    intro i r r' hr hr' _
    obtain ⟨q, hq, hjob⟩ := hwinds.jobs i r hr
    rw [hr'] at hq
    cases hq
    exact Nat.le_trans (Nat.le_add_right _ _) hjob.begun
  case findings => exact hwinds.findings
  case ended => exact hended

/-- Whatever happens before a moment at which the campaign is to stop and after it, the campaign stops
    safely, and nothing starts after a request to stop, also where a watch makes it in the middle of an
    event. A campaign that is run to its end is a case of this. -/
theorem cancellation_safe [Clock τ] (p : Plan τ) (cancelReason : Option String) :
    (∀ before after : List (CampaignEvent τ), ∃ s t, (CampaignState.initial p cancelReason).applyAll p before = .ok s ∧
      s.applyAll p after = .ok t ∧
      t.history.Pairwise (fun newer older => older.stops = true → newer.starts = false) ∧
      (s.isCancelled = true → t.isOver = true → StoppedSafely s t)) ∧
    (∀ (requests : List (τ × Request)) (run : CampaignRun τ), Runner.runPlan p cancelReason requests = .ok run →
      ∃ events t, (CampaignState.initial p cancelReason).applyAll p events = .ok t ∧ t.isOver = true ∧
        run = Runner.finished p t) := by
  have hinit : CampaignState.Reachable p (.initial p cancelReason) := .initial cancelReason
  constructor
  · intro before after
    obtain ⟨s, hs, hbefore⟩ := hinit.exists_applyAll before
    have hreach := hinit.reaches hbefore
    obtain ⟨t, ht, hafter⟩ := hreach.exists_applyAll after
    exact ⟨s, t, hs, ht, (hreach.reaches hafter).stopsHeeded.order, hafter.stoppedSafely hreach⟩
  · intro requests run hrun
    obtain ⟨t, ⟨events, rfl⟩, hover, rfl⟩ := (Runner.runPlan_reaches p cancelReason requests).2 run hrun
    exact ⟨events, _, hinit.applyAll events, hover, rfl⟩

/-- The first job executes an input when the campaign is asked to stop, and the second one waits. -/
theorem cancellation_safe_samplePlan :
    ∃ s t, (CampaignState.initial samplePlan none).applyAll samplePlan
        [.enter 0, .prepared 0, .choose 0, .cancel "enough"] = .ok s ∧
      s.applyAll samplePlan [.executed 0, .choose 0, .enter 1] = .ok t ∧
      s.isCancelled = true ∧ t.isOver = true ∧ StoppedSafely s t := by
  obtain ⟨s, t, hs, ht, -, hsafe⟩ := (cancellation_safe samplePlan none).1
    [.enter 0, .prepared 0, .choose 0, .cancel "enough"] [.executed 0, .choose 0, .enter 1]
  have hcancelled : ((CampaignState.initial samplePlan none).applyAll samplePlan
      [.enter 0, .prepared 0, .choose 0, .cancel "enough"]).toOption.all (·.isCancelled) = true := by decide
  have hover : (((CampaignState.initial samplePlan none).applyAll samplePlan
      [.enter 0, .prepared 0, .choose 0, .cancel "enough"]).bind
        (·.applyAll samplePlan [.executed 0, .choose 0, .enter 1])).toOption.all (·.isOver) = true := by decide
  rw [hs] at hcancelled hover
  rw [Except.bind, ht] at hover
  exact ⟨s, t, hs, ht, hcancelled, hover, hsafe hcancelled hover⟩

variable {τ : Type} {p : Plan τ}

namespace Strategy

/-- The inputs are the first ones that a strategy makes from a generator, and the last generator is what
    is left of it. -/
inductive Draws (s : Strategy) (c : Corpus) (start : Twister) : List (List UInt8) → Twister → Prop where
  | none : Draws s c start [] start
  | more {inputs : List (List UInt8)} {input : List UInt8} {g g' : Twister} (h : Draws s c start inputs g)
      (hnext : s.next c inputs.length g = .ok (some input, g')) : Draws s c start (inputs ++ [input]) g'

section
variable {s : Strategy} {c : Corpus} {start g g' : Twister} {inputs inputs' : List (List UInt8)}

section
variable (h : s.Draws c start inputs g)
include h

theorem Draws.unique (h' : s.Draws c start inputs' g')
    (hlength : inputs.length = inputs'.length) : inputs = inputs' ∧ g = g' := by
  induction h generalizing inputs' g' with
  | none =>
    cases h' with
    | none => exact ⟨rfl, rfl⟩
    | more _ _ => simp at hlength
  | more _ hnext ih =>
    cases h' with
    | none => simp at hlength
    | more h' hnext' =>
      obtain ⟨rfl, rfl⟩ := ih h' (by simpa using hlength)
      rw [hnext] at hnext'
      cases hnext'
      exact ⟨rfl, rfl⟩

theorem Draws.take (n : Nat) : ∃ g', s.Draws c start (inputs.take n) g' := by
  induction h with
  | none => exact ⟨start, by simpa using Draws.none⟩
  | @more inputs input _ g' h hnext ih =>
    by_cases hn : n ≤ inputs.length
    · rw [take_append_of_le_length hn]
      exact ih
    · rw [take_of_length_le (by simp; omega)]
      exact ⟨g', h.more hnext⟩

/-- What is drawn twice from one generator agrees as far as both go. -/
theorem Draws.comparable (h' : s.Draws c start inputs' g') : inputs <+: inputs' ∨ inputs' <+: inputs := by
  rcases Nat.le_total inputs.length inputs'.length with hle | hle
  · obtain ⟨_, htake⟩ := h'.take inputs.length
    rw [(h.unique htake (by simp [hle])).1]
    exact Or.inl <| take_prefix _ _
  · obtain ⟨_, htake⟩ := h.take inputs'.length
    rw [(h'.unique htake (by simp [hle])).1]
    exact Or.inr <| take_prefix _ _

theorem Draws.congr {s' : Strategy} {c' : Corpus} (hnext : s.next c = s'.next c') : s'.Draws c' start inputs g := by
  induction h with
  | none => exact .none
  | more _ hmore ih => exact ih.more (hnext ▸ hmore)

end

end

inductive BuiltIn : Strategy → Prop where
  | random {least most : Int} {s : Strategy} (h : randomBytes least most = .ok s) : BuiltIn s
  | mutation (maxMutations : Int) (maxSize : Option Int) : BuiltIn (mutation maxMutations maxSize)
  | boundary {widths : List Int} {lead : List UInt8} {s : Strategy} (h : boundary widths lead = .ok s) : BuiltIn s
  | replay : BuiltIn seedReplay

theorem BuiltIn.next_congr {s : Strategy} {c c' : Corpus} (h : s.BuiltIn) (hseeds : c.seeds = c'.seeds) :
    s.next c = s.next c' := by
  cases h with
  | random h =>
    unfold randomBytes at h
    split at h <;> cases h
    rfl
  | mutation _ _ =>
    have hchoice : c.choice = c'.choice := by
      funext g
      simp only [Corpus.choice, hseeds]
    simp only [Strategy.mutation, mutatedInput, mutationSeed, hchoice]
  | boundary h =>
    unfold Strategy.boundary at h
    split at h <;> cases h
    rfl
  | replay => simp only [seedReplay, hseeds]

end Strategy

/-- The inputs that a job executed, in order; the history is given the newest first. -/
def inputsOf (i : Nat) : List (Occurrence τ) → List (List UInt8)
  | [] => []
  | .executes j input :: h => if j = i then inputsOf i h ++ [input] else inputsOf i h
  | .moved _ _ _ _ :: h | .cancels _ :: h => inputsOf i h

theorem inputsOf_cons_of_ne {i : Nat} {o : Occurrence τ} (ho : o.job? ≠ some i) (h : List (Occurrence τ)) :
    inputsOf i (o :: h) = inputsOf i h := by
  cases o with
  | moved _ _ _ _ => rfl
  | executes j _ => exact if_neg fun hj => ho (congrArg some hj)
  | cancels _ => rfl

theorem getLast?_inputsOf (i : Nat) (h : List (Occurrence τ)) : (inputsOf i h).getLast? = lastInput? i h := by
  induction h with
  | nil => rfl
  | cons o h ih =>
    cases o with
    | moved _ _ _ _ => exact ih
    | executes j input =>
      by_cases hj : j = i
      · simp [inputsOf, lastInput?, hj]
      · simpa [inputsOf, lastInput?, hj] using ih
    | cancels _ => exact ih

namespace CampaignState

variable {s : CampaignState τ} {i : Nat} {r : JobRun τ}

theorem inputsOf_told (t : Turn) :
    inputsOf i (s.told p i r t ++ s.history) = inputsOf i s.history ++ t.input?.toList := by
  have hnote : ∀ given reason h, inputsOf i (stopNote given reason ++ h) = inputsOf i (h : List (Occurrence τ)) := by
    intro given reason h
    unfold stopNote
    split
    · rfl
    · cases reason <;> rfl
  rw [told, append_assoc, append_assoc, hnote]
  cases t <;> simp [inputsOf]

end CampaignState

/-- The finding of a job shows the last of the inputs that the job executed, and its number: executions
    are numbered from zero, and there were as many as the job counted. -/
structure Job.CrashShown (j : Job τ) (inputs : List (List UInt8)) : Prop where
  count : inputs.length = j.executions
  evidence : ∃ f v input, j.finding = some f ∧ f.evidence = [v] ∧ inputs.getLast? = some input ∧
    v.value.entry? "input_hex" = some (.str (Hash.hex input)) ∧
    v.value.entry? "execution" = some (.int ((j.executions : Int) - 1))

/-- The inputs that the history tells of were drawn by the job. -/
structure JobRun.Drawn (p : Plan τ) (i : Nat) (r : JobRun τ) (h : List (Occurrence τ)) : Prop where
  draws : r.strategy.Draws p.corpus (p.generator r.job.id) (inputsOf i h) r.generator
  count : r.activity ≠ .over → (inputsOf i h).length = r.begun
  crashed : r.job.state = .crashed → r.job.CrashShown (inputsOf i h)

namespace JobRun

variable [Clock τ] {i : Nat} {r : JobRun τ} {t : Turn} {h : List (Occurrence τ)} {stopping full : Bool}

theorem Drawn.draws_after (hd : r.Drawn p i h) (ht : r.Takes p stopping full t) (now : τ) (call : Nat) :
    (r.after p now call t).strategy.Draws p.corpus (p.generator (r.after p now call t).job.id)
      (inputsOf i h ++ t.input?.toList) (r.after p now call t).generator := by
  cases ht with
  | execute ha _ hnext =>
    have hcount : (inputsOf i h).length = r.job.executions := by
      rw [hd.count (by simp [ha]), begun, isExecuting, ha]
      rfl
    exact hd.draws.more (hcount ▸ hnext)
  | _ =>
    rw [show (inputsOf i h ++ Option.toList _) = inputsOf i h from append_nil _]
    exact hd.draws

theorem Drawn.count_after (hd : r.Drawn p i h) (ht : r.Takes p stopping full t) (now : τ) (call : Nat)
    (hlive : (r.after p now call t).activity ≠ .over) :
    (inputsOf i h ++ t.input?.toList).length = (r.after p now call t).begun := by
  cases ht with
  | start ha _ _ | proceed ha | execute ha _ _ | pass ha _ =>
    rw [length_append, hd.count (by simp [ha])]
    simp [begun, isExecuting, after, ha]
  | _ => exact absurd rfl hlive

theorem Drawn.crashShown_after {input : List UInt8} {result : ExecutionResult} {ends : Option τ}
    (hd : r.Drawn p i h) (hlast : lastInput? i h = some input) (ha : r.activity = .executing input ends (.ok result))
    (now : τ) (call : Nat) : (r.after p now call (.crash input result)).job.CrashShown (inputsOf i h) where
  count := by
    rw [hd.count (by simp [ha]), begun, isExecuting, ha]
    rfl
  evidence := by
    obtain ⟨v, hv, hvalue⟩ := crashFinding_evidence p.settings r input result
    refine ⟨_, v, input, rfl, hv, by rw [getLast?_inputsOf, hlast], hvalue ▸ rfl, ?_⟩
    have hnumber : (((r.after p now call (.crash input result)).job.executions : Nat) : Int) - 1 =
        r.job.executions := by
      show ((r.job.executions + 1 : Nat) : Int) - 1 = r.job.executions
      omega
    rw [hnumber, hvalue]
    rfl

end JobRun

theorem CampaignState.Reachable.drawn [Clock τ] {s : CampaignState τ} {i : Nat} {r : JobRun τ} (h : Reachable p s)
    (hr : s.jobs[i]? = some r) : r.Drawn p i s.history := by
  refine h.forall_jobs (motive := fun i r h => r.Drawn p i h) ?initial ?other ?turn i r hr
  case initial =>
    intro i a _
    constructor
    case draws =>
      simp only [JobRun.ofAssignment]
      exact .none
    case count => exact fun _ => rfl
    case crashed =>
      intro hstate
      cases hstate
  case other =>
    intro i r o h ho hd
    obtain ⟨hdraws, hcount, hcrashed⟩ := hd
    constructor <;> rw [inputsOf_cons_of_ne ho] <;> assumption
  case turn =>
    intro s i r t hs hd hr ht
    have hlive := ht.isTerminal_eq_false (hs.fits hr)
    constructor
    case draws => exact inputsOf_told t ▸ hd.draws_after ht _ _
    case count => exact inputsOf_told t ▸ hd.count_after ht _ _
    case crashed =>
      rw [inputsOf_told, JobRun.after_state]
      intro hcrashed
      cases ht with
      | @crash input ends result ha _ =>
        rw [show (inputsOf i s.history ++ Option.toList _) = inputsOf i s.history from append_nil _]
        exact hd.crashShown_after ((hs.recorded hr).executing _ _ _ ha) ha _ _
      | proceed _ | execute _ _ _ | pass _ _ =>
        rw [show r.job.state = .crashed from hcrashed] at hlive
        cases hlive
      | _ => cases hcrashed

theorem CampaignState.Reachable.exists_draws [Clock τ] {s : CampaignState τ} {i : Nat} {a : Assignment τ}
    (h : Reachable p s) (ha : p.assignments[i]? = some a) :
    ∃ g, a.strategy.Draws p.corpus (p.generator a.id) (inputsOf i s.history) g := by
  rw [← h.assignments, getElem?_map, Option.map_eq_some_iff] at ha
  obtain ⟨r, hr, rfl⟩ := ha
  exact ⟨r.generator, (h.drawn hr).draws⟩

/-- Whatever happens in two campaigns with one seed, and whatever else they are to do: the inputs of two
    jobs of one id, with one built-in strategy and the same seeds, agree as far as both go, and a crash
    is recorded with its input and the number of its execution. -/
theorem inputs_reproducible {σ : Type} [Clock τ] [Clock σ] (p : Plan τ) (q : Plan σ)
    (hseed : p.settings.seed = q.settings.seed) (hseeds : p.corpus.seeds = q.corpus.seeds) (i j : Nat)
    (a : Assignment τ) (b : Assignment σ) (ha : p.assignments[i]? = some a) (hb : q.assignments[j]? = some b)
    (hid : a.id = b.id) (hstrategy : a.strategy = b.strategy) (hbuiltIn : a.strategy.BuiltIn)
    (cancelReason cancelReason' : Option String) :
    (∀ (events : List (CampaignEvent τ)) (events' : List (CampaignEvent σ)),
      ∃ s t, (CampaignState.initial p cancelReason).applyAll p events = .ok s ∧
        (CampaignState.initial q cancelReason').applyAll q events' = .ok t ∧
        (inputsOf i s.history <+: inputsOf j t.history ∨ inputsOf j t.history <+: inputsOf i s.history) ∧
        ∀ r, s.jobs[i]? = some r → r.job.state = .crashed → r.job.CrashShown (inputsOf i s.history)) ∧
    (∀ (requests : List (τ × Request)) (requests' : List (σ × Request)) (run : CampaignRun τ) (run' : CampaignRun σ),
      Runner.runPlan p cancelReason requests = .ok run → Runner.runPlan q cancelReason' requests' = .ok run' →
        (inputsOf i run.history.reverse <+: inputsOf j run'.history.reverse ∨
          inputsOf j run'.history.reverse <+: inputsOf i run.history.reverse) ∧
        ∀ k, run.campaign.jobs[i]? = some k → k.state = .crashed → k.CrashShown (inputsOf i run.history.reverse)) := by
  have hp : CampaignState.Reachable p (.initial p cancelReason) := .initial cancelReason
  have hq : CampaignState.Reachable q (.initial q cancelReason') := .initial cancelReason'
  have hnext : b.strategy.next q.corpus = a.strategy.next p.corpus :=
    hstrategy ▸ (hbuiltIn.next_congr hseeds).symm
  have hgenerator : q.generator b.id = p.generator a.id := by rw [Plan.generator, Plan.generator, hseed, hid]
  have comparable : ∀ {s t}, CampaignState.Reachable p s → CampaignState.Reachable q t →
      inputsOf i s.history <+: inputsOf j t.history ∨ inputsOf j t.history <+: inputsOf i s.history := by
    intro s t hs ht
    obtain ⟨_, hdraws⟩ := hs.exists_draws ha
    obtain ⟨_, hdraws'⟩ := ht.exists_draws hb
    rw [hgenerator] at hdraws'
    exact hdraws.comparable (hdraws'.congr hnext)
  refine ⟨fun events events' => ?_, fun requests requests' run run' hrun hrun' => ?_⟩
  · obtain ⟨s, hs, hreaches⟩ := hp.exists_applyAll events
    obtain ⟨t, ht, hreaches'⟩ := hq.exists_applyAll events'
    have hreach := hp.reaches hreaches
    exact ⟨s, t, hs, ht, comparable hreach (hq.reaches hreaches'), fun r hr => (hreach.drawn hr).crashed⟩
  · obtain ⟨s, hreaches, -, rfl⟩ := (Runner.runPlan_reaches p cancelReason requests).2 run hrun
    obtain ⟨t, hreaches', -, rfl⟩ := (Runner.runPlan_reaches q cancelReason' requests').2 run' hrun'
    have hreach := hp.reaches hreaches
    simp only [Runner.finished, List.reverse_reverse]
    refine ⟨comparable hreach (hq.reaches hreaches'), fun k hk hcrashed => ?_⟩
    obtain ⟨r, hr, rfl⟩ := Option.map_eq_some_iff.mp ((List.getElem?_map ..).symm.trans hk)
    exact (hreach.drawn hr).crashed hcrashed

/-- Other targets, more slots and less time than in the sample. -/
def hurriedPlan : Plan Nat := { samplePlan with
  jobCount := .whole 2
  perJobTimeout := .whole 3
  limits := { job := 3, grace := some 0 }
  targets := [sampleTarget "bank", sampleTarget "vault", sampleTarget "pool"] }

/-- The first job crashes on its second input; in a campaign that is interrupted it gets to the first one. -/
theorem inputs_reproducible_samplePlan :
    ∃ run run', Runner.runPlan samplePlan none [] = .ok run ∧
      Runner.runPlan hurriedPlan none [(1, .interrupt)] = .ok run' ∧
      inputsOf 0 run.history.reverse = [[1], [0, 7]] ∧ inputsOf 0 run'.history.reverse = [[1]] ∧
      (inputsOf 0 run.history.reverse <+: inputsOf 0 run'.history.reverse ∨
        inputsOf 0 run'.history.reverse <+: inputsOf 0 run.history.reverse) ∧
      ∃ k, run.campaign.jobs[0]? = some k ∧ k.state = .crashed ∧ k.CrashShown (inputsOf 0 run.history.reverse) := by
  have hcrash : (Runner.runPlan samplePlan none []).toOption.any (fun run =>
      inputsOf 0 run.history.reverse = [[1], [0, 7]] ∧ run.campaign.jobs[0]?.map (·.state) = some .crashed) = true := by
    decide
  have hhurried : (Runner.runPlan hurriedPlan none [(1, .interrupt)]).toOption.any (fun run =>
      inputsOf 0 run.history.reverse = [[1]]) = true := by decide
  cases hrun : Runner.runPlan samplePlan none [] with
  | error e =>
    rw [hrun] at hcrash
    cases hcrash
  | ok run =>
    cases hrun' : Runner.runPlan hurriedPlan none [(1, .interrupt)] with
    | error e =>
      rw [hrun'] at hhurried
      cases hhurried
    | ok run' =>
      rw [hrun] at hcrash
      rw [hrun'] at hhurried
      obtain ⟨hinputs, hstate⟩ := of_decide_eq_true hcrash
      obtain ⟨k, hk, hcrashed⟩ := Option.map_eq_some_iff.mp hstate
      obtain ⟨hcomparable, hshown⟩ := (inputs_reproducible samplePlan hurriedPlan rfl rfl 0 0
        ⟨"job-0001", 0, sampleTarget "vault", .seedReplay⟩ ⟨"job-0001", 0, sampleTarget "bank", .seedReplay⟩
        rfl rfl rfl rfl .replay none none).2 [] [(1, .interrupt)] run run' hrun hrun'
      exact ⟨run, run', rfl, rfl, hinputs, of_decide_eq_true hhurried, hcomparable, k, hk, hcrashed,
        hshown k hk hcrashed⟩

end ContractAudit

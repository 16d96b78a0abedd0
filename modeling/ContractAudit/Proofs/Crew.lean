import ContractAudit.Engine.Basic
import ContractAudit.Proofs.AggregateOrder
import ContractAudit.Rule.Search

/-! # Workers in any order -/

namespace ContractAudit
open List Collector
variable {units : List ScanUnit} {rules : List Rule}

/-- The collector with what an evaluation hands in: all its findings at once, or its failure. -/
def Collector.take (c : Collector) : Outcome → Collector
  | .skipped => c
  | .found _ _ fs => c.extend fs
  | .failed f => c.addFailure f

@[simp] theorem Collector.findings_take (c : Collector) (o : Outcome) :
    (c.take o).findings = c.findings ++ o.findings := by
  cases o <;> simp [take, extend, addFailure, Outcome.findings]

@[simp] theorem Collector.failures_take (c : Collector) (o : Outcome) :
    (c.take o).failures = c.failures ++ o.failures := by
  cases o <;> simp [take, extend, addFailure, Outcome.failures]

structure Crew where
  /-- What each worker has yet to hand in, in its order. -/
  pending : List (List Outcome)
  collector : Collector := {}
  events : List AuditEvent := []

namespace Crew

/-- One of the workers hands in what it has next. -/
inductive Step : Crew → Crew → Prop where
  | handIn (before after : List (List Outcome)) (o : Outcome) (rest : List Outcome) (c : Collector)
      (events : List AuditEvent) :
    Step ⟨before ++ (o :: rest) :: after, c, events⟩ ⟨before ++ rest :: after, c.take o, events ++ o.events⟩

/-- The crew gets from one state to the other, whoever hands in when. -/
abbrev Reaches : Crew → Crew → Prop := Relation.ReflTransGen Step

def Done (p : Crew) : Prop := ∀ w ∈ p.pending, w = []

def findings (p : Crew) : List Finding := p.collector.findings ++ p.pending.flatten.flatMap Outcome.findings

def failures (p : Crew) : List RuleFailure := p.collector.failures ++ p.pending.flatten.flatMap Outcome.failures

/-- No two workers have failures to hand in at one path. -/
def Apart (p : Crew) : Prop :=
  p.pending.Pairwise fun v w =>
    ∀ f ∈ v.flatMap Outcome.failures, ∀ g ∈ w.flatMap Outcome.failures, f.unitPath ≠ g.unitPath

theorem Done.flatten_pending {p : Crew} (h : p.Done) : p.pending.flatten = [] := flatten_eq_nil_iff.mpr h

structure Kept (p q : Crew) : Prop where
  findings : p.findings.Perm q.findings
  failures : p.failures.Perm q.failures
  apart : p.Apart → q.Apart
  inOrder : p.Apart → ∀ path, p.failures.filter (·.unitPath == path) = q.failures.filter (·.unitPath == path)

namespace Kept
variable {p q r : Crew}

theorem refl (p : Crew) : Kept p p := ⟨Perm.refl _, Perm.refl _, id, fun _ _ => rfl⟩

theorem trans (h : Kept p q) (h' : Kept q r) : Kept p r where
  findings := h.findings.trans h'.findings
  failures := h.failures.trans h'.failures
  apart := h'.apart ∘ h.apart
  inOrder hp path := (h.inOrder hp path).trans (h'.inOrder (h.apart hp) path)

theorem filter_append_comm {s t : List RuleFailure} (h : ∀ f ∈ s, ∀ g ∈ t, f.unitPath ≠ g.unitPath)
    (path : String) : (s ++ t).filter (·.unitPath == path) = (t ++ s).filter (·.unitPath == path) := by
  rw [filter_append, filter_append]
  cases hs : s.filter (·.unitPath == path) with
  | nil => simp
  | cons f l =>
    have hf : f ∈ s.filter (·.unitPath == path) := hs ▸ mem_cons_self ..
    have ht : t.filter (·.unitPath == path) = [] := by
      rw [filter_eq_nil_iff]
      intro g hg hpath
      have hfpath := of_mem_filter hf
      exact h f (mem_of_mem_filter hf) g hg ((beq_iff_eq.mp hfpath).trans (beq_iff_eq.mp hpath).symm)
    simp [ht]

theorem of_step (h : Step p q) : Kept p q := by
  obtain ⟨before, after, o, rest, c, events⟩ := h
  constructor
  · simp only [Crew.findings, findings_take, flatten_append, flatten_cons, flatMap_append, flatMap_cons, append_assoc]
    refine Perm.append_left _ ?_
    rw [← append_assoc, ← append_assoc o.findings]
    exact perm_append_comm.append_right _
  · simp only [Crew.failures, failures_take, flatten_append, flatten_cons, flatMap_append, flatMap_cons, append_assoc]
    refine Perm.append_left _ ?_
    rw [← append_assoc, ← append_assoc o.failures]
    exact perm_append_comm.append_right _
  · intro hp
    simp only [Apart, pairwise_append, pairwise_cons, mem_cons, flatMap_cons] at hp ⊢
    obtain ⟨hbefore, ⟨hnow, hafter⟩, hacross⟩ := hp
    refine ⟨hbefore, ⟨fun w hw f hf => hnow w hw f (mem_append_right _ hf), hafter⟩, ?_⟩
    rintro v hv w (rfl | hw) f hf g hg
    · exact hacross v hv _ (Or.inl rfl) f hf g (mem_append_right _ hg)
    · exact hacross v hv w (Or.inr hw) f hf g hg
  · intro hp path
    simp only [Apart, pairwise_append] at hp
    have hapart : ∀ f ∈ before.flatten.flatMap Outcome.failures, ∀ g ∈ o.failures, f.unitPath ≠ g.unitPath := by
      intro f hf g hg
      obtain ⟨a, ha, hfa⟩ := mem_flatMap.mp hf
      obtain ⟨v, hv, hav⟩ := mem_flatten.mp ha
      exact hp.2.2 v hv _ (mem_cons_self ..) f (mem_flatMap.mpr ⟨a, hav, hfa⟩) g (mem_append_left _ hg)
    have hcomm := filter_append_comm hapart path
    simp only [Crew.failures, failures_take, flatten_append, flatten_cons, flatMap_append,
      flatMap_cons, filter_append, append_assoc] at hcomm ⊢
    rw [← append_assoc ((before.flatten.flatMap Outcome.failures).filter _), hcomm, append_assoc]

theorem of_reaches (h : Reaches p q) : Kept p q := by
  induction h with
  | refl => exact refl p
  | tail _ hstep ih => exact ih.trans (of_step hstep)

end Kept

theorem reaches_rest (before after : List (List Outcome)) (w : List Outcome) (c : Collector)
    (events : List AuditEvent) : Reaches ⟨before ++ w :: after, c, events⟩
      ⟨before ++ [] :: after, w.foldl take c, events ++ w.flatMap Outcome.events⟩ := by
  induction w generalizing c events with
  | nil => simpa using Relation.ReflTransGen.refl
  | cons o rest ih =>
    refine Relation.ReflTransGen.head (Step.handIn before after o rest c events) ?_
    simpa using ih (c.take o) (events ++ o.events)

theorem reaches_flatten (before ws : List (List Outcome)) (c : Collector) (events : List AuditEvent) :
    Reaches ⟨before ++ ws, c, events⟩ ⟨before ++ ws.map fun _ => [], ws.flatten.foldl take c,
        events ++ ws.flatten.flatMap Outcome.events⟩ := by
  induction ws generalizing before c events with
  | nil => simpa using Relation.ReflTransGen.refl
  | cons w ws ih =>
    refine (reaches_rest before ws w c events).trans ?_
    have hrest := ih (before ++ [[]]) (w.foldl take c) (events ++ w.flatMap Outcome.events)
    simpa only [append_assoc, singleton_append, map_cons, flatten_cons, foldl_append, flatMap_append] using hrest

end Crew

theorem Collector.findings_foldl_take (os : List Outcome) (c : Collector) :
    (os.foldl take c).findings = c.findings ++ os.flatMap Outcome.findings := by
  induction os generalizing c with
  | nil => simp
  | cons o os ih => simp [ih]

theorem Collector.failures_foldl_take (os : List Outcome) (c : Collector) :
    (os.foldl take c).failures = c.failures ++ os.flatMap Outcome.failures := by
  induction os generalizing c with
  | nil => simp
  | cons o os ih => simp [ih]

namespace Engine

variable (units)

def crew (rules : List Rule) : Crew := { pending := workers units rules }

/-- The result of a run, as the engine makes it of what its workers have handed in. -/
def resultOf (rules : List Rule) (p : Crew) : EngineResult where
  findings := p.collector.findings
  failures := sortFailures p.collector.failures
  ruleOrder := rankRules rules
  units := units.length
  rules := rules.length
  events := p.events

/-- The sequential mode is one of the orders in which the workers can hand in. -/
theorem exists_reaches_run (rules : List Rule) :
    ∃ p, (crew units rules).Reaches p ∧ p.Done ∧ resultOf units rules p = run units rules := by
  refine ⟨_, Crew.reaches_flatten [] (workers units rules) {} [], ?_, ?_⟩
  · simp [Crew.Done]
  · simp [resultOf, run, collect, findings_foldl_take, failures_foldl_take]

variable {units}

theorem unitPath_of_mem_unitOutcomes {x : Index} {u : ScanUnit} {f : RuleFailure}
    (hf : f ∈ (unitOutcomes rules x u).flatMap Outcome.failures) : f.unitPath = u.path := by
  obtain ⟨o, ho, hf⟩ := mem_flatMap.mp hf
  obtain ⟨r, -, rfl⟩ := mem_map.mp ho
  unfold Rule.outcome at hf
  split at hf
  · simp [Outcome.failures] at hf
  · simp [Outcome.failures] at hf
  · rw [mem_singleton.mp hf]

theorem apart_crew (h : (units.map (·.path)).Nodup) (rules : List Rule) : (crew units rules).Apart := by
  have hsorted : ((Index.sortUnits units).map (·.path)).Nodup := ((mergeSort_perm units _).map _).nodup_iff.mpr h
  simp only [Crew.Apart, crew, workers, pairwise_map]
  refine (pairwise_map.mp hsorted).imp fun {u v} huv f hf g hg => ?_
  rw [unitPath_of_mem_unitOutcomes hf, unitPath_of_mem_unitOutcomes hg]
  exact huv

theorem sortFailures_congr {s t : List RuleFailure}
    (h : ∀ path, s.filter (·.unitPath == path) = t.filter (·.unitPath == path)) : sortFailures s = sortFailures t := by
  refine mergeSort_eq_of_keys (fun _ _ _ => Std.TransCmp.isLE_trans) (isLE_total _) (fun a b hab => ?_) h
  rw [tied, Bool.and_eq_true] at hab
  have htie := Std.OrientedCmp.isLE_antisymm hab.1 hab.2
  simp only [compareLex_eq_eq, compareOn, Std.LawfulEqCmp.compare_eq_iff_eq] at htie
  exact htie.1.symm

end Engine

def EngineResult.report [SetOrder] (r : EngineResult) (metadata : Entries) : Report :=
  aggregate r.findings r.diagnostics r.ruleOrder metadata

theorem EngineResult.report_of_perm [SetOrder] {r s : EngineResult} (hfindings : r.findings.Perm s.findings)
    (hfailures : r.failures.Perm s.failures) (metadata : Entries) : r.report metadata = s.report metadata := by
  rw [report, aggregate_of_order _ s.ruleOrder]
  exact aggregate_of_perm _ _ hfindings fun d => (hfailures.map RuleFailure.toDiagnostic).mem_iff

section Finished
variable {p q : Crew} (hp : (Engine.crew units rules).Reaches p) (hpd : p.Done)
    (hq : (Engine.crew units rules).Reaches q)
  (hqd : q.Done)
include hp hpd hq hqd

theorem findings_perm_of_done : p.collector.findings.Perm q.collector.findings := by
  have h := (Crew.Kept.of_reaches hp).findings.symm.trans (Crew.Kept.of_reaches hq).findings
  simpa [Crew.findings, hpd.flatten_pending, hqd.flatten_pending] using h

theorem failures_perm_of_done : p.collector.failures.Perm q.collector.failures := by
  have h := (Crew.Kept.of_reaches hp).failures.symm.trans (Crew.Kept.of_reaches hq).failures
  simpa [Crew.failures, hpd.flatten_pending, hqd.flatten_pending] using h

theorem sortFailures_eq_of_done (hpaths : (units.map (·.path)).Nodup) :
    Engine.sortFailures p.collector.failures = Engine.sortFailures q.collector.failures := by
  have hapart := Engine.apart_crew hpaths rules
  refine Engine.sortFailures_congr fun path => ?_
  have h := ((Crew.Kept.of_reaches hp).inOrder hapart path).symm.trans ((Crew.Kept.of_reaches hq).inOrder hapart path)
  simpa [Crew.failures, hpd.flatten_pending, hqd.flatten_pending] using h

end Finished

def sampleUnits : List ScanUnit := [.of "a.rs" "x" none, .of "b.rs" "x" none]

def sampleRules : List Rule :=
  [SearchRule.rule { id := "look", outcome := .lines "x" 0 } {},
    SearchRule.rule { id := "stop", outcome := .fails ⟨"ValueError", "no"⟩ } {}]

/-- The workers of the two units when the second has handed in all before the first begins. -/
def sampleCrew : Crew :=
  let workers := Engine.workers sampleUnits sampleRules
  { pending := [[], []]
    collector := (workers.getD 1 [] ++ workers.getD 0 []).foldl take {}
    events := (workers.getD 1 [] ++ workers.getD 0 []).flatMap Outcome.events }

variable {units : List ScanUnit} {rules : List Rule} {r : Rule} {u : ScanUnit} {x : Index}

inductive Rule.Contributes (r : Rule) (u : ScanUnit) (x : Index) : List Finding → List RuleFailure → Prop where
  | nothing (happlies : r.appliesTo u = .ok false) : Contributes r u x [] []
  | all {y : Yield} (happlies : r.appliesTo u = .ok true) (heval : r.evaluate u x = .ok y) (hvalid : y.invalid = 0) :
    Contributes r u x y.findings []
  | unasked {f : Fault} (happlies : r.appliesTo u = .error f) : Contributes r u x [] [⟨r.id, u.path, f⟩]
  | fails {f : Fault} (happlies : r.appliesTo u = .ok true) (heval : r.evaluate u x = .error f) :
    Contributes r u x [] [⟨r.id, u.path, f⟩]
  /-- The evaluation yields values that are no findings, whatever findings there are beside them. -/
  | invalid {y : Yield} (happlies : r.appliesTo u = .ok true) (heval : r.evaluate u x = .ok y)
    (hinvalid : y.invalid ≠ 0) :
    Contributes r u x [] [⟨r.id, u.path, invalidYield y.invalid⟩]

theorem Rule.outcome_of_check_ok {found : Option (List Finding)} (h : r.check u x = .ok found) :
    (r.outcome u x).findings = found.getD [] ∧ (r.outcome u x).failures = [] := by
  rw [outcome, h]
  cases found <;> exact ⟨rfl, rfl⟩

theorem Rule.outcome_of_check_error {f : Fault} (h : r.check u x = .error f) :
    (r.outcome u x).findings = [] ∧ (r.outcome u x).failures = [⟨r.id, u.path, f⟩] := by
  rw [outcome, h]
  exact ⟨rfl, rfl⟩

theorem Rule.Contributes.eq_outcome {fs : List Finding} {es : List RuleFailure} (h : r.Contributes u x fs es) :
    (r.outcome u x).findings = fs ∧ (r.outcome u x).failures = es := by
  cases h with
  | nothing happlies =>
    have hcheck : r.check u x = .ok none := by simp only [check, happlies]; rfl
    exact outcome_of_check_ok hcheck
  | @all y happlies heval hvalid =>
    have hcheck : r.check u x = .ok (some y.findings) := by
      simp only [check, happlies, heval]
      exact if_pos hvalid
    exact outcome_of_check_ok hcheck
  | @unasked f happlies =>
    have hcheck : r.check u x = .error f := by simp only [check, happlies]; rfl
    exact outcome_of_check_error hcheck
  | @fails f happlies heval =>
    have hcheck : r.check u x = .error f := by simp only [check, happlies, heval]; rfl
    exact outcome_of_check_error hcheck
  | @invalid y happlies heval hinvalid =>
    have hcheck : r.check u x = .error (invalidYield y.invalid) := by
      simp only [check, happlies, heval]
      exact if_neg hinvalid
    exact outcome_of_check_error hcheck

theorem Rule.exists_contributes (r : Rule) (u : ScanUnit) (x : Index) : ∃ fs es, r.Contributes u x fs es := by
  cases happlies : r.appliesTo u with
  | error f => exact ⟨_, _, .unasked happlies⟩
  | ok applies =>
    cases applies with
    | false => exact ⟨_, _, .nothing happlies⟩
    | true =>
      cases heval : r.evaluate u x with
      | error f => exact ⟨_, _, .fails happlies heval⟩
      | ok y =>
        by_cases hvalid : y.invalid = 0
        · exact ⟨_, _, .all happlies heval hvalid⟩
        · exact ⟨_, _, .invalid happlies heval hvalid⟩

theorem Rule.contributes_iff {fs : List Finding} {es : List RuleFailure} :
    r.Contributes u x fs es ↔ (r.outcome u x).findings = fs ∧ (r.outcome u x).failures = es := by
  refine ⟨Contributes.eq_outcome, ?_⟩
  rintro ⟨rfl, rfl⟩
  obtain ⟨fs, es, h⟩ := r.exists_contributes u x
  obtain ⟨rfl, rfl⟩ := h.eq_outcome
  exact h

/-- The outcomes that the workers have handed in so far, of all that they have to hand in. -/
structure Crew.HandedIn (all : List Outcome) (p : Crew) (handed : List Outcome) : Prop where
  perm : (handed ++ p.pending.flatten).Perm all
  findings : p.collector.findings = handed.flatMap Outcome.findings
  failures : p.collector.failures = handed.flatMap Outcome.failures

namespace Crew.HandedIn
variable {all handed : List Outcome} {p q : Crew}

theorem of_step (h : HandedIn all p handed) (hstep : Step p q) : ∃ o, HandedIn all q (handed ++ [o]) := by
  obtain ⟨before, after, o, rest, c, events⟩ := hstep
  refine ⟨o, ⟨Perm.trans ?_ h.perm, ?_, ?_⟩⟩
  · simp only [flatten_append, flatten_cons, append_assoc, cons_append, nil_append]
    exact Perm.append_left _ perm_middle.symm
  · rw [flatMap_append, ← h.findings]
    simp
  · rw [flatMap_append, ← h.failures]
    simp

theorem of_reaches (h : HandedIn all p handed) (hreaches : Reaches p q) : ∃ handed', HandedIn all q handed' := by
  induction hreaches with
  | refl => exact ⟨handed, h⟩
  | tail _ hstep ih =>
    obtain ⟨handed', h'⟩ := ih
    obtain ⟨o, ho⟩ := h'.of_step hstep
    exact ⟨_, ho⟩

end Crew.HandedIn

namespace Engine

variable (units)

theorem handedIn_crew (rules : List Rule) :
    (crew units rules).HandedIn (workers units rules).flatten [] := ⟨Perm.refl _, rfl, rfl⟩

inductive Results (units : List ScanUnit) (rules : List Rule) : ExecutionMode → EngineResult → Prop where
  | sequential : Results units rules .sequential (run units rules)
  | parallel {p : Crew} (hreaches : (crew units rules).Reaches p) (hdone : p.Done) :
    Results units rules .parallel (resultOf units rules p)

def index : Index := Index.ofUnits (Index.sortUnits units)

def contributions (rules : List Rule) : List Outcome :=
  units.flatMap fun u => rules.map fun r => r.outcome u (index units)

theorem workers_perm_contributions (rules : List Rule) :
    (workers units rules).flatten.Perm (contributions units rules) := by
  simp only [workers, contributions, ← flatMap_def]
  refine (Perm.flatMap_right _ (mergeSort_perm units _)).trans (Perm.flatMap_left _ fun u _ => ?_)
  exact (mergeSort_perm rules _).map _

variable {units}

theorem Results.exists_handed {mode : ExecutionMode} {result : EngineResult} (h : Results units rules mode result) :
    ∃ handed : List Outcome, handed.Perm (contributions units rules) ∧
      result.findings = handed.flatMap Outcome.findings ∧
      result.failures.Perm (handed.flatMap Outcome.failures) := by
  cases h with
  | sequential =>
    exact ⟨(workers units rules).flatten, workers_perm_contributions units rules, rfl, mergeSort_perm _ _⟩
  | parallel hreaches hdone =>
    obtain ⟨handed, h⟩ := (handedIn_crew units rules).of_reaches hreaches
    have hperm := h.perm
    rw [hdone.flatten_pending, append_nil] at hperm
    refine ⟨handed, hperm.trans (workers_perm_contributions units rules), h.findings, ?_⟩
    rw [← h.failures]
    exact mergeSort_perm _ _

theorem contributions_perm_remove (units : List ScanUnit) (before : List Rule) (r : Rule) (after : List Rule) :
    (contributions units (before ++ r :: after)).Perm
      (contributions units (before ++ after) ++ units.map fun u => r.outcome u (index units)) := by
  have hunit : ∀ u ∈ units, ((before ++ r :: after).map fun r => r.outcome u (index units)).Perm
      (((before ++ after).map fun r => r.outcome u (index units)) ++ [r.outcome u (index units)]) := by
    intro u _
    rw [← map_singleton (f := fun r : Rule => r.outcome u (index units)), ← map_append]
    exact (perm_middle.trans (perm_append_singleton _ _).symm).map _
  refine (Perm.flatMap_left _ hunit).trans ?_
  rw [← flatMap_pure_eq_map]
  exact (flatMap_append_perm units _ _).symm

end Engine

/-- Faults of rules are isolated, in either mode and in whatever order the workers hand in. Each rule
    contributes on each unit nothing, all its findings, or one failure; a run collects these
    contributions as they are; and a run without one of the rules, in either mode, has the findings
    and failures of all the others. -/
theorem rule_faults_isolated {mode : ExecutionMode} {result : EngineResult}
    (h : Engine.Results units rules mode result) :
    (∀ r u fs es, Rule.Contributes r u (Engine.index units) fs es ↔
      (r.outcome u (Engine.index units)).findings = fs ∧ (r.outcome u (Engine.index units)).failures = es) ∧
    (∃ handed : List Outcome, handed.Perm (Engine.contributions units rules) ∧
      result.findings = handed.flatMap Outcome.findings ∧ result.failures.Perm (handed.flatMap Outcome.failures)) ∧
    ∀ before r after, rules = before ++ r :: after →
      ∀ mode' result', Engine.Results units (before ++ after) mode' result' →
        result.findings.Perm
          (result'.findings ++ units.flatMap fun u => (r.outcome u (Engine.index units)).findings) ∧
        result.failures.Perm
          (result'.failures ++ units.flatMap fun u => (r.outcome u (Engine.index units)).failures) := by
  refine ⟨fun r u fs es => Rule.contributes_iff, h.exists_handed, ?_⟩
  rintro before r after rfl mode' result' h'
  obtain ⟨handed, hperm, hfindings, hfailures⟩ := h.exists_handed
  obtain ⟨handed', hperm', hfindings', hfailures'⟩ := h'.exists_handed
  have hhanded : handed.Perm (handed' ++ units.map fun u => r.outcome u (Engine.index units)) :=
    (hperm.trans (Engine.contributions_perm_remove units before r after)).trans (hperm'.symm.append_right _)
  constructor
  · rw [hfindings, hfindings']
    simpa only [List.flatMap_append, List.flatMap_map] using hhanded.flatMap_right Outcome.findings
  · refine hfailures.trans ((hhanded.flatMap_right Outcome.failures).trans ?_)
    rw [List.flatMap_append, List.flatMap_map]
    exact hfailures'.symm.append_right _

theorem rule_faults_isolated_sampleRules :
    ∃ result, Engine.Results sampleUnits sampleRules .parallel result ∧
      result.findings.Perm (Engine.run sampleUnits (sampleRules.take 1)).findings ∧
      result.failures.Perm ((Engine.run sampleUnits (sampleRules.take 1)).failures ++
        [⟨"stop", "a.rs", ⟨"ValueError", "no"⟩⟩, ⟨"stop", "b.rs", ⟨"ValueError", "no"⟩⟩]) := by
  obtain ⟨p, hreaches, hdone, -⟩ := Engine.exists_reaches_run sampleUnits sampleRules
  have hresult := Engine.Results.parallel hreaches hdone
  have hremoved := (rule_faults_isolated hresult).2.2 (sampleRules.take 1) _ [] rfl _ _ .sequential
  refine ⟨_, hresult, hremoved.1.trans ?_, hremoved.2.trans ?_⟩
  · exact Perm.of_eq (List.append_nil _)
  · exact Perm.append_left _ (Perm.of_eq rfl)

variable {units units' : List ScanUnit} {rules rules' : List Rule}

theorem Index.sortUnits_eq_of_perm (h : units.Perm units') (hpaths : (units.map (·.path)).Nodup) :
    sortUnits units = sortUnits units' := by
  have trans := fun a b c : ScanUnit => isOrder_text.trans a.path b.path c.path
  have total := fun a b : ScanUnit => isOrder_text.total a.path b.path
  refine Perm.eq_of_pairwise (fun a b ha hb hab hba => ?_) (pairwise_mergeSort trans total units)
    (pairwise_mergeSort trans total units') ?_
  · have hpath : a.path = b.path := isOrder_text.antisymm _ _ hab hba
    exact inj_on_of_nodup_map hpaths (mem_mergeSort.mp ha) (h.mem_iff.mpr (mem_mergeSort.mp hb)) hpath
  · exact (mergeSort_perm units _).trans (h.trans (mergeSort_perm units' _).symm)

theorem Engine.sortRules_perm (h : rules.Perm rules') : (sortRules rules).Perm (sortRules rules') :=
  (mergeSort_perm rules _).trans (h.trans (mergeSort_perm rules' _).symm)

theorem Engine.workers_flatten_perm (hu : units.Perm units') (hpaths : (units.map (·.path)).Nodup)
    (hr : rules.Perm rules') : (workers units rules).flatten.Perm (workers units' rules').flatten := by
  simp only [workers, ← Index.sortUnits_eq_of_perm hu hpaths, ← flatMap_def]
  exact Perm.flatMap_left _ fun u _ => (sortRules_perm hr).map _

end ContractAudit

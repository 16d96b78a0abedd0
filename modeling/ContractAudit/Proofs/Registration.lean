import Mathlib.Data.List.Nodup
import ContractAudit.Plugin.Registry
import ContractAudit.Proofs.Checked

/-! # Plugins are accepted whole or not at all

Everything is read off from what one call can do (`Registry.after_cases`) and from what an accepted plugin
looks like (`Registry.Admits`). -/

namespace ContractAudit
open List Text

namespace Plugin

def declares (p : Plugin) (capability : String) : Bool :=
  match p.declared with
  | .ok declared => declared.any fun c => capability? c == some capability
  | .error _ => false

def handedOut {α : Type} : Option (Provision α) → List α
  | some (.ok items) => items.filterMap fun i => match i with
    | .item a => some a
    | .other _ => none
  | _ => []

/-- The rules that a plugin stands for: all that it hands out, if it says that it has some. -/
def offeredRules (p : Plugin) : List Rule :=
  if p.declares rulesCapability then handedOut p.rules else []

def offeredStrategies (p : Plugin) : List Strategy :=
  if p.declares strategiesCapability then handedOut p.strategies else []

theorem collect_eq_ok {α : Type} {method expected : String} {provision : Provision α} {as : List α}
    (h : collect method expected provision = .ok as) : handedOut (some provision) = as := by
  cases provision with
  | error f => cases h
  | ok items =>
    replace h := mapM_eq_ok.mp h
    induction h with
    | nil => rfl
    | @cons i a items as hi _ ih =>
      cases i with
      | item b =>
        cases hi
        simpa [handedOut] using ih
      | other kind => cases hi

theorem checkCapabilities_eq_ok {declared : List Value} {capabilities : List String}
    (h : checkCapabilities declared = .ok capabilities) :
    Forall₂ (fun c s => capability? c = some s) declared capabilities := by
  unfold checkCapabilities at h
  split at h
  · cases h
  · refine (mapM_eq_ok.mp h).imp fun c s hc => ?_
    split at hc
    · next hs =>
      cases hc
      exact hs
    · cases hc

theorem contains_of_checkCapabilities {p : Plugin} {declared : List Value} {capabilities : List String}
    (hp : p.declared = .ok declared) (h : checkCapabilities declared = .ok capabilities)
    (capability : String) : capabilities.contains capability = p.declares capability := by
  have hany {vs : List Value} {ss : List String} (hall : Forall₂ (fun c s => capability? c = some s) vs ss) :
      ss.contains capability = vs.any fun c => capability? c == some capability := by
    induction hall with
    | nil => rfl
    | cons hc _ ih =>
      rw [contains_cons, any_cons, ih, hc, BEq.comm]
      rfl
  simp only [declares, hp]
  exact hany (checkCapabilities_eq_ok h)

end Plugin

namespace Registry

theorem clash?_eq_none {taken : List String} {rules : List Rule} : clash? taken rules = none ↔
      (rules.map fun x => upper x.id).Nodup ∧ ∀ x ∈ rules, upper x.id ∉ taken := by
  induction rules generalizing taken with
  | nil => simp [clash?]
  | cons x rules ih =>
    simp only [clash?, map_cons, nodup_cons, forall_mem_cons]
    by_cases hx : upper x.id ∈ taken
    · simp [hx]
    · rw [if_neg (by simpa using hx), ih]
      simp only [mem_cons, not_or, mem_map, not_exists, not_and]
      constructor
      · rintro ⟨hnodup, hfresh⟩
        exact ⟨⟨fun y hy => (hfresh y hy).1, hnodup⟩, hx, fun y hy => (hfresh y hy).2⟩
      · rintro ⟨⟨hne, hnodup⟩, -, hfresh⟩
        exact ⟨hnodup, fun y hy => ⟨hne y hy, hfresh y hy⟩⟩

/-- What a plugin adds goes together with what is in the registry, and is all that it offers. -/
structure Admits (r : Registry) (p : Plugin) (c : Contribution) : Prop where
  fresh : ∀ d ∈ r.descriptors, d.name ≠ p.displayName
  name : c.descriptor.name = p.displayName
  rules : c.rules = p.offeredRules
  strategies : c.strategies = p.offeredStrategies
  ids : (c.rules.map fun x => upper x.id).Nodup
  untaken : ∀ x ∈ c.rules, upper x.id ∉ r.takenIds

variable {r r' : Registry} {p : Plugin} {path : Option String}

theorem checkRules_eq_ok {rules : List Rule} (h : r.checkRules p = .ok rules) :
    rules = Plugin.handedOut p.rules ∧ (rules.map fun x => upper x.id).Nodup ∧
      ∀ x ∈ rules, upper x.id ∉ r.takenIds := by
  unfold checkRules at h
  split at h
  · cases h
  · next provision hp =>
    obtain ⟨collected, hcollect, h⟩ := bind_eq_ok.mp h
    split at h
    · cases h
    · next hclash =>
      cases h
      rw [hp]
      exact ⟨(Plugin.collect_eq_ok hcollect).symm, clash?_eq_none.mp hclash⟩

theorem checkStrategies_eq_ok {strategies : List Strategy} (h : checkStrategies p = .ok strategies) :
    strategies = Plugin.handedOut p.strategies := by
  unfold checkStrategies at h
  split at h
  · cases h
  · next provision hp =>
    rw [hp]
    exact (Plugin.collect_eq_ok h).symm

theorem checkContribution_eq_ok {v : Value} {declared : List Value} {c : Contribution}
    (hp : p.declared = .ok declared) (h : r.checkContribution p path v declared = .ok c) :
    c.descriptor.name = p.displayName ∧ c.rules = p.offeredRules ∧
      c.strategies = p.offeredStrategies ∧ (c.rules.map fun x => upper x.id).Nodup ∧
      ∀ x ∈ c.rules, upper x.id ∉ r.takenIds := by
  obtain ⟨capabilities, hcaps, h⟩ := bind_eq_ok.mp h
  obtain ⟨rules, hrules, h⟩ := bind_eq_ok.mp h
  obtain ⟨strategies, hstrategies, h⟩ := bind_eq_ok.mp h
  rw [Plugin.contains_of_checkCapabilities hp hcaps] at hrules hstrategies
  have hr : rules = p.offeredRules ∧ (rules.map fun x => upper x.id).Nodup ∧ ∀ x ∈ rules, upper x.id ∉ r.takenIds := by
    rw [Plugin.offeredRules]
    unfold ifCapable at hrules
    split at hrules
    · next hd =>
      rw [if_pos hd]
      exact checkRules_eq_ok (mapError_eq_ok.mp hrules)
    · next hd =>
      cases hrules
      simp [hd]
  have hs : strategies = p.offeredStrategies := by
    rw [Plugin.offeredStrategies]
    unfold ifCapable at hstrategies
    split at hstrategies
    · next hd =>
      rw [if_pos hd]
      exact checkStrategies_eq_ok (mapError_eq_ok.mp hstrategies)
    · next hd =>
      cases hstrategies
      simp [hd]
  split at h
  · cases h
  · cases h
    exact ⟨rfl, hr.1, hs, hr.2⟩

theorem admits_of_check {c : Contribution} (h : r.check p path = .ok c) : r.Admits p c := by
  unfold check at h
  split at h
  · cases h
  · next hname =>
    split at h
    · cases h
    · split at h
      · cases h
      · split at h <;> cases h
      · split at h
        · cases h
        · next hp =>
          obtain ⟨hd, hr, hs, hids, huntaken⟩ := checkContribution_eq_ok hp h
          refine ⟨fun d hdm he => hname ?_, hd, hr, hs, hids, huntaken⟩
          exact any_eq_true.mpr ⟨d, hdm, by simpa using he⟩

inductive Call where
  | register (p : Plugin) (path : Option String)
  | recordError (e : PluginLoadError)
  | freeze

/-- The registry after a call. A call that a frozen registry refuses leaves it as it is; a fault in
    what a plugin declares goes up to the caller. -/
def after (r : Registry) : Call → Except RegisterError Registry
  | .register p path => match r.register p path with
    | .ok (r, _) => .ok r
    | .error .frozen => .ok r
    | .error e => .error e
  | .recordError e => .ok (r.recordError e)
  | .freeze => .ok r.freeze

def afterAll (r : Registry) (calls : List Call) : Except RegisterError Registry :=
  calls.foldlM after r

def accepted? (r : Registry) : Call → Option Plugin
  | .register p path => match r.register p path with
    | .ok (_, some _) => some p
    | _ => none
  | _ => none

def accepted (r : Registry) : List Call → List Plugin
  | [] => []
  | c :: cs => match r.after c with
    | .ok r' => (r.accepted? c).toList ++ r'.accepted cs
    | .error _ => []

/-- What the registry is there for: all but the errors and what is told of them. -/
def contents (r : Registry) : List PluginDescriptor × List Rule × List Strategy :=
  (r.descriptors, r.rules, r.strategies)

section Calls
variable {c : Call}

theorem register_of_ok {k : Contribution} (hf : r.frozen = false) (h : r.check p path = .ok k) :
    r.register p path = .ok (r.add k, some k.descriptor) := by
  simp [register, hf, h]

theorem register_of_rejected {problem : PluginProblem} (hf : r.frozen = false)
    (h : r.check p path = .error (.rejected problem)) :
    r.register p path = .ok (r.recordError ⟨p.displayName, problem⟩, none) := by
  simp [register, hf, h]

theorem register_of_faulty {e : RegisterError} (hf : r.frozen = false)
    (h : r.check p path = .error (.faulty e)) : r.register p path = .error e := by
  simp [register, hf, h]

theorem register_of_frozen (hf : r.frozen = true) : r.register p path = .error .frozen := by
  simp [register, hf]

theorem after_cases (h : r.after c = .ok r') :
    (∃ p path k, c = .register p path ∧ r.frozen = false ∧ r.check p path = .ok k ∧ r' = r.add k ∧
      r.register p path = .ok (r', some k.descriptor)) ∨ (∃ p path problem, c = .register p path ∧ r.frozen = false ∧
      r' = r.recordError ⟨p.displayName, problem⟩ ∧ r.register p path = .ok (r', none)) ∨
    (∃ p path, c = .register p path ∧ r' = r ∧ r.register p path = .error .frozen) ∨
    (∃ e, c = .recordError e ∧ r' = r.recordError e) ∨ (c = .freeze ∧ r' = r.freeze) := by
  cases c with
  | register p path =>
    cases hf : r.frozen with
    | true =>
      have hr : r.register p path = .error .frozen := register_of_frozen hf
      simp only [after, hr, Except.ok.injEq] at h
      exact .inr (.inr (.inl ⟨p, path, rfl, h.symm, hr⟩))
    | false =>
      cases hc : r.check p path with
      | ok k =>
        have hr := register_of_ok hf hc
        simp only [after, hr, Except.ok.injEq] at h
        subst h
        exact .inl ⟨p, path, k, rfl, rfl, hc, rfl, hr⟩
      | error x =>
        cases x with
        | rejected problem =>
          have hr := register_of_rejected hf hc
          simp only [after, hr, Except.ok.injEq] at h
          subst h
          exact .inr (.inl ⟨p, path, _, rfl, rfl, rfl, hr⟩)
        | faulty e =>
          have hr := register_of_faulty hf hc
          simp only [after, hr] at h
          cases e with
          | frozen => exact .inr (.inr (.inl ⟨p, path, rfl, (Except.ok.inj h).symm, hr⟩))
          | hostVersion e => cases h
          | notIterable kind => cases h
          | tooLong => cases h
  | recordError e => exact .inr (.inr (.inr (.inl ⟨e, rfl, (Except.ok.inj h).symm⟩)))
  | freeze => exact .inr (.inr (.inr (.inr ⟨rfl, (Except.ok.inj h).symm⟩)))

/-! ### What calls keep -/

/-- No two plugins share a name, and no two rules an id, whatever its case; no rule has an id that
    the registry keeps for itself. -/
structure WellFormed (r : Registry) : Prop where
  names : (r.descriptors.map (·.name)).Nodup
  ids : (r.rules.map fun x => upper x.id).Nodup
  unreserved : ∀ x ∈ r.rules, upper x.id ∉ r.reserved

theorem Admits.wellFormed_add {k : Contribution} (hk : r.Admits p k) (h : r.WellFormed) : (r.add k).WellFormed where
  names := by
    simp only [add, map_append, map_cons, map_nil]
    refine List.Nodup.append h.names (by simp) ?_
    intro n hn hk'
    obtain ⟨d, hd, rfl⟩ := mem_map.mp hn
    exact hk.fresh d hd ((mem_singleton.mp hk').trans hk.name)
  ids := by
    simp only [add, map_append]
    refine List.Nodup.append h.ids hk.ids ?_
    intro id hid hid'
    obtain ⟨x, hx, rfl⟩ := mem_map.mp hid'
    exact hk.untaken x hx (mem_append_right _ hid)
  unreserved := by
    intro x hx
    rcases mem_append.mp hx with hx | hx
    · exact h.unreserved x hx
    · intro hres
      exact hk.untaken x hx (mem_append_left _ hres)

theorem WellFormed.after (hw : r.WellFormed) (h : r.after c = .ok r') : r'.WellFormed := by
  rcases after_cases h with ⟨p, path, k, -, -, hk, rfl, -⟩ | ⟨-, -, e, -, -, rfl, -⟩ |
    ⟨-, -, -, rfl, -⟩ | ⟨e, -, rfl⟩ | ⟨-, rfl⟩
  · exact (admits_of_check hk).wellFormed_add hw
  · exact ⟨hw.names, hw.ids, hw.unreserved⟩
  · exact hw
  · exact ⟨hw.names, hw.ids, hw.unreserved⟩
  · exact ⟨hw.names, hw.ids, hw.unreserved⟩

theorem reserved_after (h : r.after c = .ok r') : r'.reserved = r.reserved := by
  rcases after_cases h with ⟨p, path, k, -, -, -, rfl, -⟩ | ⟨-, -, e, -, -, rfl, -⟩ |
    ⟨-, -, -, rfl, -⟩ | ⟨e, -, rfl⟩ | ⟨-, rfl⟩ <;> rfl

theorem contents_after_frozen (hf : r.frozen = true) (h : r.after c = .ok r') :
    r'.frozen = true ∧ r'.contents = r.contents := by
  rcases after_cases h with ⟨p, path, k, -, hf', -⟩ | ⟨-, -, e, -, hf', -⟩ | ⟨-, -, -, rfl, -⟩ | ⟨e, -, rfl⟩ | ⟨-, rfl⟩
  · rw [hf] at hf'
    cases hf'
  · rw [hf] at hf'
    cases hf'
  · exact ⟨hf, rfl⟩
  · exact ⟨hf, rfl⟩
  · exact ⟨rfl, rfl⟩

theorem contents_after (h : r.after c = .ok r') : r'.descriptors.map (·.name) =
      r.descriptors.map (·.name) ++ (r.accepted? c).toList.map Plugin.displayName ∧
    r'.rules = r.rules ++ (r.accepted? c).toList.flatMap Plugin.offeredRules ∧
    r'.strategies = r.strategies ++ (r.accepted? c).toList.flatMap Plugin.offeredStrategies := by
  rcases after_cases h with ⟨p, path, k, rfl, -, hk, hadd, hr⟩ | ⟨p, path, e, rfl, -, rfl, hr⟩ |
    ⟨p, path, rfl, rfl, hr⟩ | ⟨e, rfl, rfl⟩ | ⟨rfl, rfl⟩
  · have admits := admits_of_check hk
    subst hadd
    simp [accepted?, hr, add, admits.name, admits.rules, admits.strategies]
  · simp [accepted?, hr, recordError]
  · simp [accepted?, hr]
  · simp [accepted?, recordError]
  · simp [accepted?, freeze]

end Calls

/-! ### Sequences of calls -/

section Sequences
variable {calls : List Call}

theorem afterAll_cons {c : Call} :
    r.afterAll (c :: calls) = .ok r' ↔ ∃ s, r.after c = .ok s ∧ s.afterAll calls = .ok r' := by
  rw [afterAll, foldlM_cons, bind_eq_ok]
  rfl

theorem afterAll_append {pre post : List Call} :
    r.afterAll (pre ++ post) = .ok r' ↔ ∃ s, r.afterAll pre = .ok s ∧ s.afterAll post = .ok r' := by
  rw [afterAll, foldlM_append, bind_eq_ok]
  rfl

theorem afterAll_induct {P : Registry → Prop} (step : ∀ {r r' c}, P r → r.after c = .ok r' → P r')
    (hr : P r) (h : r.afterAll calls = .ok r') : P r' := by
  induction calls generalizing r with
  | nil =>
    cases h
    exact hr
  | cons c calls ih =>
    obtain ⟨s, hs, h⟩ := afterAll_cons.mp h
    exact ih (step hr hs) h

theorem contents_afterAll (h : r.afterAll calls = .ok r') : r'.descriptors.map (·.name) =
      r.descriptors.map (·.name) ++ (r.accepted calls).map Plugin.displayName ∧
    r'.rules = r.rules ++ (r.accepted calls).flatMap Plugin.offeredRules ∧
    r'.strategies = r.strategies ++ (r.accepted calls).flatMap Plugin.offeredStrategies := by
  induction calls generalizing r with
  | nil =>
    cases h
    simp [accepted]
  | cons c calls ih =>
    obtain ⟨s, hs, h⟩ := afterAll_cons.mp h
    obtain ⟨hnames, hrules, hstrategies⟩ := contents_after hs
    obtain ⟨ihnames, ihrules, ihstrategies⟩ := ih h
    simp only [accepted, hs, map_append, flatMap_append, ← append_assoc]
    exact ⟨hnames ▸ ihnames, hrules ▸ ihrules, hstrategies ▸ ihstrategies⟩

theorem contents_afterAll_freeze (h : r.freeze.afterAll calls = .ok r') : r'.contents = r.contents :=
  (afterAll_induct (r := r.freeze) (P := fun s => s.frozen = true ∧ s.contents = r.contents)
    (fun hs h => ⟨(contents_after_frozen hs.1 h).1, (contents_after_frozen hs.1 h).2.trans hs.2⟩)
    ⟨rfl, rfl⟩ h).2

/-- What registering a plugin comes to: a descriptor and no error, or an error and nothing else, or
    nothing if the registry is frozen. -/
def Settles (r : Registry) (p : Plugin) (path : Option String) (r' : Registry) : Prop :=
  (∃ d, r.register p path = .ok (r', some d) ∧ r'.descriptors = r.descriptors ++ [d] ∧
    r'.errors = r.errors) ∨
  (∃ e, r.register p path = .ok (r', none) ∧ r'.errors = r.errors ++ [e] ∧
    r'.contents = r.contents) ∨
  (r.register p path = .error .frozen ∧ r' = r)

theorem settles_of_after (h : r.after (.register p path) = .ok r') : r.Settles p path r' := by
  rcases after_cases h with ⟨_, _, k, hc, -, -, hadd, hr⟩ | ⟨_, _, e, hc, -, he, hr⟩ |
    ⟨_, _, hc, rfl, hr⟩ | ⟨e, hc, -⟩ | ⟨hc, -⟩
  · cases hc
    exact .inl ⟨k.descriptor, hr, by rw [hadd]; rfl, by rw [hadd]; rfl⟩
  · cases hc
    exact .inr (.inl ⟨_, hr, by rw [he]; rfl, by rw [he]; rfl⟩)
  · cases hc
    exact .inr (.inr ⟨hr, rfl⟩)
  · cases hc
  · cases hc

/-- The registry without its errors. Nothing is accepted or rejected because of them. -/
def quiet (r : Registry) : Registry := { r with errors := [], events := [] }

theorem check_quiet (r : Registry) (p : Plugin) (path : Option String) : r.quiet.check p path = r.check p path := rfl

theorem after_quiet (r : Registry) (c : Call) : (r.quiet.after c).map quiet = (r.after c).map quiet := by
  cases c with
  | register p path =>
    have hfrozen : r.quiet.frozen = r.frozen := rfl
    simp only [after, register, hfrozen, check_quiet]
    cases r.frozen with
    | true => rfl
    | false =>
      cases r.check p path with
      | ok k => rfl
      | error x =>
        cases x with
        | rejected problem => rfl
        | faulty e => cases e <;> rfl
  | recordError e => rfl
  | freeze => rfl

theorem exists_after_of_quiet {s : Registry} {c : Call} (hq : s.quiet = r.quiet)
    (h : r.after c = .ok r') : ∃ s', s.after c = .ok s' ∧ s'.quiet = r'.quiet := by
  have heq : (s.after c).map quiet = (r.after c).map quiet := by
    rw [← after_quiet s, hq, after_quiet]
  rw [h] at heq
  cases hs : s.after c with
  | error e =>
    rw [hs] at heq
    cases heq
  | ok s' =>
    rw [hs] at heq
    exact ⟨s', rfl, Except.ok.inj heq⟩

theorem quiet_after_of_not_accepted (h : r.after (.register p path) = .ok r')
    (hnone : r.accepted? (.register p path) = none) : r'.quiet = r.quiet := by
  rcases after_cases h with ⟨_, _, k, hc, -, -, -, hr⟩ | ⟨_, _, e, -, -, rfl, -⟩ |
    ⟨_, _, -, rfl, -⟩ | ⟨e, -, rfl⟩ | ⟨hc, -⟩
  · cases hc
    simp [accepted?, hr] at hnone
  · rfl
  · rfl
  · rfl
  · cases hc

/-- Calls and what remains of them when some are left out that register plugins in vain. -/
inductive Thins : Registry → List Call → List Call → Prop
  | nil (r : Registry) : Thins r [] []
  | keep {r r' : Registry} {c : Call} {calls kept : List Call} (h : r.after c = .ok r')
      (rest : Thins r' calls kept) : Thins r (c :: calls) (c :: kept)
  | drop {r r' : Registry} {p : Plugin} {path : Option String} {calls kept : List Call}
      (h : r.after (.register p path) = .ok r')
      (hnone : r.accepted? (.register p path) = none) (rest : Thins r' calls kept) :
      Thins r (.register p path :: calls) kept

theorem Thins.exists_afterAll {kept : List Call} (ht : Thins r calls kept) {s : Registry}
    (hq : s.quiet = r.quiet) (h : r.afterAll calls = .ok r') :
    ∃ s', s.afterAll kept = .ok s' ∧ s'.quiet = r'.quiet := by
  induction ht generalizing s with
  | nil r =>
    cases h
    exact ⟨s, rfl, hq⟩
  | keep hc _ ih =>
    obtain ⟨r₁, hr₁, h⟩ := afterAll_cons.mp h
    cases hc.symm.trans hr₁
    obtain ⟨s₁, hs₁, hq₁⟩ := exists_after_of_quiet hq hc
    obtain ⟨s', hs', hq'⟩ := ih hq₁ h
    exact ⟨s', afterAll_cons.mpr ⟨s₁, hs₁, hs'⟩, hq'⟩
  | drop hc hnone _ ih =>
    obtain ⟨r₁, hr₁, h⟩ := afterAll_cons.mp h
    cases hc.symm.trans hr₁
    exact ih (hq.trans (quiet_after_of_not_accepted hc hnone).symm) h

theorem wellFormed_ofReserved (ids : List String) (host : Value) : (ofReserved ids host).WellFormed := by
  constructor <;> simp [ofReserved]

/-- However a registry is used, the plugins in it have names of their own and the rules in it ids of
    their own; it holds exactly what the accepted plugins offer, in order; a rejected plugin leaves
    nothing but one error, and leaving it out changes nothing else; once the registry is frozen,
    nothing but errors is added. -/
theorem plugins_accepted_whole (ids : List String) (host : Value) (calls : List Call)
    (r : Registry) (h : (ofReserved ids host).afterAll calls = .ok r) :
    (r.descriptors.map (·.name)).Nodup ∧
    (r.rules.map fun x => Text.upper x.id).Nodup ∧
    (∀ x ∈ r.rules, ∀ id ∈ ids, Text.upper x.id ≠ Text.upper id) ∧
    (let accepted := (ofReserved ids host).accepted calls
     r.descriptors.map (·.name) = accepted.map Plugin.displayName ∧
     r.rules = accepted.flatMap Plugin.offeredRules ∧
     r.strategies = accepted.flatMap Plugin.offeredStrategies) ∧
    (∀ pre p path post, calls = pre ++ .register p path :: post →
      ∃ s s', (ofReserved ids host).afterAll pre = .ok s ∧ s.Settles p path s' ∧
        s'.afterAll post = .ok r) ∧
    (∀ pre post, calls = pre ++ .freeze :: post →
      ∃ s, (ofReserved ids host).afterAll pre = .ok s ∧ r.contents = s.contents) ∧
    (∀ kept, Thins (ofReserved ids host) calls kept →
      ∃ s, (ofReserved ids host).afterAll kept = .ok s ∧ s.contents = r.contents) := by
  have hw : r.WellFormed := afterAll_induct WellFormed.after (wellFormed_ofReserved ids host) h
  have hreserved : r.reserved = ids.map upper :=
    afterAll_induct (P := fun s => s.reserved = ids.map upper)
      (fun hs h => (reserved_after h).trans hs) rfl h
  refine ⟨hw.names, hw.ids, ?_, contents_afterAll h, ?_, ?_, ?_⟩
  · intro x hx id hid heq
    refine hw.unreserved x hx ?_
    rw [hreserved, heq]
    exact List.mem_map_of_mem hid
  · rintro pre p path post rfl
    obtain ⟨s, hs, h⟩ := afterAll_append.mp h
    obtain ⟨s', hs', h⟩ := afterAll_cons.mp h
    exact ⟨s, s', hs, settles_of_after hs', h⟩
  · rintro pre post rfl
    obtain ⟨s, hs, h⟩ := afterAll_append.mp h
    obtain ⟨s', hs', h⟩ := afterAll_cons.mp h
    cases hs'
    exact ⟨s, hs, contents_afterAll_freeze h⟩
  · intro kept ht
    obtain ⟨s, hs, hq⟩ := ht.exists_afterAll rfl h
    refine ⟨s, hs, ?_⟩
    change s.quiet.contents = r.quiet.contents
    rw [hq]

def sampleRule (id : String) : Rule where
  info := { id, title := "", defaultSeverity := .low }
  implementation := "Sample"
  evaluate _ _ := .ok {}

def samplePlugin (name : String) (ids : List String) : Plugin where
  implementation := "Sample"
  name := some (.str name)
  apiVersion := some (.str "1.0")
  capabilities := some (.strings [rulesCapability])
  rules := some (.ok (ids.map fun id => .item (sampleRule id)))

/-- Two plugins are accepted. One clashes with a rule in it but for the case, one with a reserved
    id, and one comes too late. -/
def sampleCalls : List Call :=
  [.register (samplePlugin "a" ["x-1"]) none, .register (samplePlugin "b" ["y-1", "X-1"]) none,
    .register (samplePlugin "b" ["y-1"]) none, .register (samplePlugin "c" ["SOL-1"]) none, .freeze,
    .register (samplePlugin "d" []) none]

theorem plugins_accepted_whole_sampleCalls :
    ∃ r, (ofReserved ["sol-1"]).afterAll sampleCalls = .ok r ∧
      (r.rules.map (·.id)) = ["x-1", "y-1"] ∧ r.errors.length = 2 ∧
      (r.rules.map fun x => Text.upper x.id).Nodup := by
  refine ⟨_, rfl, rfl, rfl, ?_⟩
  exact (plugins_accepted_whole ["sol-1"] (.str ApiVersion.host) sampleCalls _ rfl).2.1

end Sequences

end Registry

end ContractAudit

import ContractAudit.Plugin.Store
import ContractAudit.Proofs.Registration

/-! # Malformed plugins, and one plugin more

Whatever a plugin declares, it is accepted or rejected, with two exceptions: going through its capabilities,
and making texts of what a message or the descriptor shows. Two plugins are in conflict whichever of them
comes first, so a plugin that fits a registry could have come at any point before (`loadAll_insert`). -/

namespace ContractAudit
open List Registry
variable {v : Value}

namespace Value

theorem isTooLong_byte (b : UInt8) : (Value.int b.toNat).isTooLong = false := by
  have hb : b.toNat < 256 := b.toNat_lt
  have hlimit : 256 ≤ Nat.pow 10 Decimal.maxDigits := by decide +kernel
  simp only [isTooLong, Scalar.isTooLong, decide_eq_false_iff_not, Int.natAbs_natCast]
  omega

theorem isTooLong_of_mem_items {v x : Value} {vs : List Value} (h : v.items? = some vs)
    (hx : x ∈ vs) (hlong : x.isTooLong = true) : v.isTooLong = true := by
  unfold items? at h
  split at h <;> cases h
  · rw [isTooLong, anyTooLong_eq_any]
    exact any_eq_true.mpr ⟨x, hx, hlong⟩
  · rw [isTooLong, anyTooLong_eq_any]
    exact any_eq_true.mpr ⟨x, hx, hlong⟩
  · obtain ⟨k, hk, rfl⟩ := mem_map.mp hx
    exact any_eq_true.mpr ⟨k, hk, hlong⟩
  · obtain ⟨e, he, rfl⟩ := mem_map.mp hx
    rw [isTooLong, anyEntryTooLong_eq_any]
    exact any_eq_true.mpr ⟨e, he, by simp [show e.1.isTooLong = true from hlong]⟩
  · obtain ⟨c, -, rfl⟩ := mem_map.mp hx
    cases hlong
  · obtain ⟨b, -, rfl⟩ := mem_map.mp hx
    rw [isTooLong_byte] at hlong
    cases hlong

end Value

namespace Plugin
variable {e : RegisterError} {declared : List Value}

/-- The plugin declares as its capabilities something that is not empty and has no items. -/
def LacksItems (p : Plugin) (v : Value) : Prop :=
  p.capabilities = some v ∧ v.truthy = true ∧ v.items? = none

/-- Something that the plugin declares holds an integer that has no text. -/
def HoldsTooLong (p : Plugin) : Prop :=
  ∃ v, (p.version = some v ∨ p.apiVersion = some v ∨ p.description = some v ∨
    p.capabilities = some v) ∧ v.isTooLong = true

variable {p : Plugin}

theorem declared_eq_error (h : p.declared = .error e) : ∃ v, p.LacksItems v ∧ e = .notIterable v.kindName := by
  unfold declared at h
  split at h
  · cases h
  · next v hv =>
    obtain ⟨hv, htruthy⟩ := Option.filter_eq_some_iff.mp hv
    split at h
    · cases h
    · next hitems =>
      cases h
      exact ⟨v, ⟨hv, htruthy, hitems⟩, rfl⟩

theorem declared_of_lacksItems {v : Value} (h : p.LacksItems v) : p.declared = .error (.notIterable v.kindName) := by
  obtain ⟨hv, htruthy, hitems⟩ := h
  simp [declared, hv, htruthy, hitems, Option.filter]

theorem holdsTooLong_of_mem_declared {c : Value}
    (h : p.declared = .ok declared) (hc : c ∈ declared) (hlong : c.isTooLong = true) : p.HoldsTooLong := by
  unfold Plugin.declared at h
  split at h
  · cases h
    cases hc
  · next v hv =>
    split at h
    · next hitems =>
      cases h
      refine ⟨v, .inr (.inr (.inr (Option.filter_eq_some_iff.mp hv).1)), ?_⟩
      exact Value.isTooLong_of_mem_items hitems hc hlong
    · cases h

theorem checkCapabilities_faulty
    (h : checkCapabilities declared = .error (.faulty e)) : e = .tooLong ∧ ∃ c ∈ declared, c.isTooLong = true := by
  unfold checkCapabilities at h
  split at h
  · cases h
  · obtain ⟨c, hc, h⟩ := exists_of_mapM_eq_error h
    split at h
    · cases h
    · simp only [unknownCapability, Except.error.injEq] at h
      split at h
      · next hlong =>
        cases h
        exact ⟨rfl, c, hc, hlong⟩
      · cases h

end Plugin

theorem ApiVersion.isTooLong_of_parse {a : ApiVersion} (h : parse v = .ok a) : v.isTooLong = false := by
  unfold parse at h
  split at h
  · cases h
  · next hlong => simpa using hlong

theorem ApiVersion.isCompatible_ne_error {host : Value} {a : ApiVersion} {e : ApiVersionError}
    (hhost : parse host = .ok a) : isCompatible v host ≠ .error e := by
  intro h
  unfold isCompatible at h
  cases hv : parse v with
  | error x =>
    rw [hv] at h
    cases h
  | ok b =>
    rw [hv, hhost] at h
    cases h

namespace Registry
variable {r r' : Registry} {p : Plugin} {path : Option String} {a : ApiVersion}
variable {e : RegisterError} {v : Value}

theorem ifCapable_ne_faulty {α : Type} {capable : Bool} {asked : Except PluginProblem (List α)} :
    ifCapable capable asked ≠ .error (.faulty e) := by
  intro h
  unfold ifCapable at h
  split at h
  · obtain ⟨problem, -, h⟩ := mapError_eq_error.mp h
    cases h
  · cases h

theorem checkContribution_faulty {declared : List Value}
    (hp : p.declared = .ok declared) (h : r.checkContribution p path v declared = .error (.faulty e)) :
    e = .tooLong ∧ p.HoldsTooLong := by
  rcases bind_eq_error.mp h with h | ⟨capabilities, -, h⟩
  · obtain ⟨rfl, c, hc, hlong⟩ := Plugin.checkCapabilities_faulty h
    exact ⟨rfl, Plugin.holdsTooLong_of_mem_declared hp hc hlong⟩
  rcases bind_eq_error.mp h with h | ⟨rules, -, h⟩
  · exact absurd h ifCapable_ne_faulty
  rcases bind_eq_error.mp h with h | ⟨strategies, -, h⟩
  · exact absurd h ifCapable_ne_faulty
  split at h
  · next hlong =>
    cases h
    refine ⟨rfl, ?_⟩
    rcases (Bool.or_eq_true _ _).mp hlong with hlong | hlong
    · obtain ⟨v, hv, hlong⟩ := (Option.any_eq_true _ _).mp hlong
      exact ⟨v, .inl hv, hlong⟩
    · obtain ⟨v, hv, hlong⟩ := (Option.any_eq_true _ _).mp hlong
      exact ⟨v, .inr (.inr (.inl hv)), hlong⟩
  · cases h

theorem check_faulty (hhost : ApiVersion.parse r.host = .ok a) (h : r.check p path = .error (.faulty e)) :
    (∃ v, p.LacksItems v ∧ e = .notIterable v.kindName) ∨ (e = .tooLong ∧ p.HoldsTooLong) := by
  unfold check at h
  split at h
  · cases h
  · split at h
    · cases h
    · next v hv =>
      split at h
      · next hcompatible => exact absurd hcompatible (ApiVersion.isCompatible_ne_error hhost)
      · split at h
        · next hlong =>
          cases h
          rw [ApiVersion.isTooLong_of_parse hhost, Bool.or_false] at hlong
          exact .inr ⟨rfl, v, .inr (.inl (Option.filter_eq_some_iff.mp hv).1), hlong⟩
        · cases h
      · split at h
        · next hp =>
          cases h
          exact .inl (Plugin.declared_eq_error hp)
        · next hp => exact .inr (checkContribution_faulty hp h)

theorem check_of_lacksItems {w : Value} (hv : p.LacksItems v)
    (hname : ∀ d ∈ r.descriptors, d.name ≠ p.displayName) (hw : p.apiVersion = some w)
    (hcompatible : ApiVersion.isCompatible w r.host = .ok true) :
    r.check p path = .error (.faulty (.notIterable v.kindName)) := by
  have hnull : w.isNull = false := by
    by_contra hnull
    cases w with
    | scalar k =>
      cases k with
      | null => cases hcompatible
      | _ => exact hnull rfl
    | _ => exact hnull rfl
  have hany : r.descriptors.any (·.name == p.displayName) = false := by
    simpa [any_eq_false] using hname
  simp [check, hany, hw, Option.filter, hnull, hcompatible, Plugin.declared_of_lacksItems hv]

/-- What can become of a plugin: it is accepted, it is rejected, or it is at fault itself. -/
theorem register_cases (hf : r.frozen = false) (hhost : ApiVersion.parse r.host = .ok a)
    (p : Plugin) (path : Option String) : (∃ k, r.Admits p k ∧ r.register p path = .ok (r.add k, some k.descriptor)) ∨
    (∃ problem, r.register p path = .ok (r.recordError ⟨p.displayName, problem⟩, none)) ∨
    (∃ v, p.LacksItems v ∧ r.register p path = .error (.notIterable v.kindName)) ∨
    (p.HoldsTooLong ∧ r.register p path = .error .tooLong) := by
  cases hc : r.check p path with
  | ok k => exact .inl ⟨k, admits_of_check hc, register_of_ok hf hc⟩
  | error x =>
    cases x with
    | rejected problem => exact .inr (.inl ⟨problem, register_of_rejected hf hc⟩)
    | faulty e =>
      rcases check_faulty hhost hc with ⟨v, hv, rfl⟩ | ⟨rfl, hlong⟩
      · exact .inr (.inr (.inl ⟨v, hv, register_of_faulty hf hc⟩))
      · exact .inr (.inr (.inr ⟨hlong, register_of_faulty hf hc⟩))

/-- The registry has taken in what files came to, each a descriptor or an error. -/
structure TakesIn (r : Registry) (outcomes : List (PluginDescriptor ⊕ PluginLoadError))
    (r' : Registry) : Prop where
  descriptors : r'.descriptors = r.descriptors ++ outcomes.filterMap Sum.getLeft?
  errors : r'.errors = r.errors ++ outcomes.filterMap Sum.getRight?

theorem TakesIn.trans {s : Registry} {os os' : List (PluginDescriptor ⊕ PluginLoadError)}
    (h : r.TakesIn os s) (h' : s.TakesIn os' r') : r.TakesIn (os ++ os') r' where
  descriptors := by rw [h'.descriptors, h.descriptors, filterMap_append, append_assoc]
  errors := by rw [h'.errors, h.errors, filterMap_append, append_assoc]

theorem takesIn_add (r : Registry) (k : Contribution) : r.TakesIn [.inl k.descriptor] (r.add k) :=
  ⟨rfl, (append_nil _).symm⟩

theorem takesIn_recordError (r : Registry) (x : PluginLoadError) : r.TakesIn [.inr x] (r.recordError x) :=
  ⟨(append_nil _).symm, rfl⟩

end Registry

/-- The plugin can be neither accepted nor rejected. -/
def Plugin.Faulty (p : Plugin) : Prop := (∃ v, p.LacksItems v) ∨ p.HoldsTooLong

namespace PluginStore
variable {s : PluginStore} {r : Registry} {a : ApiVersion}

/-- What a file can come to: a descriptor of its plugin, or an error, either of loading the file or
    of its plugin. -/
def Contributes (s : PluginStore) (e : Entry) : PluginDescriptor ⊕ PluginLoadError → Prop
  | .inl d => ∃ p, s.load e = .ok p ∧ d.name = p.displayName
  | .inr x => s.load e = .error x ∨ ∃ p, s.load e = .ok p ∧ x.plugin = p.displayName

theorem loadOne_cases (hf : r.frozen = false) (hhost : ApiVersion.parse r.host = .ok a) (e : Entry) :
    (∃ r' o, s.loadOne r e = .ok r' ∧ s.Contributes e o ∧ r.TakesIn [o] r' ∧ r'.frozen = false ∧ r'.host = r.host) ∨
    (∃ p, s.load e = .ok p ∧ p.Faulty) := by
  unfold loadOne
  cases hl : s.load e with
  | error x => exact .inl ⟨_, .inr x, rfl, .inl hl, r.takesIn_recordError x, hf, rfl⟩
  | ok p =>
    rcases register_cases hf hhost p (some e.1.toText) with ⟨k, hk, hr⟩ | ⟨problem, hr⟩ |
      ⟨v, hv, -⟩ | ⟨hlong, -⟩
    · refine .inl ⟨r.add k, .inl k.descriptor, ?_, ⟨p, hl, hk.name⟩, r.takesIn_add k, hf, rfl⟩
      simp only [hr]
      rfl
    · refine .inl ⟨_, .inr ⟨p.displayName, problem⟩, ?_, .inr ⟨p, hl, rfl⟩, r.takesIn_recordError _, hf, rfl⟩
      simp only [hr]
      rfl
    · exact .inr ⟨p, rfl, .inl ⟨v, hv⟩⟩
    · exact .inr ⟨p, rfl, .inr hlong⟩

theorem loadAll_cases (hf : r.frozen = false) (hhost : ApiVersion.parse r.host = .ok a) (es : List Entry) :
    (∃ r' outcomes, s.loadAll r es = .ok r' ∧ Forall₂ s.Contributes es outcomes ∧ r.TakesIn outcomes r') ∨
    (∃ e ∈ es, ∃ p, s.load e = .ok p ∧ p.Faulty) := by
  induction es generalizing r with
  | nil => exact .inl ⟨r, [], rfl, .nil, (append_nil _).symm, (append_nil _).symm⟩
  | cons e es ih =>
    rcases loadOne_cases (s := s) hf hhost e with ⟨r₁, o, hone, ho, htakes, hf₁, hhost₁⟩ | hfaulty
    · rcases ih hf₁ (hhost₁ ▸ hhost) with ⟨r', os, hall, hos, htakes'⟩ | ⟨e', he', hfaulty⟩
      · exact .inl ⟨r', o :: os, by rw [loadAll, hone]; exact hall, .cons ho hos, htakes.trans htakes'⟩
      · exact .inr ⟨e', mem_cons_of_mem _ he', hfaulty⟩
    · exact .inr ⟨e, mem_cons_self, hfaulty⟩

end PluginStore

/-- A registry that is not frozen accepts or rejects a plugin whatever that declares, unless its
    capabilities are something without items or a text is needed of an integer that has none; and
    then the files of a store are all loaded, each with one descriptor or one error. Capabilities
    without items are always too much for a plugin that could be accepted so far. -/
theorem malformed_plugins_fail_closed (r : Registry) (hf : r.frozen = false) (a : ApiVersion)
    (hhost : ApiVersion.parse r.host = .ok a) :
    (∀ p path,
      (∃ r' d, r.register p path = .ok (r', some d) ∧ r'.descriptors = r.descriptors ++ [d] ∧
        r'.errors = r.errors) ∨
      (∃ r' e, r.register p path = .ok (r', none) ∧ r'.errors = r.errors ++ [e] ∧
        r'.contents = r.contents) ∨
      (∃ v, p.LacksItems v ∧ r.register p path = .error (.notIterable v.kindName)) ∨
      (p.HoldsTooLong ∧ r.register p path = .error .tooLong)) ∧
    (∀ p path v w, p.LacksItems v → (∀ d ∈ r.descriptors, d.name ≠ p.displayName) →
      p.apiVersion = some w → ApiVersion.isCompatible w r.host = .ok true →
      r.register p path = .error (.notIterable v.kindName)) ∧
    (∀ (s : PluginStore) (t : Node),
      (∃ r' outcomes, s.loadInto t r = .ok r' ∧ List.Forall₂ s.Contributes (s.files t) outcomes ∧
        r.TakesIn outcomes r') ∨
      (∃ e ∈ s.files t, ∃ p, s.load e = .ok p ∧ p.Faulty)) := by
  refine ⟨?_, ?_, fun s t => PluginStore.loadAll_cases hf hhost (s.files t)⟩
  · intro p path
    rcases register_cases hf hhost p path with ⟨k, -, hr⟩ | ⟨problem, hr⟩ | hlacks | hlong
    · exact .inl ⟨_, _, hr, rfl, rfl⟩
    · exact .inr (.inl ⟨_, _, hr, rfl, rfl⟩)
    · exact .inr (.inr (.inl hlacks))
    · exact .inr (.inr (.inr hlong))
  · intro p path v w hv hname hw hcompatible
    exact register_of_faulty hf (check_of_lacksItems hv hname hw hcompatible)

def numberPlugin : Plugin where
  implementation := "Sample"
  apiVersion := some (.str "1.0")
  capabilities := some (.int 5)

theorem malformed_plugins_fail_closed_numberPlugin :
    (Registry.ofReserved []).register numberPlugin none = .error (.notIterable "int") :=
  (malformed_plugins_fail_closed (ofReserved []) rfl ⟨1, 0⟩ rfl).2.1
    numberPlugin none (.int 5) (.str "1.0") ⟨rfl, rfl, rfl⟩ (fun _ h => absurd h List.not_mem_nil) rfl rfl

/-- A store in which the one file holds that plugin and any other a plugin without a fault. -/
def sampleStore : PluginStore where
  dir := ⟨"", ["plugins"]⟩
  loader bytes := if bytes.isEmpty then .plugin numberPlugin
    else .plugin (samplePlugin "a" ["x-1"])

/-- A malformed plugin keeps the plugins of the files after it out of the registry. -/
theorem malformed_plugin_stops_loading :
    (sampleStore.loadAll sampleStore.newRegistry [(⟨"", ["b.py"]⟩, [1])]).isOk = true ∧
      sampleStore.loadAll sampleStore.newRegistry [(⟨"", ["a.py"]⟩, []), (⟨"", ["b.py"]⟩, [1])] =
        .error ⟨.register (.notIterable "int"), []⟩ :=
  ⟨rfl, rfl⟩

/-- What a plugin adds if its file is found at a path. -/
def Contribution.foundAt (k : Contribution) (path : Option String) : Contribution :=
  { k with descriptor := { k.descriptor with path } }

namespace Registry
variable {r R r' : Registry} {p q : Plugin} {k : Contribution} {path : Option String}
variable {v : Value} {declared : List Value} {c : Contribution}

/-- Nothing in the registry is in conflict with what a plugin adds. -/
structure Fits (r : Registry) (k : Contribution) : Prop where
  name : ∀ d ∈ r.descriptors, d.name ≠ k.descriptor.name
  ids : ∀ x ∈ k.rules, Text.upper x.id ∉ r.takenIds

theorem fits_of_check (h : r.check p path = .ok k) : r.Fits k := by
  have admits := admits_of_check h
  exact ⟨fun d hd => admits.name ▸ admits.fresh d hd, admits.untaken⟩

theorem checkRules_of_untaken {rules : List Rule} (h : r.checkRules p = .ok rules)
    (hids : ∀ x ∈ rules, Text.upper x.id ∉ R.takenIds) : R.checkRules p = .ok rules := by
  obtain ⟨-, hnodup, -⟩ := checkRules_eq_ok h
  unfold checkRules at h ⊢
  split at h
  · cases h
  · next provision hp =>
    obtain ⟨collected, hcollect, h⟩ := bind_eq_ok.mp h
    split at h
    · cases h
    · cases h
      refine bind_eq_ok.mpr ⟨_, hcollect, ?_⟩
      rw [clash?_eq_none.mpr ⟨hnodup, hids⟩]
      rfl

theorem checkContribution_of_untaken
    (h : r.checkContribution p path v declared = .ok k) (hids : ∀ x ∈ k.rules, Text.upper x.id ∉ R.takenIds)
    (path' : Option String) : R.checkContribution p path' v declared = .ok (k.foundAt path') := by
  obtain ⟨capabilities, hcaps, h⟩ := bind_eq_ok.mp h
  obtain ⟨rules, hrules, h⟩ := bind_eq_ok.mp h
  obtain ⟨strategies, hstrategies, h⟩ := bind_eq_ok.mp h
  split at h
  · cases h
  · next hlong =>
    cases h
    refine bind_eq_ok.mpr ⟨capabilities, hcaps, bind_eq_ok.mpr ⟨rules, ?_,
      bind_eq_ok.mpr ⟨strategies, hstrategies, ?_⟩⟩⟩
    · unfold ifCapable at hrules ⊢
      split
      · next hcapable =>
        rw [if_pos hcapable] at hrules
        exact mapError_eq_ok.mpr (checkRules_of_untaken (mapError_eq_ok.mp hrules) hids)
      · next hcapable =>
        rwa [if_neg hcapable] at hrules
    · rw [if_neg hlong]
      rfl

/-- What a plugin adds it adds to every registry that it is in no conflict with. -/
theorem check_of_fits (h : r.check p path = .ok k) (hhost : R.host = r.host) (hfits : R.Fits k)
    (path' : Option String) : R.check p path' = .ok (k.foundAt path') := by
  have hname := (admits_of_check h).name
  unfold check at h ⊢
  split at h
  · cases h
  · have hfresh : R.descriptors.any (·.name == p.displayName) = false := by
      simpa [any_eq_false, hname] using hfits.name
    rw [hfresh, hhost, if_neg Bool.false_ne_true]
    split at h
    · cases h
    · split at h
      · cases h
      · split at h <;> cases h
      · split at h
        · cases h
        · exact checkContribution_of_untaken h hfits.ids path'

/-- The first registry has no name and no rule id that the second has not. -/
structure Within (r R : Registry) : Prop where
  host : R.host = r.host
  names : ∀ d ∈ r.descriptors, ∃ d' ∈ R.descriptors, d'.name = d.name
  ids : ∀ id ∈ r.takenIds, id ∈ R.takenIds

theorem Within.refl (r : Registry) : r.Within r := ⟨rfl, fun d hd => ⟨d, hd, rfl⟩, fun _ h => h⟩

theorem Within.trans (h : r.Within R) (h' : R.Within r') : r.Within r' where
  host := h'.host.trans h.host
  names d hd := by
    obtain ⟨d', hd', hname⟩ := h.names d hd
    obtain ⟨d'', hd'', hname'⟩ := h'.names d' hd'
    exact ⟨d'', hd'', hname'.trans hname⟩
  ids id hid := h'.ids id (h.ids id hid)

theorem Within.fits (h : r.Within R) (hfits : R.Fits k) : r.Fits k where
  name d hd := by
    obtain ⟨d', hd', hname⟩ := h.names d hd
    exact hname ▸ hfits.name d' hd'
  ids x hx hid := hfits.ids x hx (h.ids _ hid)

theorem checkContribution_faulty_of_within {e : RegisterError}
    (hw : r.Within R) (h : R.checkContribution p path v declared = .error (.faulty e)) :
    r.checkContribution p path v declared = .error (.faulty e) := by
  rcases bind_eq_error.mp h with h | ⟨capabilities, hcaps, h⟩
  · exact bind_eq_error.mpr (.inl h)
  rcases bind_eq_error.mp h with h | ⟨rules, hrules, h⟩
  · exact absurd h ifCapable_ne_faulty
  refine bind_eq_error.mpr (.inr ⟨capabilities, hcaps, bind_eq_error.mpr (.inr ⟨rules, ?_, h⟩)⟩)
  unfold ifCapable at hrules ⊢
  split
  · next hcapable =>
    rw [if_pos hcapable] at hrules
    have hrules := mapError_eq_ok.mp hrules
    refine mapError_eq_ok.mpr (checkRules_of_untaken hrules fun x hx hid => ?_)
    exact (checkRules_eq_ok hrules).2.2 x hx (hw.ids _ hid)
  · next hcapable => rwa [if_neg hcapable] at hrules

theorem check_faulty_of_within {e : RegisterError} (hw : r.Within R)
    (h : R.check p path = .error (.faulty e)) : r.check p path = .error (.faulty e) := by
  unfold check at h ⊢
  split at h
  · cases h
  · next hname =>
    have hfresh : r.descriptors.any (·.name == p.displayName) = false := by
      rw [any_eq_false]
      intro d hd heq
      obtain ⟨d', hd', hname'⟩ := hw.names d hd
      exact hname (any_eq_true.mpr ⟨d', hd', hname' ▸ heq⟩)
    rw [hw.host] at h
    rw [hfresh, if_neg Bool.false_ne_true]
    split at h
    · cases h
    · split at h
      · exact h
      · exact h
      · split at h
        · exact h
        · exact checkContribution_faulty_of_within hw h

/-- The second registry is the first one with what one more plugin adds, come at any point. -/
structure Joins (k : Contribution) (r R : Registry) : Prop where
  host : R.host = r.host
  unfrozen : r.frozen = false ∧ R.frozen = false
  kept : r.descriptors.Sublist R.descriptors
  joined : k.descriptor ∈ R.descriptors
  only : ∀ d ∈ R.descriptors, d = k.descriptor ∨ d ∈ r.descriptors
  ids : ∀ id, id ∈ R.takenIds ↔ id ∈ r.takenIds ∨ ∃ x ∈ k.rules, Text.upper x.id = id

theorem mem_takenIds_add {id : String} :
    id ∈ (r.add c).takenIds ↔ id ∈ r.takenIds ∨ ∃ x ∈ c.rules, Text.upper x.id = id := by
  simp [takenIds, add, or_assoc]

theorem joins_add (hf : r.frozen = false) (k : Contribution) : Joins k r (r.add k) where
  host := rfl
  unfrozen := ⟨hf, hf⟩
  kept := sublist_append_left _ _
  joined := by simp [add]
  only d hd := by
    rcases mem_append.mp hd with hd | hd
    · exact .inr hd
    · exact .inl (mem_singleton.mp hd)
  ids _ := mem_takenIds_add

theorem Joins.within (h : Joins k r R) : r.Within R :=
  ⟨h.host, fun d hd => ⟨d, h.kept.subset hd, rfl⟩, fun id hid => (h.ids id).mpr (.inl hid)⟩

theorem Joins.recordError (h : Joins k r R) (e e' : PluginLoadError) :
    Joins k (r.recordError e) (R.recordError e') := ⟨h.host, h.unfrozen, h.kept, h.joined, h.only, h.ids⟩

theorem Joins.add (h : Joins k r R) (c : Contribution) : Joins k (r.add c) (R.add c) where
  host := h.host
  unfrozen := h.unfrozen
  kept := h.kept.append_right _
  joined := mem_append_left _ h.joined
  only d hd := by
    rcases mem_append.mp hd with hd | hd
    · exact (h.only d hd).imp_right (mem_append_left _)
    · exact .inr (mem_append_right _ hd)
  ids id := by
    rw [mem_takenIds_add, mem_takenIds_add, h.ids]
    exact or_right_comm

/-- A plugin that is accepted beside one that fits afterwards is accepted after it too: being in
    conflict is the same from both sides. -/
theorem Joins.fits (h : Joins k r R) (hc : r.Fits c) (hk : (r.add c).Fits k) : R.Fits c where
  name d hd := by
    rcases h.only d hd with rfl | hd
    · exact (hk.name c.descriptor (by simp [Registry.add])).symm
    · exact hc.name d hd
  ids x hx hid := by
    rcases (h.ids _).mp hid with hid | ⟨y, hy, hid⟩
    · exact hc.ids x hx hid
    · exact hk.ids y hy (mem_takenIds_add.mpr (.inr ⟨x, hx, hid.symm⟩))

end Registry

namespace PluginStore
variable {s : PluginStore} {r r' R : Registry} {p : Plugin} {k : Contribution} {e : Entry}
  {es pre post : List Entry}

section
variable (hf : r.frozen = false)
include hf

theorem loadOne_eq_ok (h : s.loadOne r e = .ok r') : (∃ x, r' = r.recordError x ∧ ((∃ x, s.load e = .error x) ∨
      ∃ p problem, s.load e = .ok p ∧ r.check p (some e.1.toText) = .error (.rejected problem))) ∨
    ∃ p c, s.load e = .ok p ∧ r.check p (some e.1.toText) = .ok c ∧ r' = r.add c := by
  unfold loadOne at h
  cases hl : s.load e with
  | error x =>
    rw [hl] at h
    cases h
    exact .inl ⟨x, rfl, .inl ⟨x, rfl⟩⟩
  | ok p =>
    rw [hl] at h
    obtain ⟨⟨r₁, d⟩, hr, h⟩ := bind_eq_ok.mp h
    cases h
    cases hc : r.check p (some e.1.toText) with
    | ok c =>
      rw [register_of_ok hf hc] at hr
      cases hr
      exact .inr ⟨p, c, rfl, hc, rfl⟩
    | error x =>
      cases x with
      | rejected problem =>
        rw [register_of_rejected hf hc] at hr
        cases hr
        exact .inl ⟨_, rfl, .inr ⟨p, problem, rfl, hc⟩⟩
      | faulty x =>
        rw [register_of_faulty hf hc] at hr
        cases hr

theorem loadOne_of_check {c : Contribution} (hl : s.load e = .ok p)
    (hc : r.check p (some e.1.toText) = .ok c) : s.loadOne r e = .ok (r.add c) := by
  simp only [loadOne, hl, register_of_ok hf hc]
  rfl

theorem frozen_of_loadOne (h : s.loadOne r e = .ok r') : r'.frozen = false := by
  rcases loadOne_eq_ok hf h with ⟨x, rfl, -⟩ | ⟨-, c, -, -, rfl⟩ <;> exact hf

theorem within_of_loadOne (h : s.loadOne r e = .ok r') : r.Within r' := by
  rcases loadOne_eq_ok hf h with ⟨x, rfl, -⟩ | ⟨-, c, -, -, rfl⟩
  · exact ⟨rfl, fun d hd => ⟨d, hd, rfl⟩, fun _ hid => hid⟩
  · exact (joins_add hf c).within

end

theorem loadAll_cons : s.loadAll r (e :: es) = .ok r' ↔ ∃ r₁, s.loadOne r e = .ok r₁ ∧ s.loadAll r₁ es = .ok r' := by
  rw [loadAll]
  cases s.loadOne r e <;> simp

theorem loadAll_append :
    s.loadAll r (pre ++ post) = .ok r' ↔ ∃ r₁, s.loadAll r pre = .ok r₁ ∧ s.loadAll r₁ post = .ok r' := by
  induction pre generalizing r with
  | nil => simp [loadAll]
  | cons e pre ih =>
    simp only [cons_append, loadAll_cons, ih]
    constructor
    · rintro ⟨r₁, hone, r₂, hpre, hpost⟩
      exact ⟨r₂, ⟨r₁, hone, hpre⟩, hpost⟩
    · rintro ⟨r₂, ⟨r₁, hone, hpre⟩, hpost⟩
      exact ⟨r₁, hone, r₂, hpre, hpost⟩

theorem loadAll_keeps (hf : r.frozen = false) (h : s.loadAll r es = .ok r') : r'.frozen = false ∧ r.Within r' := by
  induction es generalizing r with
  | nil =>
    cases h
    exact ⟨hf, .refl _⟩
  | cons e es ih =>
    obtain ⟨r₁, hone, h⟩ := loadAll_cons.mp h
    obtain ⟨hf', hw⟩ := ih (frozen_of_loadOne hf hone) h
    exact ⟨hf', (within_of_loadOne hf hone).trans hw⟩

/-- A file is accepted or rejected beside one plugin more as it is without. -/
theorem loadOne_of_joins (hj : Joins k r R) (h : s.loadOne r e = .ok r') (hk : r'.Fits k) :
    ∃ R', s.loadOne R e = .ok R' ∧ Joins k r' R' := by
  obtain ⟨hf, hF⟩ := hj.unfrozen
  rcases loadOne_eq_ok hf h with ⟨x, rfl, ⟨y, hl⟩ | ⟨p, problem, hl, hc⟩⟩ | ⟨p, c, hl, hc, rfl⟩
  · refine ⟨R.recordError y, ?_, hj.recordError x y⟩
    simp [loadOne, hl]
  · -- a rejected plugin can be rejected for another reason now, but it is rejected
    cases hC : R.check p (some e.1.toText) with
    | ok c =>
      have hc' := check_of_fits hC hj.host.symm (hj.within.fits (fits_of_check hC)) (some e.1.toText)
      rw [hc] at hc'
      cases hc'
    | error y =>
      cases y with
      | rejected problem' =>
        refine ⟨R.recordError ⟨p.displayName, problem'⟩, ?_, hj.recordError x _⟩
        simp only [loadOne, hl, register_of_rejected hF hC]
        rfl
      | faulty y =>
        rw [check_faulty_of_within hj.within hC] at hc
        cases hc
  · have hfits := hj.fits (fits_of_check hc) hk
    have hpath : c.foundAt (some e.1.toText) = c := by
      have hsame := check_of_fits hc rfl (fits_of_check hc) (some e.1.toText)
      exact (Except.ok.inj (hc.symm.trans hsame)).symm
    have hC := check_of_fits hc hj.host hfits (some e.1.toText)
    rw [hpath] at hC
    exact ⟨R.add c, loadOne_of_check hF hl hC, hj.add c⟩

theorem loadAll_of_joins (hj : Joins k r R) (h : s.loadAll r es = .ok r') (hk : r'.Fits k) :
    ∃ R', s.loadAll R es = .ok R' ∧ Joins k r' R' := by
  induction es generalizing r R with
  | nil =>
    cases h
    exact ⟨R, rfl, hj⟩
  | cons e es ih =>
    obtain ⟨r₁, hone, h⟩ := loadAll_cons.mp h
    have hw := (loadAll_keeps (frozen_of_loadOne hj.unfrozen.1 hone) h).2
    obtain ⟨R₁, hone', hj₁⟩ := loadOne_of_joins hj hone (hw.fits hk)
    obtain ⟨R', hall, hj'⟩ := ih hj₁ h
    exact ⟨R', loadAll_cons.mpr ⟨R₁, hone', hall⟩, hj'⟩

/-- A plugin that is accepted after all files is accepted between any two of them, and all others
    that were accepted still are. -/
theorem loadAll_insert (hf : r.frozen = false) (h : s.loadAll r (pre ++ post) = .ok r')
    (hl : s.load e = .ok p) {path : Option String} (hk : r'.check p path = .ok k) :
    ∃ R', s.loadAll r (pre ++ e :: post) = .ok R' ∧ Joins (k.foundAt (some e.1.toText)) r' R' := by
  obtain ⟨r₁, hpre, hpost⟩ := loadAll_append.mp h
  have hf₁ := (loadAll_keeps hf hpre).1
  have hw := (loadAll_keeps hf₁ hpost).2
  have hfits := fits_of_check hk
  have hone := loadOne_of_check hf₁ hl (check_of_fits hk hw.host.symm (hw.fits hfits) (some e.1.toText))
  obtain ⟨R', hall, hj⟩ := loadAll_of_joins (joins_add hf₁ (k.foundAt (some e.1.toText))) hpost
    ⟨hfits.name, hfits.ids⟩
  exact ⟨R', loadAll_append.mpr ⟨r₁, hpre, loadAll_cons.mpr ⟨_, hone, hall⟩⟩, hj⟩

end PluginStore

end ContractAudit

import Mathlib.Data.List.Chain
import ContractAudit.Config.Tool
import ContractAudit.Proofs.Checked

/-! # Malformed configurations

A configuration is taken or refused. Other errors come up in three places only: sorting unknown names,
making whole numbers doubles, and making texts of what a message names. -/

namespace ContractAudit
open List

/-- The orders that scalars take part in. Days and times are in different ones, and so are times with
    and without an offset. -/
inductive OrderKind where
  | number
  | text
  | bytes
  | day
  | time (offset : Bool)

def Timestamp.orderKind : Timestamp → OrderKind
  | .date _ => .day
  | .time t => .time t.offset.isSome

/-- The order that a scalar takes part in, if there is one. -/
def Scalar.orderKind : Scalar → Option OrderKind
  | .null => none
  | .bool _ | .int _ | .float _ => some .number
  | .str _ => some .text
  | .bytes _ => some .bytes
  | .timestamp t => some t.orderKind

def Scalar.Comparable (a b : Scalar) : Prop := (a.le? b).isSome = true

theorem Timestamp.isSome_compare? {s t : Timestamp} : (s.compare? t).isSome = true ↔ s.orderKind = t.orderKind := by
  cases s with
  | date s => cases t <;> simp [compare?, orderKind]
  | time s =>
    cases t with
    | date t => simp [compare?, orderKind]
    | time t => by_cases h : s.offset.isSome = t.offset.isSome <;> simp [compare?, orderKind, h]

theorem Scalar.comparable_iff {a b : Scalar} : a.Comparable b ↔ a.orderKind = b.orderKind ∧ a.orderKind ≠ none := by
  have hother : ∀ t : Timestamp, .number ≠ t.orderKind ∧ .text ≠ t.orderKind ∧ .bytes ≠ t.orderKind :=
    fun t => by cases t <;> simp [Timestamp.orderKind]
  cases a with
  | timestamp s =>
    cases b with
    | timestamp t => simp [Comparable, le?, compare?, counted, orderKind, Timestamp.isSome_compare?]
    | _ => simp [Comparable, le?, compare?, counted, orderKind, (hother s).1.symm, (hother s).2.1.symm,
        (hother s).2.2.symm]
  | _ => cases b <;> simp [Comparable, le?, compare?, counted, orderKind, hother]

theorem Scalar.Comparable.trans {a b c : Scalar} (h : a.Comparable b) (h' : b.Comparable c) : a.Comparable c := by
  rw [comparable_iff] at *
  exact ⟨h.1.trans h'.1, h.2⟩

namespace RuleSettings

theorem firstUnordered?_eq_none {ks : List Scalar} : firstUnordered? ks = none ↔ ks.Pairwise Scalar.Comparable := by
  have htrans : Trans Scalar.Comparable Scalar.Comparable Scalar.Comparable := ⟨Scalar.Comparable.trans⟩
  rw [← isChain_iff_pairwise]
  fun_induction firstUnordered? ks with
  | case1 a b s h =>
    simp only [reduceCtorEq, isChain_cons_cons, false_iff, not_and]
    intro hab
    simp [Scalar.Comparable, Option.isNone_iff_eq_none.mp h] at hab
  | case2 a b s h ih =>
    have hab : a.Comparable b := by simpa [Scalar.Comparable, Option.isSome_iff_ne_none] using h
    simp only [ih, isChain_cons_cons, hab, true_and]
  | case3 ks h =>
    simp only [true_iff]
    cases ks with
    | nil => exact .nil
    | cons a s =>
      cases s with
      | nil => exact .singleton a
      | cons b s => exact (h a b s rfl).elim

end RuleSettings

/-- The computation gives a result or refuses; another error has a cause. -/
def Refuses {α : Type} (Cause : ConfigError → Prop) (x : Except ConfigError α) : Prop :=
  ∀ e, x = .error e → (∃ i, e = .invalid i) ∨ Cause e

section
variable {α β : Type} {Cause Cause' : ConfigError → Prop} {x : Except ConfigError α}

theorem refuses_ok (a : α) : Refuses Cause (.ok a) := by
  intro e h
  cases h

theorem refuses_refuse (key : String) (p : ConfigProblem) : Refuses Cause (refuse key p : Except _ α) := by
  intro e h
  cases h
  exact .inl ⟨_, rfl⟩

theorem refuses_refuseAll (p : ConfigProblem) : Refuses Cause (refuseAll p : Except _ α) := by
  intro e h
  cases h
  exact .inl ⟨_, rfl⟩

theorem refuses_error {e : ConfigError} (h : Cause e) : Refuses Cause (.error e : Except _ α) := by
  intro e' h'
  cases h'
  exact .inr h

section
variable (h : Refuses Cause x)
include h

theorem Refuses.mono (hc : ∀ e, Cause e → Cause' e) : Refuses Cause' x :=
  fun e he => (h e he).imp_right (hc e)

theorem Refuses.bind {f : α → Except ConfigError β}
    (hf : ∀ a, x = .ok a → Refuses Cause (f a)) : Refuses Cause (x >>= f) := by
  intro e he
  rcases bind_eq_error.mp he with he | ⟨a, ha, he⟩
  · exact h e he
  · exact hf a ha e he

theorem Refuses.map {f : α → β} : Refuses Cause (x.map f) := by
  intro e he
  cases x with
  | error e' =>
    cases he
    exact h e rfl
  | ok a => cases he

theorem Refuses.cases : (∃ a, x = .ok a) ∨ (∃ i, x = .error (.invalid i)) ∨ ∃ e, x = .error e ∧ Cause e := by
  cases x with
  | ok a => exact .inl ⟨a, rfl⟩
  | error e =>
    rcases h e rfl with ⟨i, rfl⟩ | hc
    · exact .inr (.inl ⟨i, rfl⟩)
    · exact .inr (.inr ⟨e, rfl, hc⟩)

end

end

theorem Entries.exists_mem_of_get {m : Entries} {key : String} {v : Value} (h : m.get key = some v) :
    ∃ k, (k, v) ∈ m := by
  obtain ⟨e, he, rfl⟩ := Option.map_eq_some_iff.mp h
  exact ⟨e.1, mem_of_find?_eq_some he⟩

theorem Value.isTooLong_of_get {m : Entries} {key : String} {v : Value} (h : m.get key = some v)
    (hv : v.isTooLong = true) : (Value.map m).isTooLong = true := by
  obtain ⟨k, hk⟩ := Entries.exists_mem_of_get h
  rw [isTooLong, anyEntryTooLong_eq_any]
  exact any_eq_true.mpr ⟨(k, v), hk, by simp [hv]⟩

/-- A value is named in a message that has no text for it. -/
def Unnamed (v : Value) (e : ConfigError) : Prop := e = .tooLong ∧ v.isTooLong = true

theorem refuses_severityAt (key : String) (v : Value) : Refuses (Unnamed v) (severityAt key v) := by
  unfold severityAt
  split
  · next h => exact refuses_error ⟨rfl, h⟩
  · split
    · exact refuses_ok _
    · exact refuses_refuse _ _

theorem refuses_stringsAt {Cause : ConfigError → Prop} (key : String) (v : Value) :
    Refuses Cause (stringsAt key v) := by
  unfold stringsAt
  split
  · exact refuses_ok _
  · split
    · exact refuses_ok _
    · exact refuses_refuse _ _
  · exact refuses_refuse _ _

namespace RuleSettings
variable (key : String) (m : Entries)

/-- Settings with names of their own that cannot be sorted. -/
def Mixed (v : Value) : Prop := ∃ m, v = .map m ∧ ¬(unknownKeys m).Pairwise Scalar.Comparable

def Cause (v : Value) (e : ConfigError) : Prop := (∃ l r, e = .unordered l r ∧ Mixed v) ∨ Unnamed v e

theorem mem_of_mem_unknownKeys {m : Entries} {k : Scalar} (h : k ∈ unknownKeys m) : ∃ v, (k, v) ∈ m := by
  obtain ⟨e, he, rfl⟩ := mem_map.mp (mem_filter.mp h).1
  exact ⟨e.2, he⟩

theorem refuses_checkKeys : Refuses (Cause (.map m)) (checkKeys key m) := by
  unfold checkKeys
  dsimp only
  split
  · exact refuses_ok _
  · split
    · next l r h =>
      refine refuses_error (.inl ⟨l, r, rfl, m, rfl, ?_⟩)
      rw [← firstUnordered?_eq_none, h]
      simp
    · split
      · next h =>
        obtain ⟨k, hk, hlong⟩ := any_eq_true.mp h
        obtain ⟨v, hv⟩ := mem_of_mem_unknownKeys hk
        refine refuses_error (.inr ⟨rfl, ?_⟩)
        rw [Value.isTooLong, Value.anyEntryTooLong_eq_any]
        exact any_eq_true.mpr ⟨(k, v), hv, by simp [hlong]⟩
      · exact refuses_refuse _ _

theorem checkKeys_of_mixed {m : Entries} (h : ¬(unknownKeys m).Pairwise Scalar.Comparable) :
    ∃ l r, checkKeys key m = .error (.unordered l r) := by
  have hne : (unknownKeys m).isEmpty = false := by
    cases hk : unknownKeys m with
    | nil => simp [hk] at h
    | cons k ks => rfl
  cases hu : firstUnordered? (unknownKeys m) with
  | none => exact absurd (firstUnordered?_eq_none.mp hu) h
  | some p => exact ⟨p.1, p.2, by simp [checkKeys, hne, hu]⟩

theorem refuses_enabledAt {Cause : ConfigError → Prop} : Refuses Cause (enabledAt key m) := by
  unfold enabledAt
  split
  · exact refuses_ok _
  · exact refuses_ok _
  · exact refuses_refuse _ _

theorem refuses_severityOf : Refuses (Unnamed (.map m)) (severityOf key m) := by
  unfold severityOf
  split
  · exact refuses_ok _
  · exact refuses_ok _
  · next v _ hv =>
    exact ((refuses_severityAt _ v).mono fun e he => ⟨he.1, Value.isTooLong_of_get hv he.2⟩).map

theorem refuses_optionsOf {Cause : ConfigError → Prop} : Refuses Cause (optionsOf key m) := by
  unfold optionsOf
  split
  · exact refuses_ok _
  · split
    · exact refuses_ok _
    · split
      · exact refuses_ok _
      · exact refuses_refuse _ _

theorem refuses_ofValue (ruleId : String) (v : Value) : Refuses (Cause v) (ofValue ruleId v) := by
  unfold ofValue
  dsimp only
  split
  · exact refuses_ok _
  · exact refuses_ok _
  · next m =>
    refine (refuses_checkKeys _ m).bind fun _ _ => (refuses_enabledAt _ m).bind fun enabled _ => ?_
    refine ((refuses_severityOf _ m).mono fun e he => .inr he).bind fun severity _ => ?_
    exact (refuses_optionsOf _ m).bind fun options _ => refuses_ok _
  · exact refuses_refuse _ _

end RuleSettings

namespace RuleConfig
variable (m : Entries)

def SetsRule (v : Value) (k : Scalar) (x : Value) : Prop :=
  ∃ (m rules : Entries), v = .map m ∧ m.get "rules" = some (.map rules) ∧ (k, x) ∈ rules

theorem refuses_rulesOf {Cause : ConfigError → Prop} {done : List (String × RuleSettings)}
    {rules : List (Scalar × Value)} (hlong : ∀ e ∈ rules, e.1.isTooLong = true → Cause .tooLong)
    (hrule : ∀ e ∈ rules, ∀ x, RuleSettings.Cause e.2 x → Cause x) : Refuses Cause (rulesOf done rules) := by
  induction rules generalizing done with
  | nil => exact refuses_ok _
  | cons e rules ih =>
    obtain ⟨k, v⟩ := e
    unfold rulesOf
    split
    · next h => exact refuses_error (hlong (k, v) mem_cons_self h)
    · refine ((RuleSettings.refuses_ofValue _ v).mono (hrule (k, v) mem_cons_self)).bind fun s _ => ?_
      exact ih (fun e he => hlong e (mem_cons_of_mem _ he)) fun e he => hrule e (mem_cons_of_mem _ he)

def Cause (v : Value) (e : ConfigError) : Prop :=
  (∃ l r, e = .unordered l r ∧ ∃ k x, SetsRule v k x ∧ RuleSettings.Mixed x) ∨ Unnamed v e

theorem refuses_rulesAt : Refuses (Cause (.map m)) (rulesAt m) := by
  unfold rulesAt
  split
  · exact refuses_ok _
  · next v hv =>
    split
    · exact refuses_ok _
    · split
      · next rules _ =>
        have hentry : ∀ e ∈ rules, e.1.isTooLong = true ∨ e.2.isTooLong = true → (Value.map m).isTooLong = true := by
          intro e he hlong
          refine Value.isTooLong_of_get hv ?_
          rw [Value.isTooLong, Value.anyEntryTooLong_eq_any]
          exact any_eq_true.mpr ⟨e, he, by simpa using hlong⟩
        refine refuses_rulesOf (fun e he h => .inr ⟨rfl, hentry e he (.inl h)⟩) fun e he x hx => ?_
        rcases hx with ⟨l, r, rfl, hmixed⟩ | ⟨rfl, hlong⟩
        · exact .inl ⟨l, r, rfl, e.1, e.2, ⟨m, rules, rfl, hv, he⟩, hmixed⟩
        · exact .inr ⟨rfl, hentry e he (.inr hlong)⟩
      · exact refuses_refuse _ _

theorem refuses_minSeverityAt : Refuses (Unnamed (.map m)) (minSeverityAt m) := by
  unfold minSeverityAt
  split
  · exact refuses_ok _
  · exact refuses_ok _
  · next v _ hv => exact (refuses_severityAt _ v).mono fun e he => ⟨he.1, Value.isTooLong_of_get hv he.2⟩

theorem refuses_ignoredPathsAt {Cause : ConfigError → Prop} : Refuses Cause (ignoredPathsAt m) := by
  unfold ignoredPathsAt
  split
  · exact refuses_ok _
  · exact refuses_stringsAt _ _

theorem refuses_ofValue (v : Value) : Refuses (Cause v) (ofValue v) := by
  unfold ofValue
  split
  · exact refuses_ok _
  · next m =>
    split
    · next h =>
      obtain ⟨k, hk, hlong⟩ := any_eq_true.mp h
      obtain ⟨e, he, rfl⟩ := mem_map.mp (mem_filter.mp hk).1
      refine refuses_error (.inr ⟨rfl, ?_⟩)
      rw [Value.isTooLong, Value.anyEntryTooLong_eq_any]
      exact any_eq_true.mpr ⟨e, he, by simp [hlong]⟩
    · split
      · exact refuses_refuse _ _
      · refine (refuses_rulesAt m).bind fun rules _ => (refuses_ignoredPathsAt m).bind fun paths _ => ?_
        refine (refuses_stringsAt _ _).bind fun disabled _ => ?_
        exact ((refuses_minSeverityAt m).mono fun e he => .inr he).bind fun severity _ => refuses_ok _
  · exact refuses_refuseAll _

end RuleConfig

namespace ToolSettings

def Cause (m : List (Yaml.Data × Yaml.Data)) (e : ConfigError) : Prop :=
  (e = .tooLarge ∧ ∃ n, (.scalar (.str "per_job_timeout"), .scalar (.int n)) ∈ m ∧ floatOfInt? n = none) ∨
  (e = .tooLong ∧ ∃ x ∈ m, x.1.toValue.isTooLong = true)

theorem refuses_set (s : ToolSettings) (key : String) (d : Yaml.Data) :
    Refuses (fun e => e = .tooLarge ∧ key = "per_job_timeout" ∧
      ∃ n, d = .scalar (.int n) ∧ floatOfInt? n = none) (s.set key d) := by
  unfold set
  split <;> first | exact refuses_ok _ | exact refuses_refuse _ _ | skip
  next n =>
    split
    · exact refuses_ok _
    · next h => exact refuses_error ⟨rfl, rfl, n, rfl, h⟩

theorem refuses_setAll (s : ToolSettings) (m : List (Yaml.Data × Yaml.Data)) : Refuses (Cause m) (s.setAll m) := by
  induction m generalizing s with
  | nil => exact refuses_ok _
  | cons e m ih =>
    have hrest : ∀ x, Cause m x → Cause (e :: m) x := by
      rintro x (⟨rfl, n, hn, hlarge⟩ | ⟨rfl, y, hy, hlong⟩)
      · exact .inl ⟨rfl, n, mem_cons_of_mem _ hn, hlarge⟩
      · exact .inr ⟨rfl, y, mem_cons_of_mem _ hy, hlong⟩
    unfold setAll
    split
    · next h => cases h
    · next key d rest h =>
      cases h
      refine Refuses.bind ((refuses_set s key d).mono ?_) fun s' _ => (ih s').mono hrest
      rintro x ⟨rfl, rfl, n, rfl, hlarge⟩
      exact .inl ⟨rfl, n, mem_cons_self, hlarge⟩
    · next k d rest _ h =>
      cases h
      split
      · next hlong => exact refuses_error (.inr ⟨rfl, (k, d), mem_cons_self, hlong⟩)
      · exact refuses_refuse _ _

theorem refuses_ofData (d : Yaml.Data) : Refuses (fun e => ∃ id m, d = .map id m ∧ Cause m e) (ofData d) := by
  unfold ofData
  split
  · next id m =>
    refine ((refuses_setAll {} m).mono fun e he => ⟨id, m, rfl, he⟩).bind fun s _ => ?_
    split
    · exact refuses_ok _
    · exact refuses_refuse _ _
  · exact refuses_refuseAll _

end ToolSettings

theorem RuleConfig.ofValue_of_known {m : Entries} (h : unknownKeys m = []) : ofValue (.map m) = ofEntries m := by
  simp [ofValue, unknownKey?, h]

theorem RuleConfig.ofValue_of_checkKeys {id : String} {m : Entries} {e : ConfigError}
    (h : RuleSettings.checkKeys ("rules." ++ Text.upper id) m = .error e) :
    ofValue (.record [("rules", .record [(id, .map m)])]) = .error e := by
  have hrules : rulesAt [(.str "rules", .record [(id, .map m)])] = .error e := by
    change (RuleSettings.ofValue (Text.upper id) (.map m) >>= _) = _
    rw [RuleSettings.ofValue, h]
    rfl
  refine (ofValue_of_known rfl).trans ?_
  change ofEntries [(.str "rules", .record [(id, .map m)])] = _
  rw [ofEntries, hrules]
  rfl

theorem ToolSettings.ofData_of_floatOfInt? {n : Int} (hn : floatOfInt? n = none) :
    ofData (.record [("per_job_timeout", .scalar (.int n))]) = .error .tooLarge := by
  simp only [Yaml.Data.record, ofData, setAll, set, map_cons, hn]
  rfl

/-- Whatever a file holds, a configuration of rules and settings are taken or refused, but for three
    reasons: names in the settings of a rule that are in no order, a time limit that is too large for a
    double, and an integer that is too long to be named. The first two are reasons wherever they come
    up first. -/
theorem malformed_configurations_refused (v : Value) (d : Yaml.Data) (id : String) (x : Value) (n : Int) :
    ((∃ c, RuleConfig.ofValue v = .ok c) ∨
      (∃ i, RuleConfig.ofValue v = .error (.invalid i)) ∨
      (∃ l r k x, RuleConfig.ofValue v = .error (.unordered l r) ∧ RuleConfig.SetsRule v k x ∧
        RuleSettings.Mixed x) ∨
      (RuleConfig.ofValue v = .error .tooLong ∧ v.isTooLong = true)) ∧
    ((∃ s, ToolSettings.ofData d = .ok s) ∨
      (∃ i, ToolSettings.ofData d = .error (.invalid i)) ∨
      (ToolSettings.ofData d = .error .tooLarge ∧ ∃ id m n, d = .map id m ∧
        (.scalar (.str "per_job_timeout"), .scalar (.int n)) ∈ m ∧ ToolSettings.floatOfInt? n = none) ∨
      (ToolSettings.ofData d = .error .tooLong ∧ ∃ id m, d = .map id m ∧
        ∃ x ∈ m, x.1.toValue.isTooLong = true)) ∧
    (RuleSettings.Mixed x → ∃ l r,
      RuleConfig.ofValue (.record [("rules", .record [(id, x)])]) = .error (.unordered l r)) ∧
    (ToolSettings.floatOfInt? n = none →
      ToolSettings.ofData (.record [("per_job_timeout", .scalar (.int n))]) = .error .tooLarge) := by
  refine ⟨?_, ?_, ?_, ?_⟩
  · rcases (RuleConfig.refuses_ofValue v).cases with hok | hinvalid | ⟨e, he, hcause⟩
    · exact .inl hok
    · exact .inr (.inl hinvalid)
    · rcases hcause with ⟨l, r, rfl, k, x, hset, hmixed⟩ | ⟨rfl, hlong⟩
      · exact .inr (.inr (.inl ⟨l, r, k, x, he, hset, hmixed⟩))
      · exact .inr (.inr (.inr ⟨he, hlong⟩))
  · rcases (ToolSettings.refuses_ofData d).cases with hok | hinvalid | ⟨e, he, id, m, rfl, hcause⟩
    · exact .inl hok
    · exact .inr (.inl hinvalid)
    · rcases hcause with ⟨rfl, n, hn, hlarge⟩ | ⟨rfl, hlong⟩
      · exact .inr (.inr (.inl ⟨he, id, m, n, rfl, hn, hlarge⟩))
      · exact .inr (.inr (.inr ⟨he, id, m, rfl, hlong⟩))
  · rintro ⟨m, rfl, hmixed⟩
    obtain ⟨l, r, hkeys⟩ := RuleSettings.checkKeys_of_mixed ("rules." ++ Text.upper id) hmixed
    exact ⟨l, r, RuleConfig.ofValue_of_checkKeys hkeys⟩
  · intro hn
    exact ToolSettings.ofData_of_floatOfInt? hn

theorem malformed_configurations_not_refused :
    ToolSettings.ofData (.record [("per_job_timeout", .scalar (.int (Int.pow 10 400)))]) = .error .tooLarge ∧
      ∃ l r, RuleConfig.ofValue (.record [("rules", .record [("SOL-001",
        .map [(.str "x", .null), (.int 1, .null)])])]) = .error (.unordered l r) :=
  ⟨ToolSettings.ofData_of_floatOfInt? (by decide +kernel), .int 1, .str "x",
    RuleConfig.ofValue_of_checkKeys rfl⟩

end ContractAudit

import Mathlib.Data.String.Basic
import ContractAudit.Proofs.FileTree
import ContractAudit.Proofs.Records
import ContractAudit.Proofs.Refusals
import ContractAudit.Proofs.YamlText

/-! # Settings that are stored and read again

A configuration of rules is read back as it was written, but for the order of its rules
(`stored_rules_read_back`). -/

namespace ContractAudit
open List Text Value FilePath Yaml Hash

/-! ### The configuration of rules -/

theorem Severity.parse_name (s : Severity) : parse (.str s.name) = .ok s := by
  have hname : ofName? (lower (strip (str s.name).plain)) = some s := by
    cases s <;> decide +kernel
  delta parse
  rw [hname]

theorem severityAt_name (key : String) (s : Severity) : severityAt key (.str s.name) = .ok s := by
  simp [severityAt, isTooLong, Scalar.isTooLong, Severity.parse_name]

theorem stringsAt_strings (key : String) (ss : List String) : stringsAt key (.strings ss) = .ok ss := by
  have hitems : stringItems? (ss.map .str) = some ss := by
    induction ss with
    | nil => rfl
    | cons s ss ih => simp [stringItems?, ih]
  simp [stringsAt, strings, hitems]

theorem RuleSettings.severityOf_name (key : String) (enabled : Value) (v : Severity) (m : Entries) :
    severityOf key ((.str "enabled", enabled) :: (.str "severity", .str v.name) :: m) = .ok (some v) := by
  rw [severityOf, Entries.get_cons, if_neg (by decide), Entries.get_cons, if_pos rfl]
  change (severityAt _ (.str v.name)).map some = _
  rw [severityAt_name]
  rfl

theorem RuleSettings.ofValue_map {id : String} {m : Entries} {s : RuleSettings}
    (hkeys : unknownKeys m = []) (henabled : enabledAt ("rules." ++ id) m = .ok s.enabled)
    (hseverity : severityOf ("rules." ++ id) m = .ok s.severity)
    (hoptions : optionsOf ("rules." ++ id) m = .ok s.options) : ofValue id (.map m) = .ok s := by
  simp only [ofValue, checkKeys, hkeys, henabled, hseverity, hoptions]
  rfl

theorem RuleSettings.ofValue_toValue (id : String) (s : RuleSettings) : ofValue id s.toValue = .ok s := by
  obtain ⟨enabled, severity, options⟩ := s
  cases severity with
  | none => cases options <;> rfl
  | some v =>
    cases options with
    | nil => exact ofValue_map rfl rfl (severityOf_name _ _ v []) rfl
    | cons e m => exact ofValue_map rfl rfl (severityOf_name _ _ v [(.str "options", .map (e :: m))]) rfl

namespace RuleConfig
variable {id : String} {s : RuleSettings} {l : List (String × RuleSettings)}

def InOrder (l : List (String × RuleSettings)) : Prop := l.Pairwise fun a b => a.1 < b.1

theorem perm_insertRule (h : id ∉ l.map (·.1)) : (insertRule id s l).Perm ((id, s) :: l) := by
  induction l with
  | nil => exact .refl _
  | cons e l ih =>
    obtain ⟨k, t⟩ := e
    rw [map_cons, mem_cons, not_or] at h
    rw [insertRule, if_neg (by simpa using h.1)]
    split
    · exact .refl _
    · exact ((ih h.2).cons _).trans (.swap ..)

theorem mem_insertRule {x : String × RuleSettings} (h : x ∈ insertRule id s l) : x = (id, s) ∨ x ∈ l := by
  induction l with
  | nil => exact .inl (mem_singleton.mp h)
  | cons e l ih =>
    rw [insertRule] at h
    grind

theorem inOrder_insertRule (id : String) (s : RuleSettings) (h : InOrder l) : InOrder (insertRule id s l) := by
  induction l with
  | nil => exact pairwise_singleton ..
  | cons e l ih =>
    obtain ⟨k, t⟩ := e
    obtain ⟨hk, hl⟩ := pairwise_cons.mp h
    rw [insertRule]
    split
    · next heq =>
      obtain rfl := beq_iff_eq.mp heq
      exact pairwise_cons.mpr ⟨hk, hl⟩
    · next hne =>
      split
      · next hlt =>
        refine pairwise_cons.mpr ⟨fun x hx => ?_, h⟩
        rcases mem_cons.mp hx with rfl | hx
        · exact hlt
        · exact hlt.trans (hk x hx)
      · next hge =>
        refine pairwise_cons.mpr ⟨fun x hx => ?_, ih hl⟩
        rcases mem_insertRule hx with rfl | hx
        · exact lt_of_le_of_ne (not_lt.mp hge) fun heq => hne (beq_iff_eq.mpr heq.symm)
        · exact hk x hx

theorem rulesOf_written {rules : List (String × RuleSettings)} (done : List (String × RuleSettings))
    (hupper : ∀ e ∈ rules, upper e.1 = e.1) (hids : ((rules ++ done).map (·.1)).Nodup) (hdone : InOrder done) :
    ∃ r, rulesOf done (rules.map fun e => (.str e.1, e.2.toValue)) = .ok r ∧ r.Perm (rules ++ done) ∧ InOrder r := by
  induction rules generalizing done with
  | nil => exact ⟨done, rfl, .refl _, hdone⟩
  | cons e rules ih =>
    obtain ⟨id, s⟩ := e
    obtain ⟨hid, hupper⟩ := forall_mem_cons.mp hupper
    rw [cons_append, map_cons, nodup_cons, map_append, mem_append, not_or] at hids
    have hperm := perm_insertRule (s := s) hids.1.2
    have hmiddle : (rules ++ insertRule id s done).Perm ((id, s) :: (rules ++ done)) :=
      (hperm.append_left rules).trans perm_middle
    obtain ⟨r, hr, hrperm, hrorder⟩ := ih _ hupper (by
      rw [(hmiddle.map _).nodup_iff, map_cons, nodup_cons, map_append, mem_append, not_or]
      exact hids) (inOrder_insertRule id s hdone)
    refine ⟨r, ?_, hrperm.trans hmiddle, hrorder⟩
    rw [map_cons, rulesOf]
    have hplain : (scalar (.str id)).plain = id := rfl
    simp only [Scalar.isTooLong, Bool.false_eq_true, if_false, hplain, hid, RuleSettings.ofValue_toValue]
    exact hr

theorem rulesAt_map (rules : Entries) (m : Entries) :
    rulesAt ((.str "rules", .map rules) :: m) = rulesOf [] rules := by
  rw [rulesAt, Entries.get_cons, if_pos rfl]
  cases rules <;> rfl

theorem ofValue_toValue {c : RuleConfig} {r : List (String × RuleSettings)}
    (h : rulesOf [] (c.rules.map fun e => (.str e.1, e.2.toValue)) = .ok r)
    (hdisabled : ∀ id ∈ c.disabledRules, upper id = id) : ofValue c.toValue = .ok { c with rules := r } := by
  have hrules : c.toValue = .map [(.str "rules", .map (c.rules.map fun e => (.str e.1, e.2.toValue))),
      (.str "ignore_paths", .strings c.ignoredPaths), (.str "disabled_rules", .strings c.disabledRules),
      (.str "min_severity", .str c.minSeverity.name)] := by
    simp only [toValue, record, map_cons, map_nil, map_map]
    rfl
  have hsame : c.disabledRules.map upper = c.disabledRules := by
    conv_rhs => rw [← map_id c.disabledRules]
    exact map_congr_left hdisabled
  rw [hrules, ofValue_of_known rfl, ofEntries, rulesAt_map, h]
  have hpaths := stringsAt_strings "ignore_paths" c.ignoredPaths
  have hids := stringsAt_strings "disabled_rules" c.disabledRules
  have hseverity := severityAt_name "min_severity" c.minSeverity
  simp [ignoredPathsAt, minSeverityAt, Entries.get_cons, hpaths, hids, hseverity, hsame, bind, Except.bind, pure,
    Except.pure]

end RuleConfig

/-- A configuration that is written is read back with the same rules, in the order of their ids; one whose
    rules are in that order is read back as it was. What is set for a rule is the same in both. -/
theorem stored_rules_read_back (c : RuleConfig) (hids : (c.rules.map (·.1)).Nodup)
    (hupper : ∀ e ∈ c.rules, Text.upper e.1 = e.1) (hdisabled : ∀ id ∈ c.disabledRules, Text.upper id = id) :
    ∃ c', RuleConfig.ofValue c.toValue = .ok c' ∧ c'.rules.Perm c.rules ∧ c' = { c with rules := c'.rules } ∧
      (RuleConfig.InOrder c.rules → c' = c) ∧
      ∀ id, c'.settingsFor id = c.settingsFor id ∧ c'.isEnabled id = c.isEnabled id := by
  obtain ⟨r, hr, hperm, horder⟩ := RuleConfig.rulesOf_written [] hupper (by simpa using hids) .nil
  rw [List.append_nil] at hperm
  have hlookup (id : String) : r.lookup id = c.rules.lookup id := by
    ext s
    rw [lookup_eq_some_iff_mem hids, lookup_eq_some_iff_mem ((hperm.map _).nodup_iff.mpr hids), hperm.mem_iff]
  have hsettings (id : String) : RuleConfig.settingsFor { c with rules := r } id = c.settingsFor id := by
    rw [RuleConfig.settingsFor, RuleConfig.settingsFor, hlookup]
  refine ⟨{ c with rules := r }, RuleConfig.ofValue_toValue hr hdisabled, hperm, rfl, fun hc => ?_,
    fun id => ⟨hsettings id, ?_⟩⟩
  · have hsame : r = c.rules := hperm.eq_of_pairwise (fun a b _ _ hab hba => absurd hab hba.asymm) horder hc
    rw [hsame]
  · rw [RuleConfig.isEnabled, RuleConfig.isEnabled, hsettings]

def storedRules : RuleConfig where
  rules := [("SOL-008", { enabled := false, options := [(.str "names", .strings ["ratio"])] }),
    ("SOL-001", { severity := some .high })]
  ignoredPaths := []
  disabledRules := ["SOL-002"]
  minSeverity := .low

theorem stored_rules_read_back_two :
    (storedRules.rules.map (·.1)).Nodup ∧ (∀ e ∈ storedRules.rules, Text.upper e.1 = e.1) ∧
      (∀ id ∈ storedRules.disabledRules, Text.upper id = id) ∧
      ∃ c', RuleConfig.ofValue storedRules.toValue = .ok c' ∧ c'.rules.Perm storedRules.rules ∧
        c'.isEnabled "sol-008" = false ∧ c'.settingsFor "sol-001" = { severity := some .high } := by
  have hids : (storedRules.rules.map (·.1)).Nodup := by decide
  have hupper : ∀ e ∈ storedRules.rules, upper e.1 = e.1 := by decide +kernel
  have hdisabled : ∀ id ∈ storedRules.disabledRules, upper id = id := by decide +kernel
  obtain ⟨c', hread, hperm, -, -, hsame⟩ := stored_rules_read_back storedRules hids hupper hdisabled
  refine ⟨hids, hupper, hdisabled, c', hread, hperm, ?_, ?_⟩
  · rw [(hsame _).2]
    decide +kernel
  · rw [(hsame _).1]
    decide +kernel

/-! ### Data behind values -/

namespace Yaml.Data
variable {d : Data}

theorem eq_scalar_of_toValue {x : Scalar} (h : d.toValue = .scalar x) (hx : ∀ t, x ≠ .timestamp t) : d = .scalar x := by
  cases d with
  | scalar y => rw [Value.scalar.inj h]
  | timestamp i t => exact (hx t (Value.scalar.inj h).symm).elim
  | _ => cases h

theorem eq_scalar_of_key {k : String} (h : d.scalar?.getD .null = .str k) : d = .scalar (.str k) := by
  cases d <;> simp_all [scalar?]

theorem eq_list_of_toValue {vs : List Value} (h : d.toValue = .list vs) :
    ∃ i ds, d = .list i ds ∧ itemValues ds = vs := by
  cases d with
  | list i ds => exact ⟨i, ds, rfl, Value.list.inj h⟩
  | _ => cases h

theorem eq_map_of_toValue {n : Entries} (h : d.toValue = .map n) : ∃ i m, d = .map i m ∧ entryValues m = n := by
  cases d with
  | map i m => exact ⟨i, m, rfl, Value.map.inj h⟩
  | _ => cases h

theorem eq_of_itemValues {ds fs : List Data} (hfs : ∀ f ∈ fs, ∃ x, f = .scalar (.str x))
    (h : itemValues ds = itemValues fs) : ds = fs := by
  induction fs generalizing ds with
  | nil =>
    cases ds with
    | nil => rfl
    | cons d ds => cases h
  | cons f fs ih =>
    cases ds with
    | nil => cases h
    | cons d ds =>
      obtain ⟨⟨x, rfl⟩, hrest⟩ := forall_mem_cons.mp hfs
      obtain ⟨hd, hds⟩ := List.cons.inj h
      rw [eq_scalar_of_toValue hd nofun, ih hrest hds]

theorem entryValues_eq_map (m : List (Data × Data)) :
    entryValues m = m.map fun e => (e.1.scalar?.getD .null, e.2.toValue) := by
  induction m with
  | nil => rfl
  | cons e m ih => rw [entryValues, ih, map_cons]

end Yaml.Data

theorem readConfigFile_written {t : Node} {name text : String} {executable : Bool} {d : Data} (key : String)
    (hfind : t.find (ofString name) = .ok (.file { bytes := utf8 text, executable }))
    (htext : NoSpecial text.toList) (hparse : parse text = .ok d) : readConfigFile t name key = .ok d := by
  have hread : t.read (ofString name) = .ok { bytes := utf8 text, executable } := by
    rw [Node.read, hfind]
  rw [readConfigFile, hread]
  dsimp only
  rw [decode_utf8 htext]
  dsimp only
  rw [unifyNewlines_of_noSpecial htext, String.ofList_toList, hparse]

/-! ### Settings of the tool, one by one -/

namespace ToolSettings
variable {α : Type} {s s' s₀ : ToolSettings} {key text : String} {d : Data} {env : Environment}
variable {m : List (Data × Data)} {Says : String → α → Prop} {x : α} {given : Option String} {p q : Prop}

/-- What setting one key to data does. -/
inductive SetTo (s : ToolSettings) : String → Data → ToolSettings → Prop where
  | mode (x : String) : SetTo s "mode" (.scalar (.str x)) { s with mode := x }
  | outputDir (x : String) : SetTo s "output_dir" (.scalar (.str x)) { s with outputDir := x }
  | pluginDir (x : String) : SetTo s "plugin_dir" (.scalar (.str x)) { s with pluginDir := x }
  | maxWorkers (n : Int) : SetTo s "max_workers" (.scalar (.int n)) { s with maxWorkers := n }
  | jobCount (n : Int) : SetTo s "job_count" (.scalar (.int n)) { s with jobCount := n }
  | formats (i : Option Nat) (ds : List Data) : SetTo s "formats" (.list i ds) { s with formats := ds }
  | noLogDir : SetTo s "log_dir" (.scalar .null) { s with logDir := none }
  | logDir (x : String) : SetTo s "log_dir" (.scalar (.str x)) { s with logDir := some x }
  | timeout (x : Float) : SetTo s "per_job_timeout" (.scalar (.float x)) { s with perJobTimeout := x }
  | wholeTimeout (n : Int) (x : Float) (h : floatOfInt? n = some x) :
    SetTo s "per_job_timeout" (.scalar (.int n)) { s with perJobTimeout := x }

theorem setTo_of_set (h : s.set key d = .ok s') : SetTo s key d s' := by
  unfold set at h
  split at h
  case h_17 =>
    split at h
    · next hx =>
      cases h
      exact .wholeTimeout _ _ hx
    · cases h
  all_goals cases h <;> constructor

/-- One of the settings: its key, where it is kept, and which data gives it which value. Only its own key
    sets it. -/
structure Field (α : Type) where
  key : String
  of : ToolSettings → α
  Gives : Data → α → Prop
  sets : ∀ {s s' : ToolSettings} {k : String} {d : Data}, SetTo s k d s' →
    if k = key then Gives d (of s') else of s' = of s

namespace Field

def mode : Field String where
  key := "mode"
  of := ToolSettings.mode
  Gives d x := d = .scalar (.str x)
  sets h := by cases h <;> simp

def maxWorkers : Field Int where
  key := "max_workers"
  of := ToolSettings.maxWorkers
  Gives d n := d = .scalar (.int n)
  sets h := by cases h <;> simp

def jobCount : Field Int where
  key := "job_count"
  of := ToolSettings.jobCount
  Gives d n := d = .scalar (.int n)
  sets h := by cases h <;> simp

def perJobTimeout : Field Float where
  key := "per_job_timeout"
  of := ToolSettings.perJobTimeout
  Gives d x := d = .scalar (.float x) ∨ ∃ n, d = .scalar (.int n) ∧ floatOfInt? n = some x
  sets h := by cases h <;> simp_all

def outputDir : Field String where
  key := "output_dir"
  of := ToolSettings.outputDir
  Gives d x := d = .scalar (.str x)
  sets h := by cases h <;> simp

def pluginDir : Field String where
  key := "plugin_dir"
  of := ToolSettings.pluginDir
  Gives d x := d = .scalar (.str x)
  sets h := by cases h <;> simp

def logDir : Field (Option String) where
  key := "log_dir"
  of := ToolSettings.logDir
  Gives d x := d = .scalar (x.elim .null .str)
  sets h := by cases h <;> simp

def formats : Field (List Data) where
  key := "formats"
  of := ToolSettings.formats
  Gives d ds := ∃ i, d = .list i ds
  sets h := by cases h <;> simp

end Field

def lastUnder? (key : String) : List (Data × Data) → Option Data
  | [] => none
  | (.scalar (.str k), d) :: m => (lastUnder? key m).or (if k = key then some d else none)
  | _ :: m => lastUnder? key m

/-- A setting after entries were set: what the last one under its key gives, or what it was. -/
def Field.Laid (f : Field α) (m : List (Data × Data)) (s s' : ToolSettings) : Prop :=
  match lastUnder? f.key m with
  | some d => f.Gives d (f.of s')
  | none => f.of s' = f.of s

theorem setAll_cons_eq_ok {e : Data × Data} :
    s.setAll (e :: m) = .ok s' ↔ ∃ k s₁, e.1 = .scalar (.str k) ∧ s.set k e.2 = .ok s₁ ∧ s₁.setAll m = .ok s' := by
  obtain ⟨key, d⟩ := e
  constructor
  · intro h
    unfold setAll at h
    split at h
    · next heq => cases heq
    · next k d' m' heq =>
      cases heq
      obtain ⟨s₁, hset, hrest⟩ := bind_eq_ok.mp h
      exact ⟨k, s₁, rfl, hset, hrest⟩
    · split at h <;> cases h
  · rintro ⟨k, s₁, rfl, hset, hrest⟩
    exact bind_eq_ok.mpr ⟨s₁, hset, hrest⟩

theorem Field.laid_setAll (f : Field α) (h : s.setAll m = .ok s') : f.Laid m s s' := by
  induction m generalizing s with
  | nil =>
    cases h
    rfl
  | cons e m ih =>
    obtain ⟨key, d⟩ := e
    obtain ⟨k, s₁, rfl, hset, hrest⟩ := setAll_cons_eq_ok.mp h
    have hlaid := ih hrest
    have hsets := f.sets (setTo_of_set hset)
    unfold Laid at hlaid ⊢
    rw [lastUnder?]
    cases hlast : lastUnder? f.key m with
    | some d' =>
      rw [hlast] at hlaid
      exact hlaid
    | none =>
      rw [hlast] at hlaid
      rw [Option.none_or]
      split at hsets
      · next hk =>
        rw [if_pos hk]
        exact hlaid ▸ hsets
      · next hk =>
        rw [if_neg hk]
        exact hlaid.trans hsets

/-! ### Layers -/

def SaysJobs (text : String) (n : Int) : Prop := Decimal.readInt? text = some n ∧ 1 ≤ n

def SaysTimeout (text : String) (x : Float) : Prop := Decimal.readFloat? text = some x ∧ ¬x ≤ 0

def SaysMode (text mode : String) : Prop := mode = lower (strip text) ∧ mode ∈ ExecutionMode.names

/-- A setting that a variable decides, if that is set. -/
def Decided (given : Option String) (Says : String → α → Prop) (x : α) (otherwise : Prop) : Prop :=
  match given with
  | some text => Says text x
  | none => otherwise

/-- The settings are the defaults with the entries of a file over them and the environment over both. -/
structure Overlaid (m : List (Data × Data)) (env : Environment) (s : ToolSettings) : Prop where
  mode : Decided (env.get? "SOLSEC_MODE") SaysMode s.mode (Field.mode.Laid m {} s)
  maxWorkers : Field.maxWorkers.Laid m {} s
  jobCount : Decided (env.get? "SOLSEC_JOBS") SaysJobs s.jobCount (Field.jobCount.Laid m {} s)
  perJobTimeout : Decided (env.get? "SOLSEC_TIMEOUT") SaysTimeout s.perJobTimeout (Field.perJobTimeout.Laid m {} s)
  outputDir : Field.outputDir.Laid m {} s
  pluginDir : Decided (env.get? "SOLSEC_PLUGIN_DIR") Eq s.pluginDir (Field.pluginDir.Laid m {} s)
  logDir : Field.logDir.Laid m {} s
  formats : Field.formats.Laid m {} s

theorem jobsFrom_eq_ok (h : s.jobsFrom text = .ok s') : ∃ n, SaysJobs text n ∧ s' = { s with jobCount := n } := by
  unfold jobsFrom at h
  split at h
  · cases h
  · next n hread =>
    split at h
    · cases h
    · cases h
      exact ⟨n, ⟨hread, by omega⟩, rfl⟩

theorem timeoutFrom_eq_ok (h : s.timeoutFrom text = .ok s') :
    ∃ x, SaysTimeout text x ∧ s' = { s with perJobTimeout := x } := by
  unfold timeoutFrom at h
  split at h
  · cases h
  · next x hread =>
    split at h
    · cases h
    · next hpos =>
      cases h
      exact ⟨x, ⟨hread, hpos⟩, rfl⟩

theorem modeFrom_eq_ok (h : s.modeFrom text = .ok s') : ∃ mode, SaysMode text mode ∧ s' = { s with mode := mode } := by
  unfold modeFrom at h
  dsimp only at h
  generalize hmode : lower (strip text) = mode at h
  split at h
  · next hname =>
    cases h
    exact ⟨mode, ⟨hmode.symm, contains_iff_mem.mp hname⟩, rfl⟩
  · cases h

theorem override_eq_ok {name : String} {change : ToolSettings → String → Except ConfigError ToolSettings}
    (put : α → ToolSettings) {old : α} (hput : put old = s)
    (hchange : ∀ text s', change s text = .ok s' → ∃ x, Says text x ∧ s' = put x)
    (h : override env name change s = .ok s') : ∃ x, Decided (env.get? name) Says x (x = old) ∧ s' = put x := by
  unfold override at h
  cases hgiven : env.get? name with
  | some text =>
    rw [hgiven] at h
    exact hchange text s' h
  | none =>
    rw [hgiven] at h
    cases h
    exact ⟨old, rfl, hput.symm⟩

theorem withEnvironment_eq_ok (h : s.withEnvironment env = .ok s') :
    ∃ n x mode dir, s' = { s with jobCount := n, perJobTimeout := x, mode := mode, pluginDir := dir } ∧
      Decided (env.get? "SOLSEC_JOBS") SaysJobs n (n = s.jobCount) ∧
      Decided (env.get? "SOLSEC_TIMEOUT") SaysTimeout x (x = s.perJobTimeout) ∧
      Decided (env.get? "SOLSEC_MODE") SaysMode mode (mode = s.mode) ∧
      Decided (env.get? "SOLSEC_PLUGIN_DIR") Eq dir (dir = s.pluginDir) := by
  obtain ⟨s₁, h₁, h⟩ := bind_eq_ok.mp h
  obtain ⟨s₂, h₂, h⟩ := bind_eq_ok.mp h
  obtain ⟨s₃, h₃, h₄⟩ := bind_eq_ok.mp h
  obtain ⟨n, hn, rfl⟩ := override_eq_ok (fun n => { s with jobCount := n }) rfl (fun _ _ => jobsFrom_eq_ok) h₁
  obtain ⟨x, hx, rfl⟩ := override_eq_ok (fun x => { s with jobCount := n, perJobTimeout := x }) rfl
    (fun _ _ => timeoutFrom_eq_ok) h₂
  obtain ⟨mode, hmode, rfl⟩ := override_eq_ok
    (fun mode => { s with jobCount := n, perJobTimeout := x, mode := mode }) rfl (fun _ _ => modeFrom_eq_ok) h₃
  obtain ⟨dir, hdir, rfl⟩ := override_eq_ok
    (fun dir => { s with jobCount := n, perJobTimeout := x, mode := mode, pluginDir := dir }) rfl
    (fun text _ h => ⟨text, rfl, (Except.ok.inj h).symm⟩) h₄
  exact ⟨n, x, mode, dir, rfl, hn, hx, hmode, hdir⟩

def fileEntries : Data → List (Data × Data)
  | .map _ m => m
  | _ => []

theorem ofData_eq_ok : ofData d = .ok s ↔
    ∃ i m, d = .map i m ∧ setAll {} m = .ok s ∧ s.mode ∈ ExecutionMode.names := by
  constructor
  · intro h
    unfold ofData at h
    split at h
    · next i m =>
      obtain ⟨s₀, hset, h⟩ := bind_eq_ok.mp h
      split at h
      · next hmode =>
        cases h
        exact ⟨i, m, rfl, hset, contains_iff_mem.mp hmode⟩
      · cases h
    · cases h
  · rintro ⟨i, m, rfl, hset, hmode⟩
    refine bind_eq_ok.mpr ⟨s, hset, ?_⟩
    rw [if_pos (contains_iff_mem.mpr hmode)]
    rfl

theorem fileEntries_eq {i : Option Nat} (h : (if d.toValue.truthy then d else .map none []) = .map i m) :
    fileEntries d = m := by
  split at h
  · rw [h, fileEntries]
  · next hfalse =>
    obtain rfl : [] = m := (Data.map.inj h).2
    cases d with
    | map j n =>
      cases n with
      | nil => rfl
      | cons e n => simp [Data.toValue, Data.entryValues, truthy] at hfalse
    | _ => rfl

theorem Field.Laid.congr {f : Field α} (h : f.Laid m s₀ s) (heq : f.of s' = f.of s) : f.Laid m s₀ s' := by
  unfold Laid at h ⊢
  rwa [heq]

theorem Decided.imp (h : Decided given Says x p) (hpq : p → q) : Decided given Says x q := by
  cases given with
  | none => exact hpq h
  | some text => exact h

theorem overlaid_of_load {t : Node} {file : String} (h : load t env file = .ok s) :
    ∃ d, readConfigFile t file "settings" = .ok d ∧ Overlaid (fileEntries d) env s := by
  unfold load at h
  split at h
  · obtain ⟨d, hread, h⟩ := bind_eq_ok.mp h
    obtain ⟨s₀, hdata, henv⟩ := bind_eq_ok.mp h
    obtain ⟨i, m, hm, hset, -⟩ := ofData_eq_ok.mp hdata
    obtain ⟨n, x, mode, dir, rfl, hn, hx, hmode, hdir⟩ := withEnvironment_eq_ok henv
    refine ⟨d, hread, ?_⟩
    rw [fileEntries_eq hm]
    have laid {β : Type} (f : Field β) {s : ToolSettings} (heq : f.of s = f.of s₀) : f.Laid m {} s :=
      (f.laid_setAll hset).congr heq
    exact {
      mode := hmode.imp fun heq => laid .mode heq
      maxWorkers := laid .maxWorkers rfl
      jobCount := hn.imp fun heq => laid .jobCount heq
      perJobTimeout := hx.imp fun heq => laid .perJobTimeout heq
      outputDir := laid .outputDir rfl
      pluginDir := hdir.imp fun heq => laid .pluginDir heq
      logDir := laid .logDir rfl
      formats := laid .formats rfl }
  · cases h

/-- The settings are the same where a variable decides them. -/
structure AgreeOn (env : Environment) (s s' : ToolSettings) : Prop where
  mode : (env.get? "SOLSEC_MODE").isSome → s.mode = s'.mode
  jobCount : (env.get? "SOLSEC_JOBS").isSome → s.jobCount = s'.jobCount
  perJobTimeout : (env.get? "SOLSEC_TIMEOUT").isSome → s.perJobTimeout = s'.perJobTimeout
  pluginDir : (env.get? "SOLSEC_PLUGIN_DIR").isSome → s.pluginDir = s'.pluginDir

theorem Decided.unique {y : α} (hunique : ∀ text, Says text x → Says text y → x = y) (hx : Decided given Says x p)
    (hy : Decided given Says y q) (h : given.isSome) : x = y := by
  obtain ⟨text, rfl⟩ := Option.isSome_iff_exists.mp h
  exact hunique text hx hy

theorem Overlaid.agreeOn {m' : List (Data × Data)} (h : Overlaid m env s) (h' : Overlaid m' env s') :
    AgreeOn env s s' where
  mode := h.mode.unique (fun _ hx hy => hx.1.trans hy.1.symm) h'.mode
  jobCount := h.jobCount.unique (fun _ hx hy => Option.some.inj (hx.1.symm.trans hy.1)) h'.jobCount
  perJobTimeout := h.perJobTimeout.unique (fun _ hx hy => Option.some.inj (hx.1.symm.trans hy.1)) h'.perJobTimeout
  pluginDir := h.pluginDir.unique (fun _ hx hy => hx.symm.trans hy) h'.pluginDir

/-! ### Settings that are read back -/

theorem exists_setAll (h : ∀ e ∈ m, ∃ k, e.1 = .scalar (.str k) ∧ ∀ s : ToolSettings, ∃ s', s.set k e.2 = .ok s')
    (s : ToolSettings) : ∃ s', s.setAll m = .ok s' := by
  induction m generalizing s with
  | nil => exact ⟨s, rfl⟩
  | cons e m ih =>
    obtain ⟨⟨k, hk, hset⟩, hrest⟩ := forall_mem_cons.mp h
    obtain ⟨s₁, h₁⟩ := hset s
    obtain ⟨s', hs'⟩ := ih hrest s₁
    exact ⟨s', setAll_cons_eq_ok.mpr ⟨k, s₁, hk, h₁, hs'⟩⟩

theorem mem_of_lastUnder? (h : lastUnder? key m = some d) : (.scalar (.str key), d) ∈ m := by
  fun_induction lastUnder? key m with
  | case1 => cases h
  | case2 k d' m ih =>
    rcases Option.or_eq_some_iff.mp h with h | ⟨-, h⟩
    · exact mem_cons_of_mem _ (ih h)
    · split at h
      · next hk =>
        cases h
        exact hk ▸ mem_cons_self
      · cases h
  | case3 e m _ ih => exact mem_cons_of_mem _ (ih h)

theorem exists_lastUnder? (h : (.scalar (.str key), d) ∈ m) : ∃ d', lastUnder? key m = some d' := by
  fun_induction lastUnder? key m with
  | case1 => cases h
  | case2 k d' m ih =>
    rcases mem_cons.mp h with heq | h
    · cases heq
      cases lastUnder? key m with
      | none => exact ⟨d, by simp⟩
      | some d' => exact ⟨d', rfl⟩
    · obtain ⟨d', hd'⟩ := ih h
      exact ⟨d', by rw [hd', Option.some_or]⟩
  | case3 e m hkey ih =>
    rcases mem_cons.mp h with rfl | h
    · exact (hkey key d rfl).elim
    · exact ih h

theorem Field.of_eq (f : Field α) (hlaid : f.Laid m s₀ s) (hmem : (.scalar (.str f.key), d) ∈ m)
    (hall : ∀ d, (.scalar (.str f.key), d) ∈ m → ∀ y, f.Gives d y → y = x) : f.of s = x := by
  obtain ⟨d', hd'⟩ := exists_lastUnder? hmem
  unfold Laid at hlaid
  rw [hd'] at hlaid
  exact hall d' (mem_of_lastUnder? hd') _ hlaid

/-- The mode is one that there is, and the formats are texts. -/
structure WellTyped (s : ToolSettings) : Prop where
  mode : s.mode ∈ ExecutionMode.names
  formats : ∀ d ∈ s.formats, ∃ f, d = .scalar (.str f)

variable (s)

def storedEntries : Entries :=
  [(.str "mode", .str s.mode), (.str "max_workers", .int s.maxWorkers), (.str "job_count", .int s.jobCount),
    (.str "per_job_timeout", .float s.perJobTimeout), (.str "output_dir", .str s.outputDir),
    (.str "plugin_dir", .str s.pluginDir), (.str "log_dir", .ofString? s.logDir),
    (.str "formats", .list (Data.itemValues s.formats))]

theorem toValue_toData : s.toData.toValue = .map s.storedEntries := by
  obtain ⟨_, _, _, _, _, _, logDir, _⟩ := s
  cases logDir <;> rfl

theorem sorted_toData : s.toData.sorted =
    .record [("formats", .list none (sortItems s.formats)), ("job_count", .scalar (.int s.jobCount)),
      ("log_dir", .scalar (s.logDir.elim .null .str)), ("max_workers", .scalar (.int s.maxWorkers)),
      ("mode", .scalar (.str s.mode)), ("output_dir", .scalar (.str s.outputDir)),
      ("per_job_timeout", .scalar (.float s.perJobTimeout)), ("plugin_dir", .scalar (.str s.pluginDir))] := by
  let held : List (String × Data) := [("mode", .scalar (.str s.mode)), ("max_workers", .scalar (.int s.maxWorkers)),
    ("job_count", .scalar (.int s.jobCount)), ("per_job_timeout", .scalar (.float s.perJobTimeout)),
    ("output_dir", .scalar (.str s.outputDir)), ("plugin_dir", .scalar (.str s.pluginDir)),
    ("log_dir", .scalar (s.logDir.elim .null .str)), ("formats", .list none (sortItems s.formats))]
  have hsort := sortByKey_map (fun k => (held.lookup k).getD (.scalar .null))
    (show ["mode", "max_workers", "job_count", "per_job_timeout", "output_dir", "plugin_dir", "log_dir", "formats"].Perm
      ["formats", "job_count", "log_dir", "max_workers", "mode", "output_dir", "per_job_timeout", "plugin_dir"]
      by decide) (by decide)
  obtain ⟨_, _, _, _, _, _, logDir, _⟩ := s
  cases logDir <;> exact congrArg (Data.map none) hsort

variable {s}

theorem exists_set {v : Value} (h : (.str key, v) ∈ s.storedEntries) (hd : d.toValue = v) (s₀ : ToolSettings) :
    ∃ s', s₀.set key d = .ok s' := by
  simp only [storedEntries, mem_cons, Prod.mk.injEq, not_mem_nil, or_false, Scalar.str.injEq] at h
  rcases h with ⟨rfl, rfl⟩ | ⟨rfl, rfl⟩ | ⟨rfl, rfl⟩ | ⟨rfl, rfl⟩ | ⟨rfl, rfl⟩ | ⟨rfl, rfl⟩ | ⟨rfl, rfl⟩ | ⟨rfl, rfl⟩
  case inr.inr.inr.inr.inr.inr.inl =>
    cases hdir : s.logDir with
    | none =>
      rw [hdir] at hd
      exact ⟨_, by rw [Data.eq_scalar_of_toValue hd nofun]; rfl⟩
    | some dir =>
      rw [hdir] at hd
      exact ⟨_, by rw [Data.eq_scalar_of_toValue hd nofun]; rfl⟩
  case inr.inr.inr.inr.inr.inr.inr =>
    obtain ⟨i, ds, rfl, -⟩ := Data.eq_list_of_toValue hd
    exact ⟨_, rfl⟩
  all_goals exact ⟨_, by rw [Data.eq_scalar_of_toValue hd nofun]; rfl⟩

section
variable {es : List (Data × Data)} (hperm : (Data.entryValues es).Perm s.storedEntries)
include hperm

theorem mem_storedEntries {e : Data × Data} (he : e ∈ es) :
    (e.1.scalar?.getD .null, e.2.toValue) ∈ s.storedEntries := by
  rw [← hperm.mem_iff, Data.entryValues_eq_map]
  exact mem_map.mpr ⟨e, he, rfl⟩

theorem exists_of_mem_storedEntries {k : String} {v : Value} (h : (.str k, v) ∈ s.storedEntries) :
    ∃ d, (.scalar (.str k), d) ∈ es := by
  rw [← hperm.mem_iff, Data.entryValues_eq_map] at h
  obtain ⟨⟨k', d⟩, he, heq⟩ := mem_map.mp h
  obtain rfl := Data.eq_scalar_of_key (congrArg Prod.fst heq)
  exact ⟨d, he⟩

theorem exists_setAll_stored (s₀ : ToolSettings) : ∃ s', s₀.setAll es = .ok s' := by
  refine exists_setAll (fun e he => ?_) s₀
  have hmem := mem_storedEntries hperm he
  obtain ⟨k, hk⟩ : ∃ k, e.1.scalar?.getD .null = .str k := by
    simp only [storedEntries, mem_cons, Prod.mk.injEq, not_mem_nil, or_false] at hmem
    grind
  rw [hk] at hmem
  exact ⟨k, Data.eq_scalar_of_key hk, exists_set hmem rfl⟩

theorem Field.of_eq_stored (f : Field α) (v : Value) (hset : s₀.setAll es = .ok s')
    (hv : ∀ w, (.str f.key, w) ∈ s.storedEntries ↔ w = v)
    (hgives : ∀ d : Data, d.toValue = v → ∀ y, f.Gives d y → y = f.of s) : f.of s' = f.of s := by
  obtain ⟨d, hd⟩ := exists_of_mem_storedEntries hperm ((hv v).mpr rfl)
  exact f.of_eq (f.laid_setAll hset) hd fun d hd => hgives d ((hv _).mp (mem_storedEntries hperm hd))

theorem Field.of_eq_scalar (f : Field α) (x : Scalar) (hset : s₀.setAll es = .ok s')
    (hv : ∀ w, (.str f.key, w) ∈ s.storedEntries ↔ w = .scalar x) (hx : ∀ t, x ≠ .timestamp t)
    (hgives : ∀ y, f.Gives (.scalar x) y → y = f.of s) : f.of s' = f.of s :=
  f.of_eq_stored hperm (.scalar x) hset hv fun _ hd => Data.eq_scalar_of_toValue hd hx ▸ hgives

end

theorem ofData_stored {n : Entries} (hs : s.WellTyped) (hvalue : d.toValue = .map n) (hperm : n.Perm s.storedEntries) :
    ofData d = .ok s := by
  obtain ⟨i, es, rfl, rfl⟩ := Data.eq_map_of_toValue hvalue
  obtain ⟨s', hset⟩ := exists_setAll_stored hperm {}
  have hmode : s'.mode = s.mode := Field.mode.of_eq_scalar hperm (.str s.mode) hset
    (by simp [storedEntries, Field.mode]) nofun (by simp [Field.mode])
  have hworkers : s'.maxWorkers = s.maxWorkers := Field.maxWorkers.of_eq_scalar hperm (.int s.maxWorkers)
    hset (by simp [storedEntries, Field.maxWorkers]) nofun (by simp [Field.maxWorkers])
  have hjobs : s'.jobCount = s.jobCount := Field.jobCount.of_eq_scalar hperm (.int s.jobCount)
    hset (by simp [storedEntries, Field.jobCount]) nofun (by simp [Field.jobCount])
  have htimeout : s'.perJobTimeout = s.perJobTimeout := Field.perJobTimeout.of_eq_scalar hperm (.float s.perJobTimeout)
    hset (by simp [storedEntries, Field.perJobTimeout]) nofun
    (by simp [Field.perJobTimeout])
  have houtput : s'.outputDir = s.outputDir := Field.outputDir.of_eq_scalar hperm (.str s.outputDir)
    hset (by simp [storedEntries, Field.outputDir]) nofun (by simp [Field.outputDir])
  have hplugins : s'.pluginDir = s.pluginDir := Field.pluginDir.of_eq_scalar hperm (.str s.pluginDir)
    hset (by simp [storedEntries, Field.pluginDir]) nofun (by simp [Field.pluginDir])
  have hlog : s'.logDir = s.logDir := Field.logDir.of_eq_scalar hperm (s.logDir.elim .null .str)
    hset (by cases h : s.logDir <;> simp [storedEntries, Field.logDir, h, ofString?])
    (by cases s.logDir <;> simp) (by rintro (_ | y) hy <;> cases h : s.logDir <;> simp_all [Field.logDir])
  have hformats : s'.formats = s.formats := Field.formats.of_eq_stored hperm (.list (Data.itemValues s.formats))
    hset (by simp [storedEntries, Field.formats]) fun d hd y hy => by
      obtain ⟨j, rfl⟩ := hy
      exact Data.eq_of_itemValues hs.formats (list.inj hd)
  obtain rfl : s' = s := by
    cases s
    cases s'
    simp_all
  exact ofData_eq_ok.mpr ⟨i, es, rfl, hset, hs.mode⟩

/-- The settings have a text, and it is read as the map that was written, its entries in some order. -/
def ReadsBack (s : ToolSettings) : Prop :=
  s.toValue.isTooLong = false ∧
    ∃ d m n, parse s.fileText = .ok d ∧ d.toValue = .map m ∧ s.toData.toValue = .map n ∧ m.Perm n

theorem withEnvironment_of_unset (h : ∀ name ∈ variableNames, env.get? name = none) :
    s.withEnvironment env = .ok s := by
  simp only [variableNames, forall_mem_cons, not_mem_nil, false_implies, implies_true, and_true] at h
  obtain ⟨hjobs, htimeout, hmode, hdir⟩ := h
  simp only [withEnvironment, override, hjobs, htimeout, hmode, hdir]
  rfl

theorem load_of_find {t : Node} {file : String} {executable : Bool} (hs : s.WellTyped) (hback : s.ReadsBack)
    (henv : ∀ name ∈ variableNames, env.get? name = none)
    (hfind : t.find (ofString file) = .ok (.file { bytes := utf8 s.fileText, executable })) :
    load t env file = .ok s := by
  obtain ⟨-, d, m, n, hparse, hvalue, hstored, hperm⟩ := hback
  rw [toValue_toData] at hstored
  cases hstored
  have hread := readConfigFile_written "settings" hfind (noSpecial_render s.toData) hparse
  have hexists : t.exists? (ofString file) = true := by rw [Node.exists?, hfind]
  have htrue : d.toValue.truthy = true := by
    rw [hvalue]
    cases m with
    | nil => simpa [storedEntries] using hperm.length_eq
    | cons e m => rfl
  rw [load, if_pos hexists, hread]
  refine bind_eq_ok.mpr ⟨d, rfl, ?_⟩
  rw [if_pos htrue]
  exact bind_eq_ok.mpr ⟨s, ofData_stored hs hvalue hperm, withEnvironment_of_unset henv⟩

end ToolSettings

def storedSettings : ToolSettings where
  mode := "parallel"
  maxWorkers := 2
  jobCount := 3
  perJobTimeout := 2.5
  outputDir := "out"
  pluginDir := "p"
  logDir := some "l\r"
  formats := [.scalar (.str "json")]

theorem wellTyped_storedSettings : storedSettings.WellTyped where
  mode := by decide
  formats := by simp [storedSettings]

def storedText : String :=
  "formats:\n- json\njob_count: 3\nlog_dir: \"l\\r\"\nmax_workers: 2\nmode: parallel\noutput_dir: out\n" ++
    "per_job_timeout: 2.5\nplugin_dir: p\n"

theorem fileText_storedSettings : storedSettings.fileText = storedText := by
  rw [ToolSettings.fileText, render, ToolSettings.sorted_toData]
  decide +kernel

theorem readsBack_storedSettings : storedSettings.ReadsBack := by
  have hparse : (parse storedText).toOption.map Data.toValue = some storedSettings.toData.sorted.toValue := by
    rw [ToolSettings.sorted_toData]
    decide +kernel
  rw [ToolSettings.sorted_toData] at hparse
  cases hd : parse storedText with
  | error e =>
    rw [hd] at hparse
    cases hparse
  | ok d =>
    rw [hd] at hparse
    refine ⟨by decide +kernel, d, _, _, ?_, Option.some.inj hparse, ToolSettings.toValue_toData _, by decide⟩
    rw [fileText_storedSettings, hd]

/-! ### Settings in use -/

namespace SettingsHolder
variable {α β : Type} {h h' : SettingsHolder} {file : String} {s : ToolSettings}
variable {p : FilePath} {t : Node}

theorem perform_bind {u : Use α} {a : α} {h₁ : SettingsHolder} (hu : h.perform u = (.ok a, h₁)) (f : α → Use β) :
    h.perform (u >>= f) = h₁.perform (f a) := by
  have hbind : h.perform (u >>= f) = ExceptT.bindCont f (h.perform u).1 (h.perform u).2 := rfl
  rw [hbind, hu]
  rfl

theorem perform_get_bind (f : SettingsHolder → Use α) : h.perform (get >>= f) = h.perform (f h) := rfl

theorem perform_lift {ε : Type} (reason : ε → SettingsError) (r : Except ε α) :
    h.perform (lift reason r) = (r.mapError reason, h) := by
  cases r <;> rfl

theorem perform_current (h : SettingsHolder) : h.perform current =
      (h.loaded.elim ((ToolSettings.withEnvironment {} h.env).mapError .config) .ok,
        { h with loaded := h.loaded.or (ToolSettings.withEnvironment {} h.env).toOption }) := by
  obtain ⟨env, files, loaded⟩ := h
  cases loaded with
  | some s => rfl
  | none =>
    unfold current
    rw [perform_get_bind]
    dsimp only
    cases ToolSettings.withEnvironment {} env <;> rfl

theorem perform_current_files (hs : (h.perform current).1 = .ok s) (files : Node) :
    perform { h with files } current = (.ok s, { h with files, loaded := some s }) := by
  rw [perform_current] at hs ⊢
  refine Prod.ext hs ?_
  obtain ⟨env, held, loaded⟩ := h
  cases loaded with
  | some s' =>
    cases hs
    rfl
  | none =>
    obtain hs : ToolSettings.withEnvironment {} env = .ok s := mapError_eq_ok.mp hs
    dsimp only
    rw [hs]
    rfl

theorem perform_load (h : SettingsHolder) (file : String) :
    h.perform (load file) = ((ToolSettings.load h.files h.env file).mapError .config,
      { h with loaded := (ToolSettings.load h.files h.env file).toOption.or h.loaded }) := by
  unfold load
  rw [perform_get_bind]
  cases ToolSettings.load h.files h.env file <;> rfl

theorem perform_makeDirs (hdirs : h.files.tryDirs p = .ok t) :
    h.perform (makeDirs p) = (.ok (), { h with files := t }) := by
  have hlift : h.perform (makeDirs p) = perform { h with files := Node.left (h.files.tryDirs p) }
    (lift (fun stop => .file stop.error) ((h.files.tryDirs p).map fun _ => ())) := rfl
  rw [hlift, perform_lift, hdirs]
  rfl

theorem perform_write {text : String} (hwrite : h.files.write p { bytes := utf8 text } = .ok t) :
    h.perform (write p text) = (.ok (), { h with files := t }) := by
  unfold write
  rw [perform_get_bind, hwrite]
  rfl

def CanKeep (h : SettingsHolder) (file : String) : Prop :=
  ∃ t t', h.files.tryDirs (ofString file).parent = .ok t ∧
    t.write (ofString file) { bytes := utf8 "" } = .ok t'

theorem perform_save (hs : (h.perform current).1 = .ok s) (hshort : s.toValue.isTooLong = false)
    (hkeep : h.CanKeep file) : ∃ h' executable, h.perform (save file) = (.ok (), h') ∧
      h'.files.find (ofString file) = .ok (.file { bytes := utf8 s.fileText, executable }) := by
  obtain ⟨t, t', hdirs, hopen⟩ := hkeep
  obtain ⟨t'', hwrite⟩ := Node.exists_write hopen { bytes := utf8 s.fileText }
  obtain ⟨executable, hfind⟩ := Node.find_write hwrite
  refine ⟨{ h with files := t'', loaded := some s }, executable, ?_, hfind⟩
  refine (perform_bind (perform_makeDirs hdirs) _).trans ?_
  refine (perform_bind (perform_write hopen) _).trans ?_
  refine (perform_bind (perform_current_files hs t') _).trans ?_
  rw [hshort]
  exact perform_write hwrite

/-- Loading settings fails and leaves those in use, or takes those of the file over the defaults and the
    environment over both into use; what a variable decides does not depend on the file. Settings can be
    saved where the file can be opened, and are loaded from there as they were, where no variable is set. -/
theorem settings_loaded_whole (h : SettingsHolder) (file : String) :
    (∀ r h', h.perform (load file) = (r, h') →
      (∃ e, r = .error e) ∧ (h'.perform current).1 = (h.perform current).1 ∨
      ∃ (s : ToolSettings) (d : Data), r = .ok s ∧ (h'.perform current).1 = .ok s ∧
        readConfigFile h.files file "settings" = .ok d ∧ s.Overlaid (ToolSettings.fileEntries d) h.env ∧
        ∀ (other : SettingsHolder) (file' : String) (s' : ToolSettings), other.env = h.env →
          (other.perform (load file')).1 = .ok s' → s.AgreeOn h.env s') ∧
    (∀ s : ToolSettings, (h.perform current).1 = .ok s → s.WellTyped → s.ReadsBack → h.CanKeep file →
      ∃ h', h.perform (save file) = (.ok (), h') ∧ ∀ other : SettingsHolder, other.files = h'.files →
        (∀ name ∈ ToolSettings.variableNames, other.env.get? name = none) →
          (other.perform (load file)).1 = .ok s ∧ ((other.perform (load file)).2.perform current).1 = .ok s) := by
  constructor
  · intro r h' hload
    rw [perform_load] at hload
    obtain ⟨hr, rfl⟩ := Prod.mk.inj hload
    cases hs : ToolSettings.load h.files h.env file with
    | error e =>
      rw [hs] at hr
      exact .inl ⟨⟨.config e, hr.symm⟩, by rw [perform_current, perform_current]; rfl⟩
    | ok s =>
      rw [hs] at hr
      obtain ⟨d, hread, hover⟩ := ToolSettings.overlaid_of_load hs
      refine .inr ⟨s, d, hr.symm, by rw [perform_current]; rfl, hread, hover, fun other file' s' henv hload' => ?_⟩
      rw [perform_load, henv] at hload'
      obtain ⟨d', -, hover'⟩ := ToolSettings.overlaid_of_load (mapError_eq_ok.mp hload')
      exact hover.agreeOn hover'
  · intro s hs htyped hback hkeep
    obtain ⟨h', executable, hsave, hfind⟩ := perform_save hs hback.1 hkeep
    refine ⟨h', hsave, fun other hfiles henv => ?_⟩
    have hload : ToolSettings.load other.files other.env file = .ok s := by
      rw [hfiles]
      exact ToolSettings.load_of_find htyped hback henv hfind
    rw [perform_load, hload, perform_current]
    exact ⟨rfl, rfl⟩

def storedHolder : SettingsHolder where
  env := [("SOLSEC_MODE", "")]
  files := .empty
  loaded := some storedSettings

theorem settings_loaded_whole_stored :
    storedSettings.WellTyped ∧ storedSettings.ReadsBack ∧ storedHolder.CanKeep "conf/s.yml" ∧
      (∃ h', storedHolder.perform (save "conf/s.yml") = (.ok (), h') ∧
        (SettingsHolder.perform { env := storedHolder.env, files := h'.files } (load "conf/s.yml")).1 =
          .ok storedSettings) ∧
      (∃ e, (storedHolder.perform (load "t.yml")).1 = .error e) ∧
      ((storedHolder.perform (load "t.yml")).2.perform current).1 = .ok storedSettings := by
  have hkeep : storedHolder.CanKeep "conf/s.yml" := ⟨_, _, rfl, rfl⟩
  have henv : ∀ name ∈ ToolSettings.variableNames, storedHolder.env.get? name = none := by decide
  refine ⟨wellTyped_storedSettings, readsBack_storedSettings, hkeep, ?_, ?_⟩
  · obtain ⟨h', hsave, hload⟩ := (settings_loaded_whole storedHolder "conf/s.yml").2 storedSettings rfl
      wellTyped_storedSettings readsBack_storedSettings hkeep
    exact ⟨h', hsave, (hload { env := storedHolder.env, files := h'.files } rfl henv).1⟩
  · obtain hfailed | ⟨s, d, hr, -⟩ := (settings_loaded_whole storedHolder "t.yml").1 _ _ rfl
    · exact hfailed
    · cases hr

end SettingsHolder

end ContractAudit

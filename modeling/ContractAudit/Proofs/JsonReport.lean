import ContractAudit.Proofs.JsonReading
import ContractAudit.Proofs.Sorting
import ContractAudit.Report.JsonDocument

/-! # The JSON report reads back -/

namespace ContractAudit
open List Entries Severity Value

/-- What is reached from a value through the keys, one after the other. -/
def Value.follow? : Value → List String → Option Value
  | v, [] => some v
  | .map m, k :: path => (get m k).bind (follow? · path)
  | _, _ :: _ => none

def tally (counts : List (String × Nat)) : Nat := counts.foldr (fun e n => e.2 + n) 0

namespace Json
variable {fields : List (String × Value)} {m : Entries}

/-! ### Records -/

theorem isRecord_fields (hnames : (fields.map (·.1)).Nodup) : IsRecord (fields.map namedEntry) where
  strings e he := by
    obtain ⟨e', -, rfl⟩ := mem_map.mp he
    exact ⟨_, rfl⟩
  distinct := by
    have hkeys := hnames.map fun _ _ => Scalar.str.inj
    rw [map_map] at hkeys ⊢
    exact hkeys

theorem record_eq (fields : List (String × Value)) : record fields = .map (fields.map namedEntry) := rfl

theorem nodup_keyText (h : IsRecord m) : (m.map fun e => keyText e.1).Nodup := by
  have hkeys : (m.map fun e => keyText e.1).map Scalar.str = m.map (·.1) := by
    rw [map_map]
    refine map_congr_left fun e he => ?_
    obtain ⟨k, hk⟩ := h.strings e he
    simp only [Function.comp_apply, hk, keyText]
  exact List.Nodup.of_map Scalar.str (hkeys ▸ h.distinct)

/-- The property holds of texts, of integers and of nothing, and of lists and records of what has it. -/
structure Hereditary (P : Value → Prop) : Prop where
  str : ∀ s, P (.str s)
  int : ∀ n, P (.int n)
  null : P .null
  list : ∀ {vs}, (∀ v ∈ vs, P v) → P (.list vs)
  record : ∀ {fields}, (fields.map (·.1)).Nodup → (∀ e ∈ fields, P e.2) → P (.record fields)

theorem hereditary_writable : Hereditary Writable where
  str _ := .scalar (by rintro x ⟨⟩)
  int _ := .scalar (by rintro x ⟨⟩)
  null := .scalar (by rintro x ⟨⟩)
  list := .list
  record hnames h := .map (nodup_keyText (isRecord_fields hnames)) (forall_mem_map.mpr h)

theorem hereditary_isData : Hereditary IsData where
  str _ := .scalar rfl (by rintro x ⟨⟩)
  int _ := .scalar rfl (by rintro x ⟨⟩)
  null := .scalar rfl (by rintro x ⟨⟩)
  list := .list
  record hnames h := .map (isRecord_fields hnames) (forall_mem_map.mpr h)

theorem isText_namedEntry (fields : List (String × Value)) : ∀ e ∈ fields.map namedEntry, isText e.1 = true :=
  forall_mem_map.mpr fun _ _ => rfl

theorem hereditary_refuses (f : Format) : Hereditary fun v => refuses f false v = false where
  str _ := rfl
  int _ := rfl
  null := rfl
  list := refuses_list.mpr
  record _ h := (refuses_texts (isText_namedEntry _)).mpr (forall_mem_map.mpr h)

theorem decoded_strings (items : List String) : decoded (.strings items) = .strings items := by
  rw [strings, decoded, decodedItems_eq_map, map_map]
  rfl

theorem follow?_map (h : IsRecord m) (k : String) (path : List String) :
    (decoded (.map m)).follow? (k :: path) = (m.get k).bind fun v => (decoded v).follow? path := by
  have hget : get ((m.mergeSort keyLe).map decodedEntry) k = (m.get k).map decoded := by
    ext w
    rw [get_eq_some_iff (isRecord_decoded (nodup_keyText h)), Option.map_eq_some_iff, mem_map]
    constructor
    · rintro ⟨⟨key, v⟩, he, hw⟩
      obtain ⟨a, rfl⟩ := h.strings _ (mem_mergeSort.mp he)
      cases hw
      exact ⟨v, (get_eq_some_iff h).mpr (mem_mergeSort.mp he), rfl⟩
    · rintro ⟨v, hv, rfl⟩
      exact ⟨(.str k, v), mem_mergeSort.mpr ((get_eq_some_iff h).mp hv), rfl⟩
  rw [decoded_map, follow?, hget, Option.bind_map]
  rfl

theorem follow?_record (hnames : (fields.map (·.1)).Nodup) {k : String} {v : Value}
    (h : (k, v) ∈ fields) (path : List String) :
    (decoded (.record fields)).follow? (k :: path) = (decoded v).follow? path := by
  have hrecord := isRecord_fields hnames
  have hget := (get_eq_some_iff hrecord).mpr (mem_map.mpr ⟨(k, v), h, rfl⟩)
  rw [record_eq, follow?_map hrecord, hget]
  rfl

end Json

/-! ### Counts -/

section Counts
variable {κ : Type} [BEq κ] [LawfulBEq κ] (key : Finding → κ) (l : List Finding)

theorem countP_contains_cons {k : κ} {ids : List κ} (hk : k ∉ ids) : l.countP (fun f => (k :: ids).contains (key f)) =
      l.countP (key · == k) + l.countP (fun f => ids.contains (key f)) := by
  induction l with
  | nil => rfl
  | cons f l ih =>
    rw [countP_cons, countP_cons, countP_cons, ih, contains_cons]
    by_cases hf : key f = k
    · have hnot : ids.contains (key f) = false := by simpa [hf] using hk
      simp only [beq_iff_eq.mpr hf, hnot, Bool.true_or, Bool.false_eq_true, if_true, if_false]
      omega
    · simp only [beq_eq_false_iff_ne.mpr hf, Bool.false_or, Bool.false_eq_true, if_false]
      omega

/-- Counts by distinct keys that cover a list sum up to its length. -/
theorem tally_countP (name : κ → String) {ids : List κ} (hids : ids.Nodup) (hl : ∀ f ∈ l, key f ∈ ids) :
    tally (ids.map fun k => (name k, l.countP (key · == k))) = l.length := by
  have hcount {ids : List κ} (hids : ids.Nodup) :
      tally (ids.map fun k => (name k, l.countP (key · == k))) = l.countP fun f => ids.contains (key f) := by
    induction ids with
    | nil => simp [tally]
    | cons k ids ih =>
      obtain ⟨hk, hids⟩ := nodup_cons.mp hids
      rw [map_cons, countP_contains_cons key l hk, ← ih hids]
      rfl
  rw [hcount hids, countP_eq_length]
  intro f hf
  exact contains_iff_mem.mpr (hl f hf)

end Counts

namespace Report
variable {counts : List (String × Nat)}

theorem mem_descending (s : Severity) : s ∈ descending := by
  cases s <;> decide

theorem nodup_descending : descending.Nodup := by decide

theorem nodup_ruleIds (r : Report) : r.ruleIds.Nodup := (mergeSort_perm _ _).nodup_iff.mpr (nodup_eraseDups _)

theorem mem_ruleIds (r : Report) {f : Finding} (hf : f ∈ r.findings) : f.ruleId ∈ r.ruleIds :=
  mem_mergeSort.mpr (mem_eraseDups.mpr (mem_map_of_mem hf))

theorem tally_byRule (r : Report) : tally r.byRule = r.findings.length :=
  tally_countP Finding.ruleId r.findings id (nodup_ruleIds r) fun _ hf => mem_ruleIds r hf

theorem tally_severities (r : Report) : tally (descending.map fun s => (s.name, r.count s)) = r.findings.length :=
  tally_countP Finding.severity r.findings name nodup_descending fun f _ => mem_descending f.severity

theorem names_summary (r : Report) : (r.summary.map (·.1)).Nodup := by
  have : r.summary.map (·.1) = descending.map name ++ ["total"] := by
    rw [summary, map_append, map_map]
    rfl
  rw [this]
  decide

theorem map_byRule (r : Report) : r.byRule.map (·.1) = r.ruleIds := by
  rw [byRule, map_map]
  exact map_id _

theorem sorted_byRule (r : Report) : (r.byRule.map (·.1)).Pairwise (· ≤ ·) := by
  rw [map_byRule]
  have hsorted := pairwise_mergeSort_eraseDups isOrder_text (r.findings.map (·.ruleId))
  exact hsorted.imp fun h => of_decide_eq_true h.1

theorem follow?_countsValue (h : (counts.map (·.1)).Nodup) {k : String} {n : Nat}
    (hmem : (k, n) ∈ counts) : (Json.decoded (countsValue counts)).follow? [k] = some (.int n) := by
  refine (Json.follow?_record ?_ (mem_map.mpr ⟨(k, n), hmem, rfl⟩) []).trans rfl
  rw [map_map]
  exact h

theorem decoded_countsValue (h : (counts.map (·.1)).Pairwise (· ≤ ·)) :
    Json.decoded (countsValue counts) = countsValue counts := by
  refine Json.decoded_record ?_ ?_
  · rw [map_map]
    exact h
  · rw [forall_mem_map]
    exact fun _ _ => rfl

/-- The report can be read back: its metadata have distinct string keys, and in its metadata and in the
    evidence of its findings numbers are finite and no two keys of a map have one text. -/
structure Writable (r : Report) : Prop where
  keys : IsRecord r.metadata
  metadata : ∀ e ∈ r.metadata, Json.Writable e.2
  evidence : ∀ f ∈ r.findings, ∀ v ∈ f.evidence, Json.Writable v.value

end Report

/-! ### The parts of the document -/

def JsonDocument.idsOf (r : Report) (s : Severity) : List String := (r.findings.filter (·.severity == s)).map (·.id)

theorem JsonDocument.names_bySeverity (r : Report) :
    ((descending.map fun s => (s.name, strings (idsOf r s))).map (·.1)).Nodup := by
  rw [map_map]
  exact (show (descending.map name).Nodup by decide)

namespace Json.Hereditary
open JsonDocument
variable {o : Options} {r : Report} {P : Value → Prop} (h : Hereditary P)
include h

theorem ofString? (s : Option String) : P (.ofString? s) := by
  cases s with
  | none => exact h.null
  | some s => exact h.str s

theorem ofInt? (n : Option Int) : P (.ofInt? n) := by
  cases n with
  | none => exact h.null
  | some n => exact h.int n

theorem countsValue {counts : List (String × Nat)} (hnames : (counts.map (·.1)).Nodup) :
    P (Report.countsValue counts) := by
  refine h.record ?_ (forall_mem_map.mpr fun _ _ => h.int _)
  rwa [map_map]

theorem location (l : Location) : P l.toValue :=
  h.record (by simp) (by simp [h.str, h.ofInt?, h.ofString?])

theorem diagnostic (d : Diagnostic) : P d.toValue := h.record (by simp) (by simp [h.str])

theorem findingValue {f : Finding} (hevidence : ∀ v ∈ f.evidence, P v.value) : P (findingValue o f) := by
  obtain ⟨fields, hvalue, hnames, hfields⟩ :
      ∃ fields, f.toValue = .record fields ∧ (fields.map (·.1)).Nodup ∧ ∀ e ∈ fields, P e.2 := by
    refine ⟨_, rfl, by simp, ?_⟩
    simp [h.str, h.ofString?, h.location, h.list (forall_mem_map.mpr hevidence),
      h.list (forall_mem_map.mpr fun l (_ : l ∈ f.occurrences) => h.location l)]
  rw [JsonDocument.findingValue, hvalue, record_eq]
  simp only
  split
  · exact h.record hnames hfields
  · rw [filter_map]
    exact h.record (hnames.sublist (filter_sublist.map _)) fun e he => hfields e (mem_of_mem_filter he)

theorem toValue (hmetadata : P (.map (stampedMetadata r)))
    (hevidence : ∀ f ∈ r.findings, ∀ v ∈ f.evidence, P v.value) : P (toValue o r) := by
  have hfindings := h.list (forall_mem_map.mpr fun f hf => h.findingValue (o := o) (hevidence f hf))
  have hdiagnostics := h.list (forall_mem_map.mpr fun d (_ : d ∈ r.diagnostics) => h.diagnostic d)
  have hids : P (bySeverity r) :=
    h.record (names_bySeverity r) (forall_mem_map.mpr fun _ _ => h.list (forall_mem_map.mpr fun _ _ => h.str _))
  have hsummary := h.countsValue r.names_summary
  have hrules := h.countsValue (r.map_byRule ▸ r.nodup_ruleIds)
  exact h.record (by simp) (by simp [hmetadata, hsummary, hrules, hfindings, hdiagnostics, hids])

end Json.Hereditary

namespace JsonDocument
open Json
variable {o : Options} {r : Report}

def stamp : Entries := [(.str "tool", .str toolName), (.str "version", .str toolVersion)]

theorem isRecord_stamp : IsRecord stamp where
  strings e he := by
    simp only [stamp, mem_cons, not_mem_nil, or_false] at he
    rcases he with rfl | rfl <;> exact ⟨_, rfl⟩
  distinct := by decide

theorem isRecord_sortedMetadata (h : r.Writable) : IsRecord r.sortedMetadata :=
  h.keys.perm (mergeSort_perm _ _)

theorem isRecord_stampedMetadata (h : r.Writable) : IsRecord (stampedMetadata r) :=
  isRecord_stamp.overlay (isRecord_sortedMetadata h)

/-- Metadata of the report come before the stamp of the tool. -/
theorem get_stampedMetadata (h : r.Writable) (k : String) :
    (stampedMetadata r).get k = (r.metadata.get k).or (stamp.get k) := by
  rw [← get_perm h.keys (mergeSort_perm _ _)]
  exact get_overlay isRecord_stamp (isRecord_sortedMetadata h) k

theorem mem_stampedMetadata (h : r.Writable) {e : Scalar × Value} (he : e ∈ stampedMetadata r) :
    e ∈ r.metadata ∨ e ∈ stamp := by
  have hrecord := isRecord_stampedMetadata h
  obtain ⟨key, v⟩ := e
  obtain ⟨k, rfl⟩ := hrecord.strings _ he
  have hget := (get_eq_some_iff hrecord).mpr he
  rw [get_stampedMetadata h, Option.or_eq_some_iff, get_eq_some_iff h.keys, get_eq_some_iff isRecord_stamp] at hget
  exact hget.imp_right (·.2)

theorem writable_toValue (h : r.Writable) : Writable (toValue o r) := by
  have hstamp : ∀ e ∈ stamp, Writable e.2 := by simp [stamp, hereditary_writable.str]
  refine hereditary_writable.toValue (.map (nodup_keyText (isRecord_stampedMetadata h)) fun e he => ?_) h.evidence
  exact (mem_stampedMetadata h he).elim (h.metadata e) (hstamp e)

/-- The document is the value of the report with its metadata stamped and the ids by severity added. -/
theorem toValue_eq (hevidence : o.evidence = true) : ∃ m : Entries, r.toValue = .map m ∧
      toValue o r = .map ((m.set "metadata" (.map (stampedMetadata r))).set "by_severity" (bySeverity r)) := by
  have hfinding : findingValue o = Finding.toValue := by
    funext f
    simp only [findingValue, Finding.toValue, record, hevidence, if_true]
  refine ⟨_, rfl, ?_⟩
  rw [toValue, hfinding]
  simp [record, Entries.set, Entries.insert]

/-! ### What is read -/

theorem forall₂_readAs {α : Type} {g : α → Value} {l : List α} (h : ∀ a ∈ l, Writable (g a)) :
    Forall₂ (fun a v => ReadAs (g a) v) l (l.map fun a => decoded (g a)) := by
  rw [forall₂_map_right_iff, forall₂_same]
  exact fun a ha => readAs_decoded (h a ha)

structure Describes (o : Options) (r : Report) (document : Value) : Prop where
  whole : ReadAs (toValue o r) document
  /-- With the evidence, that is the report with its metadata stamped and with the ids by severity. -/
  report : o.evidence = true → ∃ m : Entries, r.toValue = .map m ∧
    ReadAs (.map ((m.set "metadata" (.map (stampedMetadata r))).set "by_severity" (bySeverity r))) document
  /-- A key has the value of the metadata if there is one, and else that of the stamp. -/
  metadata : ∀ k, document.follow? ["metadata", k] = ((r.metadata.get k).or (stamp.get k)).map decoded
  findings : ∃ items, document.follow? ["findings"] = some (.list items) ∧
    Forall₂ (fun f v => ReadAs (findingValue o f) v) r.findings items
  diagnostics : ∃ items, document.follow? ["diagnostics"] = some (.list items) ∧
    Forall₂ (fun d v => ReadAs (Diagnostic.toValue d) v) r.diagnostics items
  bySeverity : ∀ s, document.follow? ["by_severity", s.name] = some (.strings (idsOf r s))
  summary : ∀ s, document.follow? ["summary", s.name] = some (.int (idsOf r s).length)
  /-- The counts by severity and those by rule have one sum. -/
  total : ∃ (total : Nat) (counts : List (String × Nat)),
    document.follow? ["summary", "total"] = some (.int total) ∧
    document.follow? ["by_rule"] = some (Report.countsValue counts) ∧
    total = tally counts ∧ total = tally (descending.map fun s => (s.name, (idsOf r s).length))

theorem length_idsOf (r : Report) (s : Severity) : (idsOf r s).length = r.count s := by
  rw [idsOf, length_map, ← countP_eq_length_filter]
  rfl

theorem follow?_bySeverity (r : Report) (s : Severity) :
    (decoded (bySeverity r)).follow? [s.name] = some (.strings (idsOf r s)) := by
  have hmem := mem_map_of_mem (f := fun s => (s.name, strings (idsOf r s))) (Report.mem_descending s)
  rw [bySeverity]
  refine (follow?_record (names_bySeverity r) hmem []).trans ?_
  rw [decoded_strings]
  rfl

theorem describes_decoded (h : r.Writable) : Describes o r (decoded (toValue o r)) where
  whole := readAs_decoded (writable_toValue h)
  report hevidence := by
    obtain ⟨m, hm, hdocument⟩ := toValue_eq (r := r) hevidence
    exact ⟨m, hm, hdocument ▸ readAs_decoded (writable_toValue h)⟩
  metadata k := by
    have hfield : (decoded (toValue o r)).follow? ["metadata", k] = (decoded (.map (stampedMetadata r))).follow? [k] :=
      follow?_record (by simp) (by simp) [k]
    rw [hfield, follow?_map (isRecord_stampedMetadata h), get_stampedMetadata h, Option.map_eq_bind]
    rfl
  findings := by
    refine ⟨_, (follow?_record (by simp) (v := .list (r.findings.map (findingValue o))) (by simp) []).trans ?_,
      forall₂_readAs fun f hf => hereditary_writable.findingValue (h.evidence f hf)⟩
    rw [decoded, decodedItems_eq_map, map_map]
    rfl
  diagnostics := by
    refine ⟨_, (follow?_record (by simp) (v := .list (r.diagnostics.map Diagnostic.toValue)) (by simp) []).trans ?_,
      forall₂_readAs fun d _ => hereditary_writable.diagnostic d⟩
    rw [decoded, decodedItems_eq_map, map_map]
    rfl
  bySeverity s := (follow?_record (by simp) (v := JsonDocument.bySeverity r) (by simp) [s.name]).trans
    (follow?_bySeverity r s)
  summary s := by
    refine (follow?_record (by simp) (v := Report.countsValue r.summary) (by simp) [s.name]).trans ?_
    rw [length_idsOf]
    refine Report.follow?_countsValue r.names_summary ?_
    exact mem_append_left _ (mem_map.mpr ⟨s, Report.mem_descending s, rfl⟩)
  total := by
    refine ⟨r.findings.length, r.byRule, ?_, ?_, r.tally_byRule.symm, ?_⟩
    · refine (follow?_record (by simp) (v := Report.countsValue r.summary) (by simp) ["total"]).trans ?_
      exact Report.follow?_countsValue r.names_summary (mem_append_right _ mem_cons_self)
    · refine (follow?_record (by simp) (v := Report.countsValue r.byRule) (by simp) []).trans ?_
      rw [Report.decoded_countsValue r.sorted_byRule]
      rfl
    · simp only [length_idsOf]
      exact r.tally_severities.symm

theorem parse?_render_toValue (h : r.Writable) (o : Options) :
    parse? (render o r) = some (decoded (toValue o r)) := by
  have hw : Writable (toValue o r) := writable_toValue h
  rw [render, Options.format]
  cases o.pretty with
  | true => exact parse?_render standard_pretty hw (by simp [Spaces, isSpace])
  | false => exact parse?_render standard_sortedLine hw spaces_nil

/-! ### What is written -/

theorem refuses_stampedMetadata (h : r.Writable) {f : Format} :
    refuses f false (.map (stampedMetadata r)) = false ↔ ∀ e ∈ r.metadata, refuses f false e.2 = false := by
  have hstamp : ∀ e ∈ stamp, refuses f false e.2 = false := by simp [stamp, (hereditary_refuses f).str]
  have hrecord := isRecord_stampedMetadata h
  rw [refuses_texts (isText_of_isRecord hrecord)]
  constructor
  · rintro hall ⟨key, v⟩ he
    obtain ⟨k, rfl⟩ := h.keys.strings _ he
    refine hall (.str k, v) ((get_eq_some_iff hrecord).mp ?_)
    rw [get_stampedMetadata h, (get_eq_some_iff h.keys).mpr he, Option.some_or]
  · exact fun hall e he => (mem_stampedMetadata h he).elim (hall e) (hstamp e)

/-- Only the metadata of a report can hold what is not written. -/
theorem refuses_toValue (h : r.Writable) {f : Format} :
    refuses f false (toValue o r) = false ↔ ∀ e ∈ r.metadata, refuses f false e.2 = false := by
  rw [← refuses_stampedMetadata h]
  refine ⟨fun hall => ?_, fun hmetadata => ?_⟩
  · rw [toValue, record_eq, refuses_texts (isText_namedEntry _)] at hall
    exact hall _ (.head _)
  · exact (hereditary_refuses f).toValue hmetadata fun _ _ v _ => refuses_of_decoded v.data

def sample : Report where
  findings :=
    [{ id := "f1"
       ruleId := "R1"
       severity := .high
       location := ⟨"a.rs", some ⟨3, 5⟩, none⟩
       message := "\"é\" 😀"
       evidence := [.of (.float 0.1), .of (.tuple [.null, .int (-7)])] }]
  diagnostics := [⟨"rule_failure", "R1", "a.rs", "line\nbreak"⟩]
  metadata := [(.str "elapsed", .float 1e-7), (.str "tool", .str "other")]

theorem writable_sample : sample.Writable where
  keys := by
    refine ⟨?_, by decide⟩
    simp [sample]
  metadata := by
    simp only [sample, forall_mem_cons, not_mem_nil, false_implies, implies_true, and_true]
    refine ⟨.scalar ?_, hereditary_writable.str _⟩
    rintro x ⟨⟩
    decide +kernel
  evidence := by
    simp only [sample, forall_mem_cons, not_mem_nil, false_implies, implies_true, and_true]
    refine ⟨.scalar ?_, .list ?_⟩
    · rintro x ⟨⟩
      decide +kernel
    · simpa [decodedItems, decoded, decodedScalar] using ⟨hereditary_writable.null, hereditary_writable.int (-7)⟩

end JsonDocument

end ContractAudit

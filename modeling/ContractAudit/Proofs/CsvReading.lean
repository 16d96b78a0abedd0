import ContractAudit.Proofs.JsonText
import ContractAudit.Report.Csv

/-! # CSV reports read back

A comma ends a field, a newline or a carriage return ends a record, and neither does inside of quotation
marks. -/

namespace ContractAudit.Csv
open List
variable {field : List Char} {fields : List (List Char)}
variable {place : Place} {c : Char} {s : List Char} {done : List (List Char)}

inductive Place where
  | start
  | plain
  | quoted
  /-- After a quotation mark inside of quotes. -/
  | closed

def endsRecord (c : Char) : Bool := c == '\n' || c == '\r'

/-- The records of the rest of a text, given the place in the field that is read, the field so far and the
    fields of the record before it. A line with nothing on it is no record. -/
def readFrom : Place → List Char → List (List Char) → List Char → List (List (List Char))
  | place, field, fields, [] => match place with
    | .start => if fields.isEmpty then [] else [fields ++ [field]]
    | _ => [fields ++ [field]]
  | place, field, fields, c :: s => match place with
    | .quoted => if c == '"' then readFrom .closed field fields s else readFrom .quoted (field ++ [c]) fields s
    | .start =>
      if c == '"' then readFrom .quoted field fields s
      else if c == ',' then readFrom .start [] (fields ++ [field]) s
      else if endsRecord c then
        if fields.isEmpty then readFrom .start [] [] s else (fields ++ [field]) :: readFrom .start [] [] s
      else readFrom .plain (field ++ [c]) fields s
    | .plain =>
      if c == ',' then readFrom .start [] (fields ++ [field]) s
      else if endsRecord c then (fields ++ [field]) :: readFrom .start [] [] s
      else readFrom .plain (field ++ [c]) fields s
    | .closed =>
      if c == '"' then readFrom .quoted (field ++ [c]) fields s
      else if c == ',' then readFrom .start [] (fields ++ [field]) s
      else if endsRecord c then (fields ++ [field]) :: readFrom .start [] [] s
      else readFrom .plain (field ++ [c]) fields s

def read (text : String) : List (List String) :=
  (readFrom .start [] [] text.toList).map fun fields => fields.map String.ofList

def IsPlain (c : Char) : Prop := needsQuotes c = false ∧ c ≠ '\r'

/-- The field reads back: a carriage return in it is quoted because of another character. -/
def Readable (field : List Char) : Prop := '\r' ∈ field → field.any needsQuotes = true

def Place.Ends (place : Place) (field : List Char) : Prop :=
  place = .plain ∨ place = .closed ∨ place = .start ∧ field = []

theorem readFrom_comma (h : place.Ends field) (fields : List (List Char))
    (s : List Char) : readFrom place field fields (',' :: s) = readFrom .start [] (fields ++ [field]) s := by
  rcases h with rfl | rfl | ⟨rfl, rfl⟩ <;> simp [readFrom]

theorem readFrom_end (h : place.Ends field) (hc : endsRecord c = true) (hfields : fields ≠ []) (s : List Char) :
    readFrom place field fields (c :: s) = (fields ++ [field]) :: readFrom .start [] [] s := by
  have hne : c ≠ '"' ∧ c ≠ ',' := by
    constructor <;> rintro rfl <;> cases hc
  rcases h with rfl | rfl | ⟨rfl, rfl⟩ <;> simp [readFrom, hne, hc, hfields]

theorem IsPlain.ne (h : IsPlain c) : c ≠ '"' ∧ c ≠ ',' ∧ endsRecord c = false := by
  obtain ⟨hq, hr⟩ := h
  simp only [needsQuotes, Bool.or_eq_false_iff, beq_eq_false_iff_ne] at hq
  simp [endsRecord, hq, hr]

theorem readFrom_plain (h : ∀ c ∈ s, IsPlain c) (field : List Char) (fields : List (List Char))
    (rest : List Char) : readFrom .plain field fields (s ++ rest) = readFrom .plain (field ++ s) fields rest := by
  induction s generalizing field with
  | nil => simp
  | cons c s ih =>
    obtain ⟨-, hcomma, hend⟩ := (h c (mem_cons_self ..)).ne
    rw [cons_append, readFrom]
    simp only [beq_iff_eq, hcomma, hend, if_false, Bool.false_eq_true]
    rw [ih fun c hc => h c (mem_cons_of_mem _ hc), append_assoc, singleton_append]

theorem exists_readFrom_plain (h : ∀ c ∈ s, IsPlain c) (fields : List (List Char)) (rest : List Char) :
    ∃ place : Place, place.Ends s ∧ readFrom .start [] fields (s ++ rest) = readFrom place s fields rest := by
  cases s with
  | nil => exact ⟨.start, .inr (.inr ⟨rfl, rfl⟩), rfl⟩
  | cons c s =>
    obtain ⟨hquote, hcomma, hend⟩ := (h c (mem_cons_self ..)).ne
    refine ⟨.plain, .inl rfl, ?_⟩
    rw [cons_append, readFrom]
    simp only [beq_iff_eq, hquote, hcomma, hend, if_false, Bool.false_eq_true]
    exact readFrom_plain (fun c hc => h c (mem_cons_of_mem _ hc)) _ fields rest

theorem readFrom_doubled (s field : List Char) (fields : List (List Char)) (rest : List Char) :
    readFrom .quoted field fields (s.flatMap (fun c => if c == '"' then ['"', '"'] else [c]) ++ rest) =
      readFrom .quoted (field ++ s) fields rest := by
  induction s generalizing field with
  | nil => simp
  | cons c s ih =>
    rw [flatMap_cons, append_assoc, append_cons field c s, ← ih (field ++ [c])]
    by_cases hc : c = '"'
    · simp [readFrom, hc]
    · simp [readFrom, hc]

/-- A field that reads back is read whole, up to a place where it may end. -/
theorem exists_readFrom_encodeField (h : Readable field) (fields : List (List Char))
    (rest : List Char) : ∃ place : Place, place.Ends field ∧
      readFrom .start [] fields (encodeField field ++ rest) = readFrom place field fields rest := by
  unfold encodeField
  split
  · refine ⟨.closed, .inr (.inl rfl), ?_⟩
    simp only [cons_append, append_assoc]
    rw [readFrom]
    simp only [beq_self_eq_true, if_true]
    rw [readFrom_doubled, nil_append]
    simp [readFrom]
  next hplain =>
    refine exists_readFrom_plain (fun c hc => ⟨?_, ?_⟩) fields rest
    · exact Bool.eq_false_iff.mpr fun hq => hplain (any_eq_true.mpr ⟨c, hc, hq⟩)
    · rintro rfl
      exact hplain (h hc)

/-- A field that does not read back ends the record at its first carriage return. -/
theorem exists_readFrom_of_not_readable (h : ¬Readable field)
    (hfields : fields ≠ []) (rest : List Char) : ∃ cut more, '\r' ∉ cut ∧
      readFrom .start [] fields (encodeField field ++ rest) = (fields ++ [cut]) :: more := by
  obtain ⟨hmem, hplain⟩ := Classical.not_imp.mp h
  obtain ⟨cut, tail, rfl, hcut⟩ := eq_append_cons_of_mem hmem
  have hall : ∀ c ∈ cut, IsPlain c := by
    intro c hc
    refine ⟨?_, fun e => hcut (e ▸ hc)⟩
    exact Bool.eq_false_iff.mpr fun hq =>
      hplain (any_eq_true.mpr ⟨c, mem_append_left _ hc, hq⟩)
  obtain ⟨place, hends, hread⟩ := exists_readFrom_plain hall fields ('\r' :: tail ++ rest)
  refine ⟨cut, readFrom .start [] [] (tail ++ rest), hcut, ?_⟩
  rw [encodeField, if_neg hplain, append_assoc, hread, cons_append, readFrom_end hends rfl hfields]

theorem encodeRecord_singleton (field : List Char) : encodeRecord [field] = encodeField field ++ ['\n'] := by
  simp [encodeRecord, List.intercalate]

theorem encodeRecord_cons (field next : List Char) (fields : List (List Char)) :
    encodeRecord (field :: next :: fields) = encodeField field ++ ',' :: encodeRecord (next :: fields) := by
  simp [encodeRecord, List.intercalate]

theorem readFrom_field (h : Readable field) (done : List (List Char)) (rest : List Char) :
    readFrom .start [] done (encodeField field ++ ',' :: rest) = readFrom .start [] (done ++ [field]) rest := by
  obtain ⟨place, hends, hread⟩ := exists_readFrom_encodeField h done (',' :: rest)
  rw [hread, readFrom_comma hends]

theorem readFrom_fields (hdone : done ≠ []) (hne : fields ≠ []) (h : ∀ f ∈ fields, Readable f) (rest : List Char) :
    readFrom .start [] done (encodeRecord fields ++ rest) = (done ++ fields) :: readFrom .start [] [] rest := by
  induction fields generalizing done with
  | nil => exact absurd rfl hne
  | cons field fields ih =>
    have hfield := h field (mem_cons_self ..)
    cases fields with
    | nil =>
      obtain ⟨place, hends, hread⟩ := exists_readFrom_encodeField hfield done ('\n' :: rest)
      rw [encodeRecord_singleton, append_assoc, singleton_append, hread, readFrom_end hends rfl hdone]
    | cons next fields =>
      rw [encodeRecord_cons, append_assoc, cons_append, readFrom_field hfield,
        ih (by simp) (by simp) fun f hf => h f (mem_cons_of_mem _ hf), append_assoc, singleton_append]

theorem exists_readFrom_fields (hdone : done ≠ [])
    (h : ¬∀ f ∈ fields, Readable f) (rest : List Char) : ∃ row more, row ≠ done ++ fields ∧
      readFrom .start [] done (encodeRecord fields ++ rest) = row :: more := by
  induction fields generalizing done with
  | nil => exact absurd (fun f hf => absurd hf not_mem_nil) h
  | cons field fields ih =>
    by_cases hfield : Readable field
    · cases fields with
      | nil => exact absurd (by simpa using hfield) h
      | cons next fields =>
        have hrest : ¬∀ f ∈ next :: fields, Readable f := fun hall => h (forall_mem_cons.mpr ⟨hfield, hall⟩)
        have hdone' : done ++ [field] ≠ [] := by simp
        obtain ⟨row, more, hrow, hread⟩ := ih hdone' hrest
        refine ⟨row, more, by simpa using hrow, ?_⟩
        rw [encodeRecord_cons, append_assoc, cons_append, readFrom_field hfield, hread]
    · obtain ⟨tail, htail⟩ : ∃ tail, encodeRecord (field :: fields) = encodeField field ++ tail := by
        cases fields with
        | nil => exact ⟨_, encodeRecord_singleton field⟩
        | cons next fields => exact ⟨_, encodeRecord_cons field next fields⟩
      obtain ⟨cut, more, hcut, hread⟩ := exists_readFrom_of_not_readable hfield hdone (tail ++ rest)
      refine ⟨done ++ [cut], more, fun e => ?_, by rw [htail, append_assoc, hread]⟩
      have hcons := append_cancel_left e
      simp only [List.cons.injEq] at hcons
      exact hcut (hcons.1 ▸ (Classical.not_imp.mp hfield).1)

/-- The first of several fields, and it reads back: such a record is never taken for a blank line. -/
def Headed (fields : List (List Char)) : Prop :=
  ∃ first more, fields = first :: more ∧ more ≠ [] ∧ Readable first

theorem readFrom_records_iff {rows : List (List (List Char))} (h : ∀ fields ∈ rows, Headed fields) :
    readFrom .start [] [] (rows.flatMap encodeRecord) = rows ↔ ∀ fields ∈ rows, ∀ f ∈ fields, Readable f := by
  induction rows with
  | nil => simp [readFrom]
  | cons fields rows ih =>
    obtain ⟨first, more, rfl, hmore, hfirst⟩ := h fields (mem_cons_self ..)
    obtain ⟨second, more, rfl⟩ := exists_cons_of_ne_nil hmore
    rw [flatMap_cons, forall_mem_cons, encodeRecord_cons, append_assoc, cons_append,
      readFrom_field hfirst, ← ih fun fields hf => h fields (mem_cons_of_mem _ hf)]
    by_cases hall : ∀ f ∈ second :: more, Readable f
    · rw [readFrom_fields (by simp) hmore hall]
      simp only [nil_append, singleton_append, List.cons.injEq, true_and]
      exact (and_iff_right (forall_mem_cons.mpr ⟨hfirst, hall⟩)).symm
    · have hdone : [] ++ [first] ≠ [] := by simp
      obtain ⟨row, rest, hrow, hread⟩ := exists_readFrom_fields hdone hall (rows.flatMap encodeRecord)
      rw [hread]
      constructor
      · intro e
        exact absurd (List.cons.inj e).1 hrow
      · rintro ⟨hfields, -⟩
        exact absurd (fun f hf => hfields f (mem_cons_of_mem _ hf)) hall

def texts (r : Report) : List String :=
  r.findings.flatMap (fun f =>
    [f.id, f.ruleId, f.location.path, f.location.symbol.getD "", f.message, f.source.getD ""]) ++
  r.diagnostics.flatMap fun d => [d.kind, d.subject, d.message, d.source]

theorem readable_of_not_mem (h : '\r' ∉ field) : Readable field := fun hr => absurd hr h

theorem not_mem_toString (n : Int) : '\r' ∉ (toString n).toList := by
  intro h
  rcases Json.isDigit_or_minus_of_mem_toString h with h | h <;> exact absurd h (by decide)

theorem readable_lineField (n : Option Int) : Readable (lineField n).toList := by
  cases n with
  | none => exact readable_of_not_mem (by decide)
  | some n => exact readable_of_not_mem (not_mem_toString n)

theorem readable_name (s : Severity) : Readable s.name.toList := readable_of_not_mem (by cases s <;> decide)

theorem readable_findingRecord_iff (f : Finding) : (∀ t ∈ findingRecord f, Readable t.toList) ↔ ∀ t ∈
      [f.id, f.ruleId, f.location.path, f.location.symbol.getD "", f.message, f.source.getD ""],
        Readable t.toList := by
  have hkind : Readable "finding".toList := readable_of_not_mem (by decide)
  have hcount : Readable (toString f.occurrences.length).toList :=
    readable_of_not_mem (not_mem_toString f.occurrences.length)
  simp only [findingRecord, forall_mem_cons, not_mem_nil, false_implies, implies_true, and_true, hkind,
    hcount, readable_name, readable_lineField, true_and]

theorem readable_diagnosticRecord_iff (d : Diagnostic) :
    (∀ t ∈ diagnosticRecord d, Readable t.toList) ↔ ∀ t ∈ [d.kind, d.subject, d.message, d.source],
      Readable t.toList := by
  have hkind : Readable "diagnostic".toList := readable_of_not_mem (by decide)
  have hempty : Readable "".toList := readable_of_not_mem (by decide)
  simp only [diagnosticRecord, forall_mem_cons, not_mem_nil, false_implies, implies_true, and_true, hkind,
    hempty, true_and]

theorem readable_columns : ∀ t ∈ columns, Readable t.toList := by
  have hall : (columns.all fun t => decide ('\r' ∉ t.toList)) = true := by decide
  exact fun t ht => readable_of_not_mem (of_decide_eq_true (all_eq_true.mp hall t ht))

theorem readable_records_iff (r : Report) :
    (∀ fields ∈ records r, ∀ t ∈ fields, Readable t.toList) ↔ ∀ t ∈ texts r, Readable t.toList := by
  simp only [records, texts, cons_append, forall_mem_cons, forall_mem_append, forall_mem_map,
    mem_flatMap, forall_exists_index, and_imp]
  simp only [readable_findingRecord_iff, readable_diagnosticRecord_iff]
  constructor
  · rintro ⟨-, hf, hd⟩
    exact ⟨fun t f h => hf f h t, fun t d h => hd d h t⟩
  · rintro ⟨hf, hd⟩
    exact ⟨readable_columns, fun f h t => hf t f h, fun d h t => hd t d h⟩

theorem headed_records (r : Report) : ∀ fields ∈ records r, Headed (fields.map String.toList) := by
  intro fields h
  simp only [records, cons_append, mem_cons, mem_append, mem_map] at h
  rcases h with rfl | ⟨f, -, rfl⟩ | ⟨d, -, rfl⟩ <;>
    exact ⟨_, _, rfl, by simp, readable_of_not_mem (by decide)⟩

theorem read_eq_iff (text : String) (rows : List (List String)) :
    read text = rows ↔ readFrom .start [] [] text.toList = rows.map fun fields => fields.map String.toList := by
  constructor
  · rintro rfl
    simp [read, Function.comp_def]
  · intro h
    simp [read, h, Function.comp_def]

theorem lineField_eq (n : Option Int) : lineField n = (n.map toString).getD "" := by cases n <;> rfl

/-- A report reads back, row by row in the order of its findings and then of its diagnostics, if and only
    if each text with a carriage return in it has a comma, a quotation mark or a newline in it too. -/
theorem csv_reads_back_iff (r : Report) :
    read (render r) =
        ["record", "id", "rule_id", "severity", "path", "start_line", "end_line", "symbol", "message", "source",
          "occurrences"] ::
        r.findings.map (fun f =>
          ["finding", f.id, f.ruleId, f.severity.name, f.location.path, (f.location.startLine?.map toString).getD "",
            (f.location.endLine?.map toString).getD "", f.location.symbol.getD "", f.message, f.source.getD "",
            toString f.occurrences.length]) ++
        r.diagnostics.map (fun d => ["diagnostic", "", d.kind, "", d.subject, "", "", "", d.message, d.source, ""]) ↔
      ∀ t ∈ texts r, '\r' ∈ t.toList → ',' ∈ t.toList ∨ '"' ∈ t.toList ∨ '\n' ∈ t.toList := by
  have hquoted (t : String) : t.toList.any needsQuotes = true ↔ ',' ∈ t.toList ∨ '"' ∈ t.toList ∨ '\n' ∈ t.toList := by
    simp only [List.any_eq_true, needsQuotes, Bool.or_eq_true, beq_iff_eq, or_assoc, and_or_left, exists_or,
      exists_eq_right]
  have hheaded : ∀ fields ∈ (records r).map (List.map String.toList), Headed fields := by
    intro fields h
    obtain ⟨row, hrow, rfl⟩ := List.mem_map.mp h
    exact headed_records r row hrow
  have htext : (render r).toList = ((records r).map (List.map String.toList)).flatMap encodeRecord := by
    rw [render, String.toList_ofList, List.flatMap_map]
  have hrows := readable_records_iff r
  simp only [Readable, hquoted] at hrows
  simp only [← lineField_eq]
  change read (render r) = records r ↔ _
  rw [read_eq_iff, htext, readFrom_records_iff hheaded, ← hrows]
  simp only [List.forall_mem_map, Readable, hquoted]

def returningReport : Report where
  findings := [
    { id := "f1", ruleId := "R1", severity := .low, location := { path := "a.rs" }, message := "one\rtwo" }]

/-- The carriage return is written as it is, and the row of the finding is read as two. -/
theorem csv_carriage_return_splits_row : read (render returningReport) =
    [columns, ["finding", "f1", "R1", "low", "a.rs", "", "", "", "one"], ["two", "static", "1"]] := by
  decide +kernel

end ContractAudit.Csv

import ContractAudit.Proofs.AuditTrail
import ContractAudit.Proofs.JsonReport

/-! # Callers of one audit log

A caller makes its entry first and then waits to write it. However callers take turns, the counters, the
entries and the file of the log agree. -/

namespace ContractAudit
open List Json

/-! ### Lines -/

theorem AuditEntry.newline_not_mem_of_line? {entry : AuditEntry} {text : String} (h : entry.line? = some text) :
    '\n' ∉ text.toList := by
  obtain ⟨-, h⟩ := Option.ite_none_left_eq_some.mp h
  cases h
  exact newline_not_mem_renderAt ⟨rfl, by decide, by decide⟩ _ 0

/-- The line of data reads back as them, and data have a line unless an integer in them is too long. -/
theorem AuditEntry.read_line? {entry : AuditEntry} (h : IsData entry.toValue) :
    entry.line?.bind parse? = if entry.toValue.isTooLong then none else some entry.toValue := by
  have hread := parse?_of_readsBack (t := "") (readsBack_data spaced_line rfl h 0) (fun _ h => by cases h)
  rw [String.append_empty] at hread
  rw [line?, dumps?, refuses_of_isData h, Bool.or_false]
  split
  · rfl
  · exact hread

namespace AuditEvent
variable {e : AuditEvent}

/-- What a caller says of an event. -/
def data : AuditEvent → List Value
  | sessionStart v | sessionEnd v => [v]
  | rule v w x | job v w x | plugin v w x => [v, w, x]
  | finding parts | failure parts => parts.map (·.2)

theorem isData_empty : IsData (.map []) := .map ⟨by simp, by simp⟩ (by simp)

theorem isData_orEmpty {v : Value} (h : IsData v) : IsData (orEmpty v) := by
  unfold orEmpty
  split
  · exact h
  · exact isData_empty

theorem isData_part {m : Entries} {default : Value} (h : ∀ e ∈ m, IsData e.2) (hdefault : IsData default)
    (name : String) : IsData (part m name default) := by
  rw [part, Entries.get, Entries.get?]
  cases hfind : m.find? (fun e => e.1.sameKey (.str name)) with
  | none => exact hdefault
  | some e => exact h e (mem_of_find?_eq_some hfind)

theorem isData_toValue {c : AuditCounters} {limit : Int} {fields : List (String × Value)} {now : Moment} {id : String}
    (h : ∀ v ∈ e.data, IsData v) (hfields : e.fields? c limit = some fields) :
    IsData (AuditEntry.toValue ⟨e.kind, now, id, fields⟩) := by
  have hentry : (["type", "timestamp", "session_id"] ++ fields.map (·.1)).Nodup ∧ ∀ f ∈ fields, IsData f.2 := by
    cases e with
    | sessionStart v =>
      cases hfields
      have hv := isData_orEmpty (h v (.head _))
      simp [hereditary_isData.str, hv]
    | sessionEnd v =>
      cases hfields
      have hstats : IsData (.record c.fields) :=
        hereditary_isData.record (by simp [AuditCounters.fields])
          (by simp [AuditCounters.fields, hereditary_isData.int])
      have hv := isData_orEmpty (h v (.head _))
      simp [hereditary_isData.str, hv, hstats]
    | rule v w x =>
      cases hfields
      simpa [data] using h
    | job v w x | plugin v w x =>
      cases hfields
      have hx := isData_orEmpty (h x (.tail _ (.tail _ (.head _))))
      simp [h v (.head _), h w (.tail _ (.head _)), hx]
    | failure parts =>
      cases hfields
      have hparts : ∀ e ∈ parts, IsData e.2 := fun e he => h e.2 (mem_map_of_mem he)
      simp [isData_part hparts, hereditary_isData.str]
    | finding parts =>
      have hparts : ∀ e ∈ parts, IsData e.2 := fun e he => h e.2 (mem_map_of_mem he)
      have hlocation := isData_part hparts isData_empty "location"
      simp only [fields?] at hfields
      split at hfields
      · next location heq =>
        rw [heq] at hlocation
        obtain ⟨-, hfields⟩ := Option.ite_none_left_eq_some.mp hfields
        cases hfields
        obtain _ | _ | ⟨-, hvalues⟩ := hlocation
        simp [findingFields, isData_part hparts, isData_part hvalues, hereditary_isData.str, hereditary_isData.null]
      · cases hfields
  refine hereditary_isData.record (by simpa using hentry.1) fun f hf => ?_
  rcases mem_append.mp hf with hf | hf
  · simp at hf
    rcases hf with rfl | rfl | rfl <;> exact hereditary_isData.str _
  · exact hentry.2 f hf

end AuditEvent

namespace AuditLog

/-- The entry of an event, made with the counters as they are. -/
def entry? (l : AuditLog) (now : Moment) (e : AuditEvent) : Option AuditEntry :=
  (e.fields? l.counters l.setup.maxEvidence).map fun fields => ⟨e.kind, now, l.setup.sessionId, fields⟩

def write (l : AuditLog) (entry : AuditEntry) : AuditLog :=
  { l with entries := l.entries ++ [entry], counters := l.counters.count entry.kind }

theorem isSome_entry? (l : AuditLog) (now : Moment) (e : AuditEvent) :
    (l.entry? now e).isSome = (e.fields? {} 0).isSome := by
  unfold entry?
  rw [Option.isSome_map]
  cases e with
  | finding parts =>
    simp only [AuditEvent.fields?]
    split
    · split <;> rfl
    · rfl
  | _ => rfl

theorem record_eq (l : AuditLog) (now : Moment) (e : AuditEvent) :
    l.record now e = (l.entry? now e).elim l l.write := by
  unfold record entry?
  cases e.fields? l.counters l.setup.maxEvidence <;> rfl

end AuditLog

/-- What an entry adds to the file of a log. -/
def AuditEntry.filed (entry : AuditEntry) : List Char :=
  entry.line?.elim [] fun text => text.toList ++ ['\n']

/-- A log with the entries that callers have made and not written, and the text of its file. -/
structure SharedLog where
  log : AuditLog
  waiting : List AuditEntry := []
  file : List Char := []

inductive LogTurn where
  | makes (now : Moment) (e : AuditEvent)
  | writes (i : Nat)

/-- The turn makes an entry: its event can be recorded. -/
def LogTurn.records : LogTurn → Bool
  | makes _ e => (e.fields? {} 0).isSome
  | writes _ => false

namespace SharedLog

def write (s : SharedLog) (entry : AuditEntry) : SharedLog :=
  { s with
    log := s.log.write entry
    file := if s.log.file?.isSome then s.file ++ entry.filed else s.file }

def take (s : SharedLog) : LogTurn → SharedLog
  | .makes now e => { s with waiting := s.waiting ++ (s.log.entry? now e).toList }
  | .writes i => match s.waiting[i]? with
    | none => s
    | some entry => { s.write entry with waiting := s.waiting.eraseIdx i }

def run (l : AuditLog) (turns : List LogTurn) : SharedLog := turns.foldl take { log := l }

theorem run_concat (l : AuditLog) (turns : List LogTurn) (t : LogTurn) :
    run l (turns ++ [t]) = (run l turns).take t := foldl_concat ..

variable {l : AuditLog} {s : SharedLog} {turns : List LogTurn} {now : Moment} {e : AuditEvent} {entry : AuditEntry}

/-- A caller that is alone writes its entry right away. -/
theorem run_alone (l : AuditLog) (calls : List (Moment × AuditEvent)) :
    (run l (calls.flatMap fun c => [.makes c.1 c.2, .writes 0])).log = calls.foldl (fun l c => l.record c.1 c.2) l := by
  suffices h : ∀ s : SharedLog, s.waiting = [] →
      ((calls.flatMap fun c => [.makes c.1 c.2, .writes 0]).foldl take s).log =
        calls.foldl (fun l c => l.record c.1 c.2) s.log from h { log := l } rfl
  induction calls with
  | nil => exact fun _ _ => rfl
  | cons c calls ih =>
    intro s hs
    have hcall : ((s.take (.makes c.1 c.2)).take (.writes 0)).waiting = [] ∧
        ((s.take (.makes c.1 c.2)).take (.writes 0)).log = s.log.record c.1 c.2 := by
      rw [AuditLog.record_eq]
      cases h : s.log.entry? c.1 c.2 <;> simp [take, hs, h, write]
    simp only [flatMap_cons, foldl_append, foldl_cons, foldl_nil, ← hcall.2]
    exact ih _ hcall.1

/-- The entry was made in one of the turns, with the counters of that time. -/
def MadeIn (l : AuditLog) (turns : List LogTurn) (entry : AuditEntry) : Prop :=
  ∃ earlier now e later, turns = earlier ++ .makes now e :: later ∧ (run l earlier).log.entry? now e = some entry

theorem MadeIn.concat (h : MadeIn l turns entry) (t : LogTurn) : MadeIn l (turns ++ [t]) entry := by
  obtain ⟨earlier, now, e, later, rfl, hentry⟩ := h
  exact ⟨earlier, now, e, later ++ [t], by simp, hentry⟩

def tally (l : AuditLog) : AuditCounters :=
  ⟨(l.ofKind .rule).length, (l.ofKind .finding).length, (l.ofKind .failure).length, (l.ofKind .job).length,
    (l.ofKind .plugin).length⟩

structure Agrees (l : AuditLog) (turns : List LogTurn) (s : SharedLog) : Prop where
  setup : s.log.setup = l.setup
  opened : s.log.opened = l.opened
  counters : s.log.counters = tally s.log
  file : s.file = if l.file?.isSome then s.log.entries.flatMap AuditEntry.filed else []
  made : ∀ entry, entry ∈ s.log.entries ∨ entry ∈ s.waiting → MadeIn l turns entry

theorem tally_write (l : AuditLog) (entry : AuditEntry) : tally (l.write entry) = (tally l).count entry.kind := by
  simp only [tally, AuditLog.ofKind, AuditLog.write, filter_append, length_append, filter_cons, filter_nil]
  cases entry.kind <;> rfl

theorem Agrees.write (h : Agrees l turns s) (hmade : MadeIn l turns entry) : Agrees l turns (s.write entry) where
  setup := h.setup
  opened := h.opened
  counters := by
    rw [SharedLog.write, tally_write, ← h.counters]
    rfl
  file := by
    have hfile : s.log.file? = l.file? := by rw [AuditLog.file?, AuditLog.file?, h.setup, h.opened]
    simp only [SharedLog.write, AuditLog.write, hfile, h.file]
    split <;> simp
  made entry' hmem := by
    simp only [SharedLog.write, AuditLog.write, mem_append, mem_singleton] at hmem
    rcases hmem with (hmem | rfl) | hmem
    · exact h.made _ (.inl hmem)
    · exact hmade
    · exact h.made _ (.inr hmem)

theorem Agrees.take (h : Agrees l turns (run l turns)) (t : LogTurn) :
    Agrees l (turns ++ [t]) ((run l turns).take t) := by
  have hlater : Agrees l (turns ++ [t]) (run l turns) :=
    { h with made := fun entry hmem => (h.made entry hmem).concat t }
  cases t with
  | makes now e =>
    refine { hlater with made := fun entry hmem => ?_ }
    rw [SharedLog.take, mem_append, Option.mem_toList] at hmem
    rcases hmem with hmem | hmem | hmem
    · exact hlater.made entry (.inl hmem)
    · exact hlater.made entry (.inr hmem)
    · exact ⟨turns, now, e, [], rfl, hmem⟩
  | writes i =>
    rw [SharedLog.take]
    split
    · exact hlater
    · next entry hentry =>
      have hwrite := hlater.write (hlater.made entry (.inr (mem_of_getElem? hentry)))
      exact { hwrite with made := fun entry hmem => hwrite.made entry (hmem.imp_right mem_of_mem_eraseIdx) }

theorem agrees_run (setup : AuditSetup) (opened : Moment) (turns : List LogTurn) :
    Agrees (.start setup opened) turns (run (.start setup opened) turns) := by
  induction turns using List.reverseRecOn with
  | nil => exact ⟨rfl, rfl, rfl, (ite_self _).symm, by simp [run, AuditLog.start]⟩
  | append_singleton turns t ih =>
    rw [run_concat]
    exact ih.take t

theorem length_take (s : SharedLog) (t : LogTurn) : (s.take t).log.entries.length + (s.take t).waiting.length =
    s.log.entries.length + s.waiting.length + if t.records then 1 else 0 := by
  cases t with
  | makes now e =>
    simp only [take, LogTurn.records, ← s.log.isSome_entry? now e, length_append]
    cases s.log.entry? now e <;> rfl
  | writes i =>
    rw [take]
    split
    · rfl
    · next entry hentry =>
      have hi := (List.getElem?_eq_some_iff.mp hentry).1
      simp only [write, AuditLog.write, length_append, length_eraseIdx, if_pos hi, length_singleton]
      show _ = _ + 0
      omega

theorem length_run (l : AuditLog) (turns : List LogTurn) : (run l turns).log.entries.length +
    (run l turns).waiting.length = l.entries.length + turns.countP (·.records) := by
  induction turns using List.reverseRecOn with
  | nil => rfl
  | append_singleton turns t ih => rw [run_concat, length_take, ih, countP_append, countP_singleton, Nat.add_assoc]

theorem flatMap_filed (l : AuditLog) :
    l.entries.flatMap AuditEntry.filed = l.lines.flatMap (·.toList ++ ['\n']) := by
  rw [AuditLog.lines]
  induction l.entries with
  | nil => rfl
  | cons entry entries ih =>
    rw [flatMap_cons, ih, filterMap_cons, AuditEntry.filed]
    cases entry.line? <;> rfl

theorem follow?_type (entry : AuditEntry) : entry.toValue.follow? ["type"] = some (.str entry.kind.name) := by
  simp [AuditEntry.toValue, Value.record, Value.follow?, Entries.get_cons]

theorem exists_sessionEnd {l : AuditLog} (h : l.entry? now e = some entry) (hend : AuditLog.Marks entry "session_end") :
    ∃ summary, e = .sessionEnd summary ∧ entry.get "stats" = .record l.counters.fields := by
  obtain ⟨fields, hfields, rfl⟩ := Option.map_eq_some_iff.mp h
  obtain ⟨hkind, hevent⟩ := hend
  cases e with
  | sessionEnd summary =>
    cases hfields
    exact ⟨summary, rfl, rfl⟩
  | sessionStart metadata =>
    cases hfields
    simp [AuditEntry.get] at hevent
  | _ => cases hkind

/-- However callers take turns, no entry is lost, the counters are the numbers of entries of each kind, the end
    of a session says what had been counted when its entry was made, and the file has one line for each entry
    that can be written, in order. An entry of JSON data has a line that reads back as the entry, unless an
    integer in it is too long. -/
theorem run_agrees (setup : AuditSetup) (opened : Moment) (turns : List LogTurn) :
    let l := AuditLog.start setup opened
    let s := run l turns
    (∀ calls : List (Moment × AuditEvent), (run l (calls.flatMap fun c => [.makes c.1 c.2, .writes 0])).log =
      calls.foldl (fun l c => l.record c.1 c.2) l) ∧
    s.log.entries.length + s.waiting.length = turns.countP (·.records) ∧
    s.log.counters = tally s.log ∧
    s.log.stats = .record ((tally s.log).fields ++ [("total_entries", .int s.log.entries.length),
      ("session_id", .str setup.sessionId), ("log_file", .ofString? (l.file?.map FilePath.toText))]) ∧
    (∀ k, s.log.ofKind k = s.log.entries.filter fun e => e.toValue.follow? ["type"] = some (.str k.name)) ∧
    (∀ entry ∈ s.log.entries, AuditLog.Marks entry "session_end" → ∃ earlier now summary later,
      turns = earlier ++ .makes now (.sessionEnd summary) :: later ∧
      entry.get "stats" = .record (run l earlier).log.counters.fields) ∧
    s.file = (if l.file?.isSome then s.log.lines.flatMap (·.toList ++ ['\n']) else []) ∧
    (∀ line ∈ s.log.lines, '\n' ∉ line.toList) ∧
    ((∀ now e, .makes now e ∈ turns → ∀ v ∈ e.data, IsData v) →
      s.log.entries.map (fun e => e.line?.bind parse?) =
        s.log.entries.map fun e => if e.toValue.isTooLong then none else some e.toValue) := by
  intro l s
  obtain ⟨hsetup, hopened, hcounters, hfile, hmade⟩ := agrees_run setup opened turns
  refine ⟨run_alone l, ?_, hcounters, ?_, fun k => ?_, ?_, ?_, ?_, fun hdata => ?_⟩
  · rw [length_run]
    exact Nat.zero_add _
  · rw [AuditLog.stats, hcounters, AuditLog.file?, hsetup, hopened]
    rfl
  · refine filter_congr fun e _ => ?_
    rw [follow?_type]
    cases e.kind <;> cases k <;> decide
  · intro entry hentry hend
    obtain ⟨earlier, now, e, later, hturns, hmake⟩ := hmade entry (.inl hentry)
    obtain ⟨summary, rfl, hstats⟩ := exists_sessionEnd hmake hend
    exact ⟨earlier, now, summary, later, hturns, hstats⟩
  · rw [hfile, flatMap_filed]
  · intro line hline
    obtain ⟨entry, -, hentry⟩ := mem_filterMap.mp hline
    exact entry.newline_not_mem_of_line? hentry
  · refine map_congr_left fun entry hentry => ?_
    obtain ⟨earlier, now, e, later, hturns, hmake⟩ := hmade entry (.inl hentry)
    obtain ⟨fields, hfields, rfl⟩ := Option.map_eq_some_iff.mp hmake
    refine AuditEntry.read_line? (AuditEvent.isData_toValue (hdata now e ?_) hfields)
    rw [hturns]
    exact mem_append_right _ (.head _)

/-- A caller that makes the entry for the end of a session and writes it after the entry of another caller. -/
def lateTurns : List LogTurn :=
  [.makes (.ofMicroseconds 0) (.sessionEnd .null),
    .makes (.ofMicroseconds 0) (.rule (.str "R1") (.str "a.rs") (.int 0)), .writes 1]

/-- The entry for the end of a session can be written with other counters than those of the log at that time,
    and the line of a number that is not finite is no JSON text. -/
theorem run_disagrees_lateTurns :
    let l := AuditLog.start { sessionId := "oracle", logDir := some "logs" } (.ofMicroseconds 0)
    let s := run l lateTurns
    ((s.take (.writes 0)).log.entries.map fun e => (e.kind, e.get "stats")) =
      [(.rule, .null), (.session, .record ({} : AuditCounters).fields)] ∧
    s.log.counters = { rules := 1 } ∧
    let t := run l [.makes (.ofMicroseconds 0) (.job (.str "job-1") (.str "progress")
      (.record [("x", .float (Float.ofScientific 1 false 999))])), .writes 0]
    t.log.lines.length = 1 ∧ t.log.lines.map parse? = [none] := by
  decide +kernel

/-- Two callers, of whom the second to make its entry is the first to write it. -/
def crossingTurns : List LogTurn :=
  [.makes (.ofMicroseconds 0) (.rule (.str "line\nbreak") (.str "é") (.int 2)),
    .makes (.ofMicroseconds 0) (.sessionEnd .null), .writes 1, .writes 0]

theorem run_agrees_crossingTurns :
    (∀ now e, .makes now e ∈ crossingTurns → ∀ v ∈ e.data, IsData v) ∧
    let s := run (.start { sessionId := "oracle", logDir := some "logs" } (.ofMicroseconds 0)) crossingTurns
    s.log.entries.map (·.kind) = [.session, .rule] ∧
    s.log.entries.map (fun e => e.line?.bind parse?) =
      s.log.entries.map fun e => if e.toValue.isTooLong then none else some e.toValue := by
  have hdata : ∀ now e, .makes now e ∈ crossingTurns → ∀ v ∈ e.data, IsData v := by
    intro now e h
    simp only [crossingTurns, mem_cons, LogTurn.makes.injEq, reduceCtorEq, not_mem_nil, or_false] at h
    rcases h with ⟨-, rfl⟩ | ⟨-, rfl⟩
    · simp [AuditEvent.data, hereditary_isData.str, hereditary_isData.int]
    · simp [AuditEvent.data, hereditary_isData.null]
  exact ⟨hdata, rfl, (run_agrees { sessionId := "oracle", logDir := some "logs" } (.ofMicroseconds 0)
    crossingTurns).2.2.2.2.2.2.2.2 hdata⟩

end SharedLog
end ContractAudit

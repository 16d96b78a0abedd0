import Mathlib.Data.List.TakeWhile
import ContractAudit.Proofs.Sightings

/-! # Re-indenting a source -/

namespace ContractAudit.Source
open Text List Sighting Location
variable {c : Char} {n n' : String} {t : List Char}

def isIndent (c : Char) : Bool := c == ' ' || c == '\t'

def unindent (l : List Char) : List Char := l.dropWhile isIndent

/-- The line with other spaces and tabs at its start; a line of white space stays as it is. -/
def Reindented (l l' : List Char) : Prop := l' = l ∨ l.all isBlank = false ∧ unindent l' = unindent l

/-- The text with other spaces and tabs at the start of any of its lines that are not blank. -/
def Reindents (t t' : String) : Prop := Forall₂ Reindented (splitLines t.toList) (splitLines t'.toList)

instance (l l' : List Char) : Decidable (Reindented l l') := inferInstanceAs (Decidable (_ ∨ _ ∧ _))

instance (t t' : String) : Decidable (Reindents t t') := inferInstanceAs (Decidable (Forall₂ ..))

theorem isIndent_iff : isIndent c = true ↔ c = ' ' ∨ c = '\t' := by
  rw [isIndent, Bool.or_eq_true, beq_iff_eq, beq_iff_eq]

theorem isBlank_of_isIndent (h : isIndent c = true) : isBlank c = true := by
  rcases isIndent_iff.mp h with rfl | rfl <;> decide

theorem unindent_ne_nil {l : List Char} (h : l.all isBlank = false) : unindent l ≠ [] := by
  intro hnil
  rw [unindent, dropWhile_eq_nil_iff] at hnil
  refine Bool.false_ne_true (h.symm.trans ?_)
  rw [all_eq_true]
  exact fun c hc => isBlank_of_isIndent (hnil c hc)

section
variable {α : Type} {F : List Char → α} (hF : ∀ s : Seam, s.post ≠ [] → F s.wide = F s.text)
variable {p l : List Char}
include hF

section
variable (hp : ∀ c, p.getLast? = some c → c = '\n')
include hp

theorem eq_of_indents {a x : List Char}
    (ha : ∀ c ∈ a, isIndent c = true) (hx : x ≠ []) : F (p ++ (a ++ x)) = F (p ++ x) := by
  induction a with
  | nil => rfl
  | cons b a ih =>
    have hb : b = ' ' ∨ b = '\t' := isIndent_iff.mp (ha b mem_cons_self)
    have hpost : a ++ x ≠ [] := fun h => hx (append_eq_nil_iff.mp h).2
    exact (hF ⟨p, b, a ++ x, hb, hp⟩ hpost).trans (ih fun c hc => ha c (mem_cons_of_mem b hc))

theorem eq_of_unindent (hl : unindent l ≠ []) (r : List Char) : F (p ++ (l ++ r)) = F (p ++ (unindent l ++ r)) := by
  have hx : unindent l ++ r ≠ [] := fun h => hl (append_eq_nil_iff.mp h).1
  have hstrip := eq_of_indents hF hp (a := l.takeWhile isIndent) (fun c hc => mem_takeWhile_imp hc) hx
  rwa [← append_assoc (l.takeWhile isIndent), unindent, takeWhile_append_dropWhile] at hstrip

theorem eq_of_reindented {l' : List Char}
    (h : Reindented l l') (r : List Char) : F (p ++ (l' ++ r)) = F (p ++ (l ++ r)) := by
  rcases h with rfl | ⟨hl, heq⟩
  · rfl
  · have hne := unindent_ne_nil hl
    rw [eq_of_unindent hF hp hne, eq_of_unindent hF hp (heq ▸ hne), heq]

end

theorem eq_of_forall₂_reindented {ls ls' : List (List Char)} (h : Forall₂ Reindented ls ls')
    (hp : ∀ c, p.getLast? = some c → c = '\n') :
    F (p ++ ['\n'].intercalate ls') = F (p ++ ['\n'].intercalate ls) := by
  induction h generalizing p with
  | nil => rfl
  | @cons l l' ls ls' hl hls ih =>
    cases hls with
    | nil =>
      have hline := eq_of_reindented hF hp hl []
      rw [append_nil, append_nil] at hline
      rwa [intercalate_singleton, intercalate_singleton]
    | @cons k k' ls ls' hk hls =>
      have hline := eq_of_reindented hF hp hl ('\n' :: ['\n'].intercalate (k' :: ls'))
      have hrest := ih (p := p ++ (l ++ ['\n'])) fun c hc => by
        rw [← append_assoc, getLast?_concat] at hc
        exact (Option.some.inj hc).symm
      simp only [append_assoc, singleton_append] at hrest
      simp only [intercalate_cons_cons, append_assoc, singleton_append] at hline ⊢
      exact hline.trans hrest

/-- What no blank at the start of a line changes, unless the line ends with it, no re-indenting changes. -/
theorem eq_of_reindents {t t' : String} (h : Reindents t t') : F t'.toList = F t.toList := by
  have hall := eq_of_forall₂_reindented hF h (p := []) nofun
  rwa [intercalate_splitLines, intercalate_splitLines] at hall

end

/-- The text without spaces and tabs after newlines; `fresh` says that a newline and nothing but such
    blanks are before it. -/
def flushFrom (fresh : Bool) : List Char → List Char
  | [] => []
  | c :: t => if fresh && isIndent c then flushFrom true t else c :: flushFrom (c == '\n') t

def flush (t : String) : String := String.ofList (flushFrom false t.toList)

theorem flushFrom_newline {b : Char} (hb : isIndent b = true) (fresh : Bool) (p r : List Char) :
    flushFrom fresh (p ++ '\n' :: b :: r) = flushFrom fresh (p ++ '\n' :: r) := by
  induction p generalizing fresh with
  | nil =>
    have hn : isIndent '\n' = false := by decide
    have hstep (t : List Char) : flushFrom fresh ('\n' :: t) = '\n' :: flushFrom true t := by
      rw [flushFrom, hn, Bool.and_false, if_neg Bool.false_ne_true]
      rfl
    rw [nil_append, nil_append, hstep, hstep, flushFrom.eq_2, hb, Bool.and_true, if_pos rfl]
  | cons c p ih =>
    rw [cons_append, cons_append, flushFrom.eq_2, flushFrom.eq_2, ih, ih]

theorem flush_of_nameAlike (h : NameAlike True n n') : flush n' = flush n := by
  unfold flush
  rcases h with rfl | ⟨-, h | ⟨s, hs, htext, hwide⟩⟩
  · rfl
  · rw [h]
  · obtain ⟨p, hp⟩ := s.pre_eq.resolve_left hs
    rw [← htext, ← hwide, Seam.text, Seam.wide, hp, append_assoc, append_assoc, singleton_append,
      singleton_append, flushFrom_newline (isIndent_iff.mpr s.indents)]

theorem filter_flushFrom (fresh : Bool) (t : List Char) :
    (flushFrom fresh t).filter (!isBlank ·) = t.filter (!isBlank ·) := by
  induction t generalizing fresh with
  | nil => rfl
  | cons c t ih =>
    rw [flushFrom]
    split
    · next h =>
      rw [Bool.and_eq_true] at h
      rw [ih, filter_cons_of_neg (by simp [isBlank_of_isIndent h.2])]
    · rw [filter_cons, filter_cons, ih]

theorem solid_flush (t : String) : solid (flush t) = solid t := by
  rw [solid, flush, String.toList_ofList, filter_flushFrom]
  rfl

theorem newline_mem_flushFrom {fresh : Bool} : '\n' ∈ flushFrom fresh t ↔ '\n' ∈ t := by
  induction t generalizing fresh with
  | nil => rfl
  | cons c t ih =>
    rw [flushFrom]
    split
    · next h =>
      have hne : '\n' ≠ c := by
        rw [Bool.and_eq_true] at h
        rintro rfl
        exact absurd h.2 (by decide)
      rw [ih, mem_cons, or_iff_right hne]
    · rw [mem_cons, mem_cons, ih]

theorem flushFrom_of_not_mem (h : '\n' ∉ t) : flushFrom false t = t := by
  induction t with
  | nil => rfl
  | cons c t ih =>
    rw [mem_cons, not_or] at h
    rw [flushFrom, Bool.false_and, if_neg Bool.false_ne_true, beq_false_of_ne (Ne.symm h.1), ih h.2]

theorem eq_of_flush (h : flush n' = flush n) (hn : '\n' ∉ n.toList) : n' = n := by
  have hchars : flushFrom false n'.toList = flushFrom false n.toList := String.ofList_injective h
  have hn' : '\n' ∉ n'.toList := by rwa [← newline_mem_flushFrom, hchars, newline_mem_flushFrom]
  rw [flushFrom_of_not_mem hn, flushFrom_of_not_mem hn'] at hchars
  exact String.toList_injective hchars

end ContractAudit.Source

namespace ContractAudit
open Source Text List Sighting Location
variable {v v' : Sighting} {t : String} {l : List Sighting}

/-- The sighting without the indentation in its texts, and without white space in its snippet. -/
def Sighting.flush (v : Sighting) : Sighting :=
  { v with
    message := Source.flush v.message
    symbol := v.symbol.map Source.flush
    snippet := String.ofList (solid v.snippet) }

theorem Sighting.Alike.flush_eq (h : Alike True v v') : v'.flush = v.flush := by
  have hsymbol : v'.symbol.map Source.flush = v.symbol.map Source.flush :=
    map_eq_of_rel h.symbol fun _ _ hn => flush_of_nameAlike hn
  unfold flush
  rw [flush_of_nameAlike h.message, hsymbol, h.snippet trivial, h.line, h.severity, h.evidence trivial]

def Detector.sightingsAlone (d : Detector) (setup : RuleSetup) (path : String) (language : Option String)
    (source : String) : Except ItemsError (List Sighting) :=
  d.sightings setup (.of path source language) (Index.ofUnits [.of path source language])

section
variable {d : Detector} (hd : d ∈ builtinDetectors) (setup : RuleSetup) (path : String) (language : Option String)
include hd

theorem seenAlike_of_seam {s : Seam} (hs : s.post ≠ []) :
    SeenAlike True (d.sightingsAlone setup path language (String.ofList s.text))
      (d.sightingsAlone setup path language (String.ofList s.wide)) := by
  obtain ⟨σ, hσ⟩ := Model.shifted_of_seam hs
  have hunit : ScanUnit.Shifted True σ (.of path (String.ofList s.text) language)
      (.of path (String.ofList s.wide) language) := ⟨rfl, rfl, hσ⟩
  exact readsCode_of_mem hd (.inl trivial) σ _ _ _ _ hσ (Index.shifted_ofUnits (.cons hunit .nil)) setup

theorem flush_sightingsAlone {t t' : String} (h : Reindents t t') :
    (d.sightingsAlone setup path language t').map (List.map Sighting.flush) =
      (d.sightingsAlone setup path language t).map (List.map Sighting.flush) := by
  have hall := eq_of_reindents (F := fun l =>
    (d.sightingsAlone setup path language (String.ofList l)).map (List.map Sighting.flush)) (fun s hs => ?_) h
  · simpa only [String.ofList_toList] using hall
  · have hseen := seenAlike_of_seam hd setup path language hs
    generalize d.sightingsAlone setup path language (String.ofList s.text) = r at hseen ⊢
    generalize d.sightingsAlone setup path language (String.ofList s.wide) = r' at hseen ⊢
    cases hseen with
    | ok hl => exact congrArg Except.ok (map_eq_of_forall₂ hl fun _ _ hv => hv.flush_eq)
    | error e => rfl

end

def Location.flush (l : Location) : Location := { l with symbol := l.symbol.map Source.flush }

def Finding.flush (f : Finding) : Finding :=
  { f with
    message := Source.flush f.message
    location := f.location.flush
    occurrences := f.occurrences.map Location.flush }

def Finding.OnOneLine (f : Finding) : Prop :=
  '\n' ∉ f.message.toList ∧ ∀ n, f.location.symbol = some n → '\n' ∉ n.toList

/-- Findings that differ at most in the indentation of their texts, and not at all if the texts are on one
    line. -/
structure Finding.Reindented (f f' : Finding) : Prop where
  flush : f'.flush = f.flush
  same : f.OnOneLine → f' = f

theorem contentFingerprint_congr {t' : String} (h : solid t' = solid t) :
    contentFingerprint t' = contentFingerprint t := by
  unfold contentFingerprint
  exact congrArg (fun l : List Char => if l.isEmpty then "" else Hash.shortDigest (String.ofList l)) h

theorem Sighting.finding_congr (hline : v'.line = v.line) (hmessage : v'.message = v.message)
    (hsymbol : v'.symbol = v.symbol) (hseverity : v'.severity = v.severity) (hevidence : v'.evidence = v.evidence)
    (hsnippet : solid v'.snippet = solid v.snippet) (info : RuleInfo) (setup : RuleSetup) (path : String) :
    v'.finding info setup path = v.finding info setup path := by
  unfold finding Draft.finding
  simp only [hline, hmessage, hsymbol, hseverity, hevidence, contentFingerprint_congr hsnippet]

theorem normalSymbol_of_flush {n n' : Option String} (h : n'.map Source.flush = n.map Source.flush) :
    normalSymbol n' = normalSymbol n := by
  have hsolid (n : Option String) : n.map (fun s => String.ofList (solid s)) =
      (n.map Source.flush).map fun s => String.ofList (solid s) := by
    cases n with
    | none => rfl
    | some s => rw [Option.map_some, Option.map_some, Option.map_some, solid_flush]
  have heq := hsolid n'
  rw [h, ← hsolid n] at heq
  exact congrArg (Option.filter fun s => !s.isEmpty) heq

theorem findingId_congr {l l' : Location} (h : l'.normalized = l.normalized) (ruleId fingerprint : String) :
    findingId ruleId l' fingerprint = findingId ruleId l fingerprint := by
  rw [findingId, findingId, findingKey, findingKey, h]

theorem Sighting.finding_of_flush (h : v'.flush = v.flush) (info : RuleInfo) (setup : RuleSetup)
    (path : String) : Finding.Reindented (v.finding info setup path) (v'.finding info setup path) := by
  obtain ⟨hline, hmessage, hsymbol, hseverity, hevidence, hsnippet⟩ := mk.inj h
  have hsnippet : solid v'.snippet = solid v.snippet := String.ofList_injective hsnippet
  constructor
  · have hid (fingerprint : String) : findingId info.id (.ofLines path (some v.line) none v'.symbol) fingerprint =
          findingId info.id (.ofLines path (some v.line) none v.symbol) fingerprint := by
      refine findingId_congr ?_ info.id fingerprint
      simp only [ofLines, normalized, normalSymbol_of_flush hsymbol]
    unfold finding Draft.finding Finding.flush
    simp only [hline, hmessage, hseverity, hevidence, contentFingerprint_congr hsnippet, hid]
    simp only [ofLines, Location.flush, hsymbol, map_cons, map_nil]
  · rintro ⟨hone, hones⟩
    have hsame : v'.symbol = v.symbol := by
      have hones (n : String) (hn : v.symbol = some n) : '\n' ∉ n.toList := hones n hn
      generalize v.symbol = n at hsymbol hones ⊢
      generalize v'.symbol = n' at hsymbol ⊢
      cases n with
      | none => exact Option.map_eq_none_iff.mp hsymbol
      | some n =>
        obtain ⟨n', rfl, hn'⟩ := Option.map_eq_some_iff.mp hsymbol
        rw [eq_of_flush hn' (hones n rfl)]
    exact finding_congr hline (eq_of_flush hmessage hone) hsame hseverity hevidence hsnippet info setup path

def Detector.evaluateAlone (d : Detector) (setup : RuleSetup) (path : String) (language : Option String)
    (source : String) : Except Fault Yield :=
  (d.rule setup).evaluate (.of path source language) (Index.ofUnits [.of path source language])

/-- Evaluations that fail alike or yield, one by one, findings that differ in indentation at most. -/
inductive SameFindings : Except Fault Yield → Except Fault Yield → Prop where
  | error (e : Fault) : SameFindings (.error e) (.error e)
  | ok {y y' : Yield} (findings : Forall₂ Finding.Reindented y.findings y'.findings)
    (invalid : y'.invalid = y.invalid) : SameFindings (.ok y) (.ok y')

theorem Detector.evaluateAlone_eq (d : Detector) (setup : RuleSetup) (path : String) (language : Option String)
    (t : String) : d.evaluateAlone setup path language t = ((d.sightingsAlone setup path language t).mapError
      ItemsError.fault).map fun l => { findings := l.map fun v => v.finding d.info setup path } := by
  simp only [evaluateAlone, sightingsAlone, rule]
  split <;> next h => rw [h]; rfl

theorem Sighting.forall₂_finding {l' : List Sighting} (h : l'.map flush = l.map flush)
    (info : RuleInfo) (setup : RuleSetup) (path : String) :
    Forall₂ Finding.Reindented (l.map fun v => v.finding info setup path)
      (l'.map fun v => v.finding info setup path) := by
  rw [← forall₂_eq_eq_eq, forall₂_map_left_iff, forall₂_map_right_iff] at h
  rw [forall₂_map_left_iff, forall₂_map_right_iff]
  exact h.flip.imp fun v v' hv => finding_of_flush hv info setup path

/-- Re-indenting a source changes no finding of a built-in rule but for the spaces and tabs after newlines in
    its message and symbol: the rule, the severity, the path and lines, the evidence, the fingerprint and the id
    are the same, and so is the whole finding if its message and symbol are on one line. -/
theorem findings_of_reindents {t t' : String} (h : Reindents t t') {d : Detector} (hd : d ∈ builtinDetectors)
    (setup : RuleSetup) (path : String) (language : Option String) :
    SameFindings (d.evaluateAlone setup path language t) (d.evaluateAlone setup path language t') := by
  have hflush := flush_sightingsAlone hd setup path language h
  rw [Detector.evaluateAlone_eq, Detector.evaluateAlone_eq]
  cases hr : d.sightingsAlone setup path language t with
  | error e =>
    cases hr' : d.sightingsAlone setup path language t' with
    | error e' =>
      rw [hr, hr'] at hflush
      obtain rfl : e' = e := Except.error.inj hflush
      exact .error _
    | ok l' =>
      rw [hr, hr'] at hflush
      cases hflush
  | ok l =>
    cases hr' : d.sightingsAlone setup path language t' with
    | error e' =>
      rw [hr, hr'] at hflush
      cases hflush
    | ok l' =>
      rw [hr, hr'] at hflush
      have hfindings := forall₂_finding (Except.ok.inj hflush) d.info setup path
      exact .ok hfindings rfl

/-- A method of a plain type, indented by spaces, and the same indented by tabs or not at all. -/
def plainMethod : String := "impl V \x7b\n    fn f() \x7b\n        unsafe \x7b \x7d\n\n    \x7d\n\x7d\n"
def plainMethodFlat : String := "impl V \x7b\nfn f() \x7b\n\t\tunsafe \x7b \x7d\n\n\x7d\n\x7d\n"

theorem findings_of_reindents_plainMethod : Reindents plainMethod plainMethodFlat ∧
    SameFindings (Safety.unsafeCode.evaluateAlone {} "a.rs" none plainMethod)
      (Safety.unsafeCode.evaluateAlone {} "a.rs" none plainMethodFlat) := by
  have h : Reindents plainMethod plainMethodFlat := by decide +kernel
  exact ⟨h, findings_of_reindents h (by simp [builtinDetectors]) {} "a.rs" none⟩

/-- A method of a tuple whose members are on two lines, with two indentations of the second. -/
def tupleMethod : String := "impl T for (A,\n    B) \x7b\n    fn f() \x7b let x = a + b; \x7d\n\x7d\n"
def tupleMethodNarrow : String := "impl T for (A,\n  B) \x7b\n    fn f() \x7b let x = a + b; \x7d\n\x7d\n"

/-- The message and the symbol show the indentation of the head of the block. -/
theorem findings_depend_on_indentation_of_tuple : Reindents tupleMethod tupleMethodNarrow ∧
    (Arithmetic.detector.evaluateAlone {} "a.rs" none tupleMethod).map
        (fun y => y.findings.map fun f => (f.message, f.location.symbol)) =
      .ok [("Unchecked '+' in (A,\n    B)::f", some "(A,\n    B)::f")] ∧
    (Arithmetic.detector.evaluateAlone {} "a.rs" none tupleMethodNarrow).map
        (fun y => y.findings.map fun f => (f.message, f.location.symbol)) =
      .ok [("Unchecked '+' in (A,\n  B)::f", some "(A,\n  B)::f")] := by
  decide +kernel

end ContractAudit

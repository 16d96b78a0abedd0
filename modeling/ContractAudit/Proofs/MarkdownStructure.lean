import Mathlib.Data.Bool.Basic
import ContractAudit.Proofs.JsonReading
import ContractAudit.Report.Markdown

/-! # The structure of Markdown reports

The lines of a document are headings, fences, separators, rows of tables and texts as the shape of the
report has it, if the texts that stand in it as they are do not disturb that. -/

namespace ContractAudit.Markdown
open List Text Json Report
variable (o : Options) (f : Finding) (r : Report)
variable {k : LineKind} {p : String → Prop} {s : String} {cs : List String} {n : Nat}

/-! ### Reading a document -/

inductive LineKind where
  | heading (line : List Char)
  | fence (line : List Char)
  | separator (line : List Char)
  | row (bars : Nat)
  | code
  | text
deriving DecidableEq

/-- The bars of a text that no backslash stands right before. -/
def bars : (before : Char) → List Char → Nat
  | _, [] => 0
  | p, c :: s => (if c = '|' ∧ p ≠ '\\' then 1 else 0) + bars c s

def kindOf (line : List Char) : LineKind :=
  match line.dropWhile (· == ' ') with
  | '`' :: '`' :: '`' :: _ => .fence line
  | '#' :: s => if (s.dropWhile (· == '#')).head?.all (· == ' ') then .heading line else .text
  | '|' :: '-' :: _ => .separator line
  | '|' :: s => .row (bars '|' s + 1)
  | ['-', '-', '-'] => .separator line
  | _ => .text

def LineKind.isFence : LineKind → Bool
  | .fence _ => true
  | _ => false

/-- What a line is; in a block of code all lines are code but the fence that ends it. -/
def lineKind (inCode : Bool) (line : List Char) : LineKind :=
  if inCode && !(kindOf line).isFence then .code else kindOf line

def outline : (inCode : Bool) → List (List Char) → List LineKind
  | _, [] => []
  | b, l :: ls => lineKind b l :: outline (b != (lineKind b l).isFence) ls

/-! ### Lines that are laid out -/

def OneLine (s : String) : Prop := '\n' ∉ s.toList

/-- The lines are of the given kinds, and none has a newline in it. -/
def Laid : (inCode : Bool) → List LineKind → List String → Prop
  | _, [], [] => True
  | b, k :: ks, l :: ls => (OneLine l ∧ lineKind b l.toList = k) ∧ Laid (b != k.isFence) ks ls
  | _, _, _ => False

def after (b : Bool) (ks : List LineKind) : Bool := ks.foldl (fun b k => b != k.isFence) b

variable {b : Bool} {ks ks' : List LineKind} {ls ls' : List String}

theorem laid_iff (hlength : ks.length = ls.length) :
    Laid b ks ls ↔ (∀ l ∈ ls, OneLine l) ∧ outline b (ls.map String.toList) = ks := by
  induction ls generalizing b ks with
  | nil =>
    obtain rfl := length_eq_zero_iff.mp hlength
    simp [Laid, outline]
  | cons l ls ih =>
    cases ks with
    | nil => cases hlength
    | cons k ks =>
      simp only [Laid, ih (Nat.succ.inj hlength), forall_mem_cons, map_cons, outline, List.cons.injEq]
      grind

theorem laid_append (hlength : ks.length = ls.length) :
    Laid b (ks ++ ks') (ls ++ ls') ↔ Laid b ks ls ∧ Laid (after b ks) ks' ls' := by
  induction ls generalizing b ks with
  | nil =>
    obtain rfl := length_eq_zero_iff.mp hlength
    simp [Laid, after]
  | cons l ls ih =>
    cases ks with
    | nil => cases hlength
    | cons k ks =>
      simp only [cons_append, Laid, ih (Nat.succ.inj hlength), and_assoc]
      rfl

theorem laid_replicate (hk : k.isFence = false) :
    Laid b (replicate ls.length k) ls ↔ ∀ l ∈ ls, OneLine l ∧ lineKind b l.toList = k := by
  induction ls with
  | nil => simp [Laid]
  | cons l ls ih =>
    rw [length_cons, replicate_succ, forall_mem_cons, ← ih, Laid, hk, Bool.bne_false]

theorem after_replicate (hk : k.isFence = false) (n : Nat) : after b (replicate n k) = b := by
  induction n with
  | zero => rfl
  | succ n ih => rwa [replicate_succ, after, foldl_cons, hk, Bool.bne_false]

theorem after_append (b : Bool) (ks ks' : List LineKind) : after b (ks ++ ks') = after (after b ks) ks' :=
  foldl_append

/-- The lines are of the given kinds and leave no block of code open, if and only if the condition holds. -/
structure Lays (ks : List LineKind) (ls : List String) (P : Prop) : Prop where
  length : ks.length = ls.length
  closed : after false ks = false
  iff : Laid false ks ls ↔ P

namespace Lays
variable {P Q : Prop}
variable {c : Prop} {d : Bool}

theorem nil : Lays [] [] True := ⟨rfl, rfl, by simp [Laid]⟩

theorem append (h : Lays ks ls P) (h' : Lays ks' ls' Q) : Lays (ks ++ ks') (ls ++ ls') (P ∧ Q) where
  length := by rw [length_append, length_append, h.length, h'.length]
  closed := by rw [after_append, h.closed, h'.closed]
  iff := by rw [laid_append h.length, h.closed, h.iff, h'.iff]

theorem congr (h : Lays ks ls P) (hPQ : P ↔ Q) : Lays ks ls Q := ⟨h.length, h.closed, h.iff.trans hPQ⟩

theorem ite [Decidable c] (hc : c ↔ d = true) (h : d = true → Lays ks ls P)
    (h' : d = false → Lays ks' ls' P) : Lays (if c then ks else ks') (if d then ls else ls') P := by
  cases d with
  | false => simpa [hc] using h'
  | true => simpa [hc] using h

theorem only [Decidable c] (hc : c ↔ d = true) (h : Lays ks ls P) :
    Lays (if c then ks else []) (Markdown.only d ls) (c → P) :=
  ite hc (fun hd => h.congr (by simp [hc, hd])) fun hd => nil.congr (by simp [hc, hd])

theorem map {α : Type} {k : LineKind} (hk : k.isFence = false) (line : α → String) (xs : List α) {p : α → Prop}
    (h : ∀ x ∈ xs, OneLine (line x) ∧ kindOf (line x).toList = k ↔ p x) {n : Nat} (hn : n = xs.length) :
    Lays (replicate n k) (xs.map line) (∀ x ∈ xs, p x) where
  length := by simp [hn]
  closed := after_replicate hk n
  iff := by
    rw [hn, ← length_map line, laid_replicate hk, forall_mem_map]
    exact forall₂_congr h

theorem said (t : Option String) (lines : String → List String) {p : String → Prop} (hp : p "")
    (h : ∀ s, Lays ks (lines s) (p s)) :
    Lays (if t.any (!·.isEmpty) then ks else []) (Markdown.said t lines) (∀ s ∈ t, p s) := by
  cases t with
  | none => exact nil.congr (by simp)
  | some s =>
    refine (Lays.only Iff.rfl (h s)).congr ?_
    by_cases hs : s = "" <;> simp [hs, hp]

theorem heading {line : String} (h : OneLine line ∧ kindOf line.toList = .heading line.toList) :
    Lays [.heading line.toList, .text] [line, ""] True :=
  ⟨rfl, rfl, iff_true_intro ⟨h, ⟨by simp [OneLine], rfl⟩, trivial⟩⟩

theorem blank : Lays [.text] [""] True := ⟨rfl, rfl, iff_true_intro ⟨⟨by simp [OneLine], rfl⟩, trivial⟩⟩

end Lays

/-! ### Bars -/

theorem bars_append_blank (p : Char) (s t : List Char) : bars p (s ++ ' ' :: t) = bars p s + bars ' ' t := by
  induction s generalizing p with
  | nil => simp [bars]
  | cons c s ih => rw [cons_append, bars, ih, bars, Nat.add_assoc]

theorem bars_eq_zero {p : Char} {s : List Char} (h : '|' ∉ s) : bars p s = 0 := by
  induction s generalizing p with
  | nil => rfl
  | cons c s ih =>
    obtain ⟨hc, hs⟩ := ne_and_not_mem_of_not_mem_cons h
    rw [bars, if_neg fun e => hc e.1.symm, ih hs]

theorem bars_before {p q : Char} (hp : p ≠ '\\') (hq : q ≠ '\\') (s : List Char) : bars p s = bars q s := by
  cases s with
  | nil => rfl
  | cons c s => simp [bars, hp, hq]

/-- The escaped text brings no bar into a row, whatever stands before it. -/
theorem bars_cell (p : Char) (s : String) : bars p (cell s).toList = 0 := by
  simp only [cell, String.toList_ofList, beq_iff_eq]
  induction s.toList generalizing p with
  | nil => rfl
  | cons c s ih =>
    rw [flatMap_cons]
    split
    · simp [bars, ih]
    split
    · simp [bars, ih]
    · next h _ => simp [bars, ih, h]

theorem oneLine_cell (s : String) : OneLine (cell s) := by
  rw [OneLine, cell, String.toList_ofList, mem_flatMap]
  rintro ⟨c, -, hc⟩
  split at hc
  · simp at hc
  split at hc
  · simp at hc
  · next h => exact h (by simpa using (mem_singleton.mp hc).symm)

def cellBars : List String → Nat
  | [] => 0
  | c :: cs => bars ' ' c.toList + cellBars cs

theorem bars_intercalate (c : String) (cs : List String) (t : List Char) :
    bars ' ' ((" | ".intercalate (c :: cs)).toList ++ ' ' :: t) = cs.length + cellBars (c :: cs) + bars ' ' t := by
  induction cs generalizing c with
  | nil => simp [bars_append_blank, cellBars]
  | cons d cs ih =>
    have hbar (s : List Char) : bars ' ' ('|' :: ' ' :: s) = 1 + bars ' ' s := by simp [bars]
    have hline : (" | ".intercalate (c :: d :: cs)).toList ++ ' ' :: t =
        c.toList ++ ' ' :: '|' :: ' ' :: ((" | ".intercalate (d :: cs)).toList ++ ' ' :: t) := by
      simp [String.intercalate_cons_cons]
    rw [hline, bars_append_blank, hbar, ih, length_cons]
    simp only [cellBars]
    omega

theorem kindOf_row (c : String) (cs : List String) :
    kindOf (row (c :: cs)).toList = .row (cs.length + 2 + cellBars (c :: cs)) := by
  have hline : (row (c :: cs)).toList = '|' :: ' ' :: ((" | ".intercalate (c :: cs)).toList ++ [' ', '|']) := by
    simp [row]
  have hstart (s : List Char) : kindOf ('|' :: ' ' :: s) = .row (bars ' ' s + 1) := by simp [kindOf, bars]
  have hend : bars ' ' ['|'] = 1 := rfl
  rw [hline, hstart, bars_intercalate, hend]
  congr 1
  omega

theorem oneLine_append {t : String} : OneLine (s ++ t) ↔ OneLine s ∧ OneLine t := by
  simp [OneLine]

theorem oneLine_row {cells : List String} : OneLine (row cells) ↔ ∀ c ∈ cells, OneLine c := by
  have hbar : OneLine " | " := by simp [OneLine]
  have hinter : OneLine (" | ".intercalate cells) ↔ ∀ c ∈ cells, OneLine c := by
    induction cells with
    | nil => simp [OneLine]
    | cons c cs ih =>
      cases cs with
      | nil => simp
      | cons d cs => simp [String.intercalate_cons_cons, oneLine_append, hbar, ih]
  rw [row, oneLine_append, oneLine_append, hinter]
  simp [OneLine]

/-- The text stands in a cell without a change to the row. -/
def Fits (s : String) : Prop := OneLine s ∧ bars ' ' s.toList = 0

instance (s : String) : Decidable (Fits s) := inferInstanceAs (Decidable (¬_ ∧ _))

theorem fits_cell (s : String) : Fits (cell s) := ⟨oneLine_cell s, bars_cell ' ' s⟩

theorem fits_code : Fits (code s) ↔ Fits s := by
  have hend (p : Char) (s : List Char) : bars p (s ++ ['`']) = bars p s := by
    induction s generalizing p with
    | nil => simp [bars]
    | cons c s ih => simp [bars, ih]
  have hstart (s : List Char) : bars ' ' ('`' :: s) = bars '`' s := by simp [bars]
  have hline : (code s).toList = '`' :: (s.toList ++ ['`']) := by simp [code]
  rw [Fits, Fits, OneLine, hline, hstart, hend, bars_before (by decide) (by decide : ' ' ≠ '\\')]
  simp [OneLine]

theorem fits_of_not_mem (hn : '\n' ∉ s.toList) (hb : '|' ∉ s.toList) : Fits s := ⟨hn, bars_eq_zero hb⟩

theorem not_mem_digits (n : Nat) {c : Char} (hc : c.isDigit = false) : c ∉ Nat.toDigits 10 n := by
  intro h
  rw [Nat.isDigit_of_mem_toDigits (by decide) (by decide) h] at hc
  cases hc

theorem fits_nat (n : Nat) : Fits (toString n) := fits_of_not_mem (by simp [not_mem_digits]) (by simp [not_mem_digits])

theorem cellBars_eq_zero : cellBars cs = 0 ↔ ∀ c ∈ cs, bars ' ' c.toList = 0 := by
  induction cs with
  | nil => simp [cellBars]
  | cons c cs ih => rw [cellBars, Nat.add_eq_zero_iff, ih, forall_mem_cons]

theorem row_iff (hn : cs.length = n + 1) :
    OneLine (row cs) ∧ kindOf (row cs).toList = .row (n + 2) ↔ ∀ c ∈ cs, Fits c := by
  cases cs with
  | nil => cases hn
  | cons c cs =>
    obtain rfl : cs.length = n := Nat.succ.inj hn
    rw [oneLine_row, kindOf_row, LineKind.row.injEq, Nat.add_eq_left, cellBars_eq_zero, ← forall₂_and]
    rfl

/-! ### The shape of a report -/

structure FindingShape where
  severity : Severity
  ruleId : String
  described : Bool
  occurrences : Nat
  evidence : Nat
  remedied : Bool

structure Shape where
  title : String
  rules : Nat
  findings : List FindingShape
  diagnostics : Nat
  metadata : Nat

def findingShape (f : Finding) : FindingShape where
  severity := f.severity
  ruleId := f.ruleId
  described := f.description.any (!·.isEmpty)
  occurrences := f.occurrences.length
  evidence := f.evidence.length
  remedied := f.remediation.any (!·.isEmpty)

def shape (r : Report) : Shape where
  title := metadataText r.metadata "kind" "scan"
  rules := r.byRule.length
  findings := r.findings.map findingShape
  diagnostics := r.diagnostics.length
  metadata := r.metadata.length

def tableKinds (line : String) (bars rows : Nat) : List LineKind :=
  .row bars :: .separator line.toList :: replicate rows (.row bars)

def titleKinds (title : String) : List LineKind :=
  .heading ("# " ++ toolName ++ " " ++ title ++ " report").toList :: replicate 3 .text

def contentsKinds (findings : Nat) : List LineKind :=
  [LineKind.heading "## Table of Contents".toList, .text, .text, .text] ++ replicate findings LineKind.text
    ++ [LineKind.text, .text]

def summaryKinds : List LineKind :=
  [LineKind.heading "## Summary".toList, .text] ++ tableKinds "|----------|-------|" 3 6 ++ [LineKind.text]

def ruleKinds (rules : Nat) : List LineKind :=
  if rules = 0 then [] else tableKinds "|------|----------|" 3 rules ++ [LineKind.text]

def evidenceKinds (evidence : Nat) : List LineKind :=
  .text :: .fence "```json".toList :: replicate evidence .code ++ [LineKind.fence "```".toList, .text]

def findingKinds (o : Options) (s : FindingShape) (i : Nat) : List LineKind :=
  .heading ("### " ++ marker s.severity ++ " Finding " ++ toString i ++ ": " ++ s.ruleId).toList
    :: replicate 4 LineKind.text ++ tableKinds "|----------|-------|" 3 4 ++ [LineKind.text]
    ++ (if s.described then replicate 2 LineKind.text else [])
    ++ (if 1 < s.occurrences then .text :: replicate s.occurrences LineKind.text ++ [LineKind.text] else [])
    ++ (if o.evidence && s.evidence != 0 then evidenceKinds s.evidence else [])
    ++ (if s.remedied then replicate 3 LineKind.text else [])
    ++ [LineKind.separator "---".toList, .text]

def findingsKinds (o : Options) (findings : List FindingShape) : List LineKind :=
  [LineKind.heading "## Findings".toList, .text] ++ if findings.isEmpty then [.text, .text]
    else findings.zipIdx.flatMap fun e => findingKinds o e.1 (e.2 + 1)

def diagnosticsKinds (diagnostics : Nat) : List LineKind :=
  [LineKind.heading "## Diagnostics".toList, .text]
    ++ (if diagnostics = 0 then [.text] else tableKinds "|------|--------|---------|---------|" 5 diagnostics)
    ++ [LineKind.text]

def detailsKinds (metadata : Nat) : List LineKind :=
  if metadata = 0 then []
  else [LineKind.heading "## Run Details".toList, .text] ++ replicate metadata LineKind.text ++ [LineKind.text]

/-- The lines of the document of a report of the shape. -/
def kinds (o : Options) (s : Shape) : List LineKind :=
  titleKinds s.title
    ++ (if o.contents && !s.findings.isEmpty then contentsKinds s.findings.length else [])
    ++ summaryKinds ++ ruleKinds s.rules ++ findingsKinds o s.findings ++ diagnosticsKinds s.diagnostics
    ++ detailsKinds s.metadata ++ [.separator "---".toList, .text, .text]

def findingTexts (f : Finding) : List String :=
  [f.ruleId, f.message, f.location.text, shownText f.source, f.id] ++ f.description.toList ++ f.remediation.toList
    ++ if 1 < f.occurrences.length then f.occurrences.map (·.text) else []

/-- The texts that stand in a document as they are. -/
def texts (r : Report) : List String :=
  metadataText r.metadata "kind" "scan" :: metadataText r.metadata "target" "N/A"
    :: r.findings.flatMap findingTexts ++ r.diagnostics.map (·.kind)
    ++ r.metadata.flatMap fun e => [keyText e.1, formatValue e.2]

def findingCells (f : Finding) : List String := [f.location.text, shownText f.source, f.id]

/-- The texts among them that stand in tables. -/
def cells (r : Report) : List String :=
  r.findings.map (·.ruleId) ++ r.findings.flatMap findingCells ++ r.diagnostics.map (·.kind)

/-- The texts of a report leave the lines of its document as the shape of the report has them. -/
structure Tame (r : Report) : Prop where
  texts : ∀ t ∈ texts r, OneLine t
  cells : ∀ t ∈ cells r, bars ' ' t.toList = 0
  descriptions : ∀ f ∈ r.findings, ∀ s ∈ f.description, kindOf s.toList = .text

/-! ### Sections -/

theorem lays_table {line : String} (hline : OneLine line ∧ kindOf line.toList = .separator line.toList) {m : Nat}
    (head : List String) (rows : List (List String)) (hm : m = rows.length)
    (hrows : ∀ cs ∈ head :: rows, cs.length = n + 1) :
    Lays (tableKinds line (n + 2) m) (row head :: line :: rows.map row) (∀ cs ∈ head :: rows, ∀ c ∈ cs, Fits c) := by
  rw [forall_mem_cons] at hrows
  have hhead : Lays [.row (n + 2), .separator line.toList] [row head, line] (∀ c ∈ head, Fits c) :=
    ⟨rfl, rfl, by simpa [Laid, hline, lineKind, LineKind.isFence] using row_iff hrows.1⟩
  refine (hhead.append (Lays.map rfl row rows (fun cs hcs => row_iff (hrows.2 cs hcs)) hm)).congr ?_
  rw [forall_mem_cons]

theorem lays_header : Lays (titleKinds (metadataText r.metadata "kind" "scan")) (header r)
      (OneLine (metadataText r.metadata "kind" "scan") ∧ OneLine (metadataText r.metadata "target" "N/A")) :=
  ⟨rfl, rfl, by
    simp [titleKinds, header, Laid, replicate, lineKind, kindOf, LineKind.isFence, OneLine, code, toolName]⟩

theorem lays_footer : Lays [.separator "---".toList, .text, .text] footer True :=
  ⟨rfl, rfl, by simp [footer, Laid, lineKind, kindOf, LineKind.isFence, OneLine, toolName, toolVersion]⟩

theorem lays_contents :
    Lays (contentsKinds (shape r).findings.length) (contents r)
      (∀ f ∈ r.findings, OneLine f.ruleId ∧ OneLine f.message) := by
  have hstart : Lays [.heading "## Table of Contents".toList, .text, .text, .text]
      ["## Table of Contents", "", "- [Summary](#summary)", "- [Findings](#findings)"] True :=
    ⟨rfl, rfl, by simp [Laid, lineKind, kindOf, LineKind.isFence, OneLine]⟩
  have hlength : (shape r).findings.length = (numbered r).length := by simp [shape, numbered]
  have hend : Lays [.text, .text] ["- [Diagnostics](#diagnostics)", ""] True :=
    ⟨rfl, rfl, by simp [Laid, lineKind, kindOf, LineKind.isFence, OneLine]⟩
  refine ((hstart.append (Lays.map rfl _ (numbered r) (p := fun e => OneLine e.1.ruleId ∧ OneLine e.1.message)
    (fun e _ => by simp [OneLine, kindOf, not_mem_digits]) hlength)).append hend).congr ?_
  rw [true_and, and_true]
  constructor
  · intro h f hf
    obtain ⟨i, hi⟩ := mem_iff_getElem?.mp hf
    exact h (f, i + 1) (mem_map.mpr ⟨(f, i), mem_zipIdx_iff_getElem?.mpr hi, rfl⟩)
  · intro h e he
    obtain ⟨x, hx, rfl⟩ := mem_map.mp he
    exact h x.1 (fst_mem_of_mem_zipIdx hx)

theorem lays_summary : Lays summaryKinds (summary r) True := by
  have hname (s : Severity) : Fits (capitalize s.name) := by cases s <;> decide
  have htotal : Fits ("**" ++ toString r.findings.length ++ "**") :=
    fits_of_not_mem (by simp [not_mem_digits]) (by simp [not_mem_digits])
  have htable : Lays (tableKinds "|----------|-------|" 3 6) _ _ := lays_table (by simp [OneLine, kindOf])
    ["Severity", "Count"] (Severity.descending.map (fun s => [capitalize s.name, toString (r.count s)])
      ++ [["**Total**", "**" ++ toString r.findings.length ++ "**"]]) rfl (by simp [Severity.descending])
  refine (((Lays.heading (by simp [OneLine, kindOf])).append htable).append Lays.blank).congr ?_
  rw [true_and, and_true, iff_true, forall_mem_cons, forall_mem_append, forall_mem_map, forall_mem_singleton]
  refine ⟨by simp [Fits, OneLine, bars], fun s _ => ?_, ?_⟩
  · simpa [hname] using fits_nat _
  · exact forall_mem_cons.mpr ⟨by simp [Fits, OneLine, bars], forall_mem_singleton.mpr htotal⟩

theorem lays_byRule : Lays (ruleKinds r.byRule.length) (byRule r) (∀ e ∈ r.byRule, Fits e.1) := by
  have htable : Lays (tableKinds "|------|----------|" 3 r.byRule.length) _ _ := lays_table (by simp [OneLine, kindOf])
    ["Rule", "Findings"] (r.byRule.map fun e => [e.1, toString e.2]) (by simp)
    (forall_mem_cons.mpr ⟨rfl, forall_mem_map.mpr fun _ _ => rfl⟩)
  rw [map_map] at htable
  refine Lays.ite (by simp) (fun h => ?_) fun _ => (htable.append Lays.blank).congr ?_
  · simpa [List.isEmpty_iff.mp h] using Lays.nil
  · rw [and_true, forall_mem_cons, forall_mem_map, and_iff_right (by simp [Fits, OneLine, bars])]
    refine forall₂_congr fun e _ => ?_
    rw [forall_mem_cons, forall_mem_singleton, and_iff_left (fits_nat _)]

theorem lays_diagnostics :
    Lays (diagnosticsKinds r.diagnostics.length) (diagnostics r) (∀ d ∈ r.diagnostics, Fits d.kind) := by
  have htable : Lays (tableKinds "|------|--------|---------|---------|" 5 r.diagnostics.length) _ _ :=
    lays_table (by simp [OneLine, kindOf]) ["Kind", "Source", "Subject", "Message"]
      (r.diagnostics.map fun d => [d.kind, cell d.source, code (cell d.subject), cell d.message]) (by simp) (by simp)
  rw [map_map] at htable
  refine (((Lays.heading (by simp [OneLine, kindOf])).append (Lays.ite (P := ∀ d ∈ r.diagnostics, Fits d.kind)
    (by simp) (fun h => ?_) fun _ => htable.congr ?_)).append Lays.blank).congr (by simp)
  · rw [List.isEmpty_iff.mp h]
    exact ⟨rfl, rfl, by simp [Laid, lineKind, kindOf, OneLine]⟩
  · rw [forall_mem_cons, forall_mem_map, and_iff_right (by simp [Fits, OneLine, bars])]
    simp [fits_cell, fits_code]

theorem lays_runDetails :
    Lays (detailsKinds r.metadata.length) (runDetails r)
      (∀ e ∈ r.metadata, OneLine (keyText e.1) ∧ OneLine (formatValue e.2)) := by
  have hlength : r.metadata.length = r.sortedMetadata.length := by simp [sortedMetadata]
  refine Lays.ite (by simp) (fun h => ?_) fun _ => (((Lays.heading (by simp [OneLine, kindOf])).append
    (Lays.map rfl _ r.sortedMetadata (p := fun e => OneLine (keyText e.1) ∧ OneLine (formatValue e.2))
      (fun e _ => by simp [OneLine, kindOf, code]) hlength)).append Lays.blank).congr ?_
  · simpa [List.isEmpty_iff.mp h] using Lays.nil
  · simp [sortedMetadata]

theorem lineKind_canonical (v : Value) : lineKind true (canonical v).toList = .code := by
  have hread := readsBack_canonical v
  obtain ⟨c, s, htext, hc, -⟩ := hread.starts
  have hblank : c ≠ ' ' := by
    rintro rfl
    cases hc
  have htick : c ≠ '`' := by
    -- no value is read from a text that begins so
    rintro rfl
    have hread := hread.reads _ [] (Nat.le_refl _) endsNumber_nil
    rw [htext] at hread
    cases hread
  have hfence : ((kindOf (canonical v).toList).isFence) = false := by
    have hdrop : (c :: s).dropWhile (· == ' ') = c :: s := by simp [hblank]
    unfold kindOf
    rw [htext, hdrop]
    split
    · next e => exact absurd (List.cons.inj e).1 htick
    · split <;> rfl
    all_goals rfl
  rw [lineKind, hfence]
  rfl

theorem lays_evidence (evidence : List Evidence) :
    Lays (evidenceKinds evidence.length) ("**Evidence:**" :: "```json" :: evidence.map Evidence.text ++ ["```", ""])
      True := by
  have hcode : Laid true (replicate evidence.length .code) (evidence.map Evidence.text) := by
    rw [← length_map Evidence.text, laid_replicate rfl, forall_mem_map]
    exact fun e _ => ⟨newline_not_mem_renderAt ⟨rfl, by decide, by decide⟩ e.value 0, lineKind_canonical e.value⟩
  refine ⟨by simp [evidenceKinds], ?_, iff_true_intro ?_⟩
  · rw [evidenceKinds, cons_append, cons_append]
    show after true _ = false
    rw [after_append, after_replicate rfl]
    rfl
  · refine ⟨⟨by simp [OneLine], rfl⟩, ⟨by simp [OneLine], rfl⟩, (laid_append (by simp)).mpr ⟨hcode, ?_⟩⟩
    show Laid (after true _) _ _
    rw [after_replicate rfl]
    exact ⟨⟨by simp [OneLine], rfl⟩, ⟨by simp [OneLine], rfl⟩, trivial⟩

theorem lays_start (i : Nat) :
    Lays (.heading ("### " ++ marker f.severity ++ " Finding " ++ toString i ++ ": " ++ f.ruleId).toList
        :: replicate 4 .text) ["### " ++ marker f.severity ++ " Finding " ++ toString i ++ ": " ++ f.ruleId,
        "<a id=\"finding-" ++ toString i ++ "\"></a>", "", "**" ++ f.message ++ "**", ""]
      (OneLine f.ruleId ∧ OneLine f.message) := by
  have hmarker : '\n' ∉ (marker f.severity).toList := by cases f.severity <;> simp [marker]
  exact ⟨rfl, rfl, by
    simp [Laid, replicate, lineKind, kindOf, LineKind.isFence, OneLine, hmarker, not_mem_digits]⟩

theorem lays_properties : Lays (tableKinds "|----------|-------|" 3 4)
      [row ["Property", "Value"], "|----------|-------|",
        row ["Severity", upper f.severity.name], row ["Location", code f.location.text],
        row ["Source", shownText f.source], row ["Id", code f.id]]
      (Fits f.location.text ∧ Fits (shownText f.source) ∧ Fits f.id) := by
  have hname : Fits (upper f.severity.name) := by cases f.severity <;> decide
  have hlabels : Fits "Property" ∧ Fits "Value" ∧ Fits "Severity" ∧ Fits "Location" ∧ Fits "Source" ∧ Fits "Id" := by
    simp [Fits, OneLine, bars]
  refine (lays_table (by simp [OneLine, kindOf]) ["Property", "Value"] [["Severity", upper f.severity.name],
    ["Location", code f.location.text], ["Source", shownText f.source], ["Id", code f.id]] rfl (by simp)).congr ?_
  simp [hname, hlabels, fits_code]

theorem lays_description :
    Lays (if (findingShape f).described then replicate 2 .text else []) (said f.description fun s => [s, ""])
      (∀ s ∈ f.description, OneLine s ∧ kindOf s.toList = .text) := by
  refine Lays.said f.description _ (by simp [OneLine, kindOf]) fun s => ⟨rfl, rfl, ?_⟩
  have hblank : Laid false [.text] [""] := Lays.blank.iff.mpr trivial
  exact and_iff_left hblank

theorem lays_occurrences :
    Lays (if 1 < (findingShape f).occurrences then .text :: replicate (findingShape f).occurrences .text ++ [.text]
        else [])
      (only (1 < f.occurrences.length) ("**Occurrences:**" :: f.occurrences.map (fun l => "- " ++ code l.text) ++ [""]))
      (1 < f.occurrences.length → ∀ l ∈ f.occurrences, OneLine l.text) := by
  have hstart : Lays [.text] ["**Occurrences:**"] True := ⟨rfl, rfl, by simp [Laid, lineKind, kindOf, OneLine]⟩
  refine (Lays.only (by simp [findingShape]) ((hstart.append (Lays.map rfl _ f.occurrences
    (p := fun l => OneLine l.text) (fun l _ => by simp [OneLine, kindOf, code]) rfl)).append Lays.blank)).congr ?_
  simp [findingShape]

theorem lays_remediation : Lays (if (findingShape f).remedied then replicate 3 .text else [])
      (said f.remediation fun s => ["**Remediation:**", "> " ++ s, ""]) (∀ s ∈ f.remediation, OneLine s) := by
  refine Lays.said f.remediation _ (by simp [OneLine]) fun s => ⟨rfl, rfl, ?_⟩
  simp [Laid, replicate, lineKind, kindOf, LineKind.isFence, OneLine]

def TameFinding (f : Finding) : Prop :=
  (∀ t ∈ findingTexts f, OneLine t) ∧ (∀ t ∈ findingCells f, bars ' ' t.toList = 0) ∧
    ∀ s ∈ f.description, kindOf s.toList = .text

theorem forall_findingTexts {f : Finding} :
    (∀ t ∈ findingTexts f, p t) ↔ (p f.ruleId ∧ p f.message ∧ p f.location.text ∧ p (shownText f.source) ∧ p f.id) ∧
      (∀ s ∈ f.description, p s) ∧ (∀ s ∈ f.remediation, p s) ∧
      (1 < f.occurrences.length → ∀ l ∈ f.occurrences, p l.text) := by
  simp only [findingTexts, forall_mem_append, forall_mem_cons, Option.mem_toList, and_assoc]
  split <;> simp [*]

theorem lays_finding (i : Nat) : Lays (findingKinds o (findingShape f) i) (finding o f i) (TameFinding f) := by
  have hcount : (o.evidence && f.evidence.length != 0) = true ↔ (o.evidence && !f.evidence.isEmpty) = true := by
    simp
  have hend : Lays [.separator "---".toList, .text] ["---", ""] True :=
    ⟨rfl, rfl, by simp [Laid, lineKind, kindOf, LineKind.isFence, OneLine]⟩
  refine ((((((((lays_start f i).append (lays_properties f)).append Lays.blank).append (lays_description f)).append
    (lays_occurrences f)).append (Lays.only hcount (lays_evidence f.evidence))).append
    (lays_remediation f)).append hend).congr ?_
  simp only [TameFinding, forall_findingTexts, findingCells, Fits, forall_mem_cons, forall₂_and]
  grind

theorem lays_numbered (fs : List Finding) (n : Nat) :
    Lays (((fs.map findingShape).zipIdx n).flatMap fun e => findingKinds o e.1 (e.2 + 1))
      (((fs.zipIdx n).map fun e => (e.1, e.2 + 1)).flatMap fun e => finding o e.1 e.2) (∀ f ∈ fs, TameFinding f) := by
  induction fs generalizing n with
  | nil => exact Lays.nil.congr (by simp)
  | cons f fs ih =>
    refine ((lays_finding o f (n + 1)).append (ih (n + 1))).congr ?_
    rw [forall_mem_cons]

theorem lays_findings :
    Lays (findingsKinds o (r.findings.map findingShape)) (findings o r) (∀ f ∈ r.findings, TameFinding f) := by
  refine ((Lays.heading (by simp [OneLine, kindOf])).append (Lays.ite (by simp) (fun h => ?_)
    fun _ => lays_numbered o r.findings 0)).congr (by simp)
  rw [List.isEmpty_iff.mp h]
  exact ⟨rfl, rfl, by simp [Laid, lineKind, kindOf, LineKind.isFence, OneLine]⟩

theorem forall_mem_texts {r : Report} :
    (∀ t ∈ texts r, p t) ↔ (p (metadataText r.metadata "kind" "scan") ∧ p (metadataText r.metadata "target" "N/A")) ∧
      (∀ f ∈ r.findings, ∀ t ∈ findingTexts f, p t) ∧ (∀ d ∈ r.diagnostics, p d.kind) ∧
      ∀ e ∈ r.metadata, p (keyText e.1) ∧ p (formatValue e.2) := by
  simp only [texts, forall_mem_append, forall_mem_cons, forall_mem_map, forall_mem_flatMap,
    not_mem_nil, and_assoc, false_implies, implies_true, and_true]

theorem forall_mem_byRule {r : Report} : (∀ e ∈ r.byRule, p e.1) ↔ ∀ f ∈ r.findings, p f.ruleId := by
  simp [Report.byRule, ruleIds]

theorem lays_lines : Lays (kinds o (shape r)) (lines o r) (Tame r) := by
  have hempty : (o.contents && !(shape r).findings.isEmpty) = true ↔ (o.contents && !r.findings.isEmpty) = true := by
    simp [shape]
  refine ((((((((lays_header r).append (Lays.only hempty (lays_contents r))).append (lays_summary r)).append
    (lays_byRule r)).append (lays_findings o r)).append (lays_diagnostics r)).append (lays_runDetails r)).append
    lays_footer).congr ?_
  rw [forall_mem_byRule]
  constructor
  · rintro ⟨⟨⟨⟨⟨⟨⟨htitle, -⟩, -⟩, hrules⟩, hfindings⟩, hdiagnostics⟩, hmetadata⟩, -⟩
    refine ⟨forall_mem_texts.mpr ⟨htitle, fun f hf => (hfindings f hf).1, fun d hd => (hdiagnostics d hd).1, hmetadata⟩,
      ?_, fun f hf => (hfindings f hf).2.2⟩
    simp only [cells, forall_mem_append, forall_mem_map, forall_mem_flatMap]
    exact ⟨⟨fun f hf => (hrules f hf).2, fun f hf => (hfindings f hf).2.1⟩, fun d hd => (hdiagnostics d hd).2⟩
  · intro h
    obtain ⟨htitle, hfindings, hdiagnostics, hmetadata⟩ := forall_mem_texts.mp h.texts
    have hcells := h.cells
    simp only [cells, forall_mem_append, forall_mem_map, forall_mem_flatMap] at hcells
    have hid (f : Finding) (hf : f ∈ r.findings) : OneLine f.ruleId ∧ OneLine f.message :=
      have := (forall_findingTexts.mp (hfindings f hf)).1
      ⟨this.1, this.2.1⟩
    exact ⟨⟨⟨⟨⟨⟨⟨htitle, fun _ => hid⟩, trivial⟩, fun f hf => ⟨(hid f hf).1, hcells.1.1 f hf⟩⟩,
      fun f hf => ⟨hfindings f hf, hcells.1.2 f hf, h.descriptions f hf⟩⟩,
      fun d hd => ⟨hdiagnostics d hd, hcells.2 d hd⟩⟩, hmetadata⟩, trivial⟩

/-! ### Lines of documents -/

theorem length_outline (b : Bool) (ls : List (List Char)) : (outline b ls).length = ls.length := by
  induction ls generalizing b with
  | nil => rfl
  | cons l ls ih => rw [outline, length_cons, length_cons, ih]

theorem count_intercalate (sep : Char) (l : List Char) (ls : List (List Char)) :
    ([sep].intercalate (l :: ls)).count sep = (l :: ls).flatten.count sep + ls.length := by
  induction ls generalizing l with
  | nil => simp [List.intercalate]
  | cons l' ls ih =>
    have hcons : [sep].intercalate (l :: l' :: ls) = l ++ sep :: [sep].intercalate (l' :: ls) := by
      simp [List.intercalate]
    rw [hcons, count_append, count_cons_self, ih]
    simp only [flatten_cons, count_append, length_cons]
    omega

/-- Joined lines come apart into as many lines if none of them has a newline. -/
theorem length_splitOnChar_intercalate {sep : Char} {ls : List (List Char)}
    (h : (splitOnChar sep ([sep].intercalate ls)).length = ls.length) :
    ∀ l ∈ ls, sep ∉ l := by
  cases ls with
  | nil => simp
  | cons l ls =>
    rw [length_splitOnChar, count_intercalate, length_cons] at h
    have hcount : (l :: ls).flatten.count sep = 0 := by omega
    intro l' hl' hmem
    exact count_eq_zero.mp hcount (mem_flatten.mpr ⟨l', hl', hmem⟩)

def documentLines (o : Options) (r : Report) : List (List Char) := splitOnChar '\n' (render o r).toList

theorem documentLines_eq :
    documentLines o r = splitOnChar '\n' (['\n'].intercalate ((lines o r).map String.toList)) := by
  rw [documentLines, render, String.toList_intercalate]
  rfl

theorem lines_ne_nil : lines o r ≠ [] := by
  simp [lines, footer]

theorem outline_eq_kinds_iff : outline false (documentLines o r) = kinds o (shape r) ↔ Tame r := by
  have hlays := lays_lines o r
  -- lines without newlines are the lines of the document
  have hsplit (h : ∀ l ∈ lines o r, OneLine l) : documentLines o r = (lines o r).map String.toList := by
    rw [documentLines_eq]
    exact splitOnChar_intercalate (by simp [lines_ne_nil]) (forall_mem_map.mpr h)
  rw [← hlays.iff, laid_iff hlays.length]
  constructor
  · intro h
    have hlength := congrArg List.length h
    rw [length_outline, hlays.length, documentLines_eq, ← length_map String.toList] at hlength
    have hone := forall_mem_map.mp (length_splitOnChar_intercalate hlength)
    exact ⟨hone, hsplit hone ▸ h⟩
  · rintro ⟨hone, h⟩
    rw [hsplit hone, h]

/-- The lines of a document are those that the shape of its report gives exactly if the texts of the report are
    tame, so of two reports of one shape, the first one tame, the second one has such lines too exactly if it is
    tame. -/
theorem outline_of_shape (o : Options) (r s : Report) :
    (outline false (documentLines o r) = kinds o (shape r) ↔ Tame r) ∧ (shape s = shape r → Tame r →
        (outline false (documentLines o s) = outline false (documentLines o r) ↔ Tame s)) := by
  refine ⟨outline_eq_kinds_iff o r, fun hshape hr => ?_⟩
  rw [(outline_eq_kinds_iff o r).mpr hr, ← hshape]
  exact outline_eq_kinds_iff o s

def sampleReport (message : String) : Report where
  findings := [{ id := "F1", ruleId := "R1", severity := .high, location := ⟨"a.rs", none, none⟩, message }]

theorem shape_sampleReport (m m' : String) : shape (sampleReport m) = shape (sampleReport m') := by
  simp [shape, findingShape, sampleReport, Report.byRule, ruleIds]

theorem tame_sampleReport {m : String} (h : OneLine m) : Tame (sampleReport m) := by
  have htexts : texts (sampleReport m) = ["scan", "N/A", "R1", m, "a.rs", "static", "F1", "", ""] := rfl
  have hcells : cells (sampleReport m) = ["R1", "a.rs", "static", "F1"] := rfl
  refine ⟨?_, ?_, ?_⟩
  · simpa [htexts, OneLine] using h
  · simp [hcells, bars]
  · simp [sampleReport, kindOf]

/-- Bars and hash marks in a message change nothing. -/
theorem outline_of_shape_sampleReport :
    outline false (documentLines {} (sampleReport "# a | b")) =
      outline false (documentLines {} (sampleReport "overflow")) :=
  ((outline_of_shape {} (sampleReport "overflow") (sampleReport "# a | b")).2 (shape_sampleReport _ _)
    (tame_sampleReport (by simp [OneLine]))).mpr (tame_sampleReport (by simp [OneLine]))

/-- A newline in a message adds a line, here a heading, to the document of a report of the same shape. -/
theorem message_adds_heading : shape (sampleReport "overflow\n## Summary") = shape (sampleReport "overflow") ∧
      outline false (documentLines {} (sampleReport "overflow\n## Summary")) ≠
        outline false (documentLines {} (sampleReport "overflow")) := by
  have hshape := shape_sampleReport "overflow\n## Summary" "overflow"
  refine ⟨hshape, fun h => ?_⟩
  have hplain : Tame (sampleReport "overflow") := tame_sampleReport (by simp [OneLine])
  rw [(outline_eq_kinds_iff _ _).mpr hplain, ← hshape] at h
  have hmessage := ((outline_eq_kinds_iff _ _).mp h).texts "overflow\n## Summary"
    (by simp [texts, sampleReport, findingTexts])
  exact hmessage (by simp)

end ContractAudit.Markdown

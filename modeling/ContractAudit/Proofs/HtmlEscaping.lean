import ContractAudit.Report.Html

/-! # HTML reports without injection

A document is a frame with holes, the same for all reports of a shape. -/

namespace ContractAudit.Html
open List Piece
variable {s r : Report} {α : Type} {f g : Finding}
variable (l : Line) (n : Nat) (lines : List Line)

/-! ### Entities -/

/-- Texts without a character of markup, but for entities. -/
inductive Escaped : List Char → Prop
  | nil : Escaped []
  | plain {c : Char} {s : List Char} : c ∉ ['&', '<', '>', '\'', '"'] → Escaped s → Escaped (c :: s)
  | entity {e : String} {s : List Char} : e ∈ ["&amp;", "&lt;", "&gt;", "&#39;", "&#34;"] → Escaped s →
      Escaped (e.toList ++ s)

def unescape : List Char → List Char
  | [] => []
  | '&' :: 'a' :: 'm' :: 'p' :: ';' :: s => '&' :: unescape s
  | '&' :: 'l' :: 't' :: ';' :: s => '<' :: unescape s
  | '&' :: 'g' :: 't' :: ';' :: s => '>' :: unescape s
  | '&' :: '#' :: '3' :: '9' :: ';' :: s => '\'' :: unescape s
  | '&' :: '#' :: '3' :: '4' :: ';' :: s => '"' :: unescape s
  | c :: s => c :: unescape s

theorem escapeChar_cases (c : Char) : c ∉ ['&', '<', '>', '\'', '"'] ∧ escapeChar c = [c] ∨
      ∃ e ∈ ["&amp;", "&lt;", "&gt;", "&#39;", "&#34;"], escapeChar c = e.toList ∧
        ∀ s, unescape (e.toList ++ s) = c :: unescape s := by
  by_cases hc : c ∈ ['&', '<', '>', '\'', '"']
  · right
    simp only [mem_cons, not_mem_nil, or_false] at hc
    rcases hc with rfl | rfl | rfl | rfl | rfl
    · exact ⟨"&amp;", by decide, rfl, fun _ => rfl⟩
    · exact ⟨"&lt;", by decide, rfl, fun _ => rfl⟩
    · exact ⟨"&gt;", by decide, rfl, fun _ => rfl⟩
    · exact ⟨"&#39;", by decide, rfl, fun _ => rfl⟩
    · exact ⟨"&#34;", by decide, rfl, fun _ => rfl⟩
  · left
    refine ⟨hc, ?_⟩
    simp only [mem_cons, not_mem_nil, or_false, not_or] at hc
    obtain ⟨hamp, hlt, hgt, happos, hquot⟩ := hc
    unfold escapeChar
    split
    · exact absurd rfl hamp
    · exact absurd rfl hlt
    · exact absurd rfl hgt
    · exact absurd rfl happos
    · exact absurd rfl hquot
    · rfl

theorem unescape_cons {c : Char} (h : c ≠ '&') (s : List Char) : unescape (c :: s) = c :: unescape s := by
  rw [unescape] <;> simp [h]

theorem escaped_flatMap (s : List Char) : Escaped (s.flatMap escapeChar) := by
  induction s with
  | nil => exact .nil
  | cons c s ih =>
    rw [flatMap_cons]
    rcases escapeChar_cases c with ⟨hc, hplain⟩ | ⟨e, he, hentity, -⟩
    · exact hplain ▸ .plain hc ih
    · exact hentity ▸ .entity he ih

theorem unescape_flatMap (s : List Char) : unescape (s.flatMap escapeChar) = s := by
  induction s with
  | nil => rfl
  | cons c s ih =>
    rw [flatMap_cons]
    rcases escapeChar_cases c with ⟨hc, hplain⟩ | ⟨e, -, hentity, hshown⟩
    · rw [hplain, singleton_append, unescape_cons (fun h => hc (h ▸ mem_cons_self ..)), ih]
    · rw [hentity, hshown, ih]

theorem Escaped.not_mem {s : List Char} (h : Escaped s) : ∀ c ∈ ['<', '>', '\'', '"'], c ∉ s := by
  intro c hc hs
  induction h with
  | nil => exact not_mem_nil hs
  | plain hplain _ ih =>
    rcases mem_cons.mp hs with rfl | hs
    · exact hplain (mem_cons_of_mem _ hc)
    · exact ih hs
  | @entity e s he _ ih =>
    refine (mem_append.mp hs).elim (fun hs => ?_) ih
    simp only [mem_cons, not_mem_nil, or_false] at hc he
    rcases he with rfl | rfl | rfl | rfl | rfl <;> rcases hc with rfl | rfl | rfl | rfl <;>
      exact absurd hs (by decide)

/-! ### Frames -/

/-- The markup of a piece; a text is a hole. -/
def Piece.markup? : Piece → Option String
  | .markup s => some s
  | .text _ => none

def Piece.text? : Piece → Option String
  | .markup _ => none
  | .text s => some s

def skeleton (lines : List Line) : List (List (Option String)) := lines.map (List.map markup?)

def textsOf (lines : List Line) : List String := lines.flatMap (List.filterMap text?)

def joined (frame : List (List (Option String))) : List (Option String) := [some "\n"].intercalate frame

def fill : List (Option String) → List String → String
  | [], _ => ""
  | some s :: frame, texts => s ++ fill frame texts
  | none :: frame, [] => fill frame []
  | none :: frame, t :: texts => t ++ fill frame texts

theorem joined_cons (l l' : List (Option String)) (frame : List (List (Option String))) :
    joined (l :: l' :: frame) = l ++ some "\n" :: joined (l' :: frame) := by
  simp [joined, List.intercalate]

theorem fill_line (frame : List (Option String)) (texts : List String) :
    fill (l.map markup? ++ frame) ((l.filterMap text?).map escape ++ texts) = renderLine l ++ fill frame texts := by
  induction l with
  | nil => simp [renderLine]
  | cons p l ih =>
    cases p with
    | markup s =>
      simp only [map_cons, markup?, filterMap_cons, text?, cons_append, fill, ih]
      simp [renderLine, Piece.render, String.append_assoc]
    | text s =>
      simp only [map_cons, markup?, filterMap_cons, text?, cons_append, fill, ih]
      simp [renderLine, Piece.render, String.append_assoc]

theorem skeleton_cons : skeleton (l :: lines) = l.map markup? :: skeleton lines := rfl

theorem textsOf_cons : textsOf (l :: lines) = l.filterMap text? ++ textsOf lines := rfl

theorem render_lines :
    "\n".intercalate (lines.map renderLine) = fill (joined (skeleton lines)) ((textsOf lines).map escape) := by
  induction lines with
  | nil => rfl
  | cons l lines ih =>
    rw [textsOf_cons, map_append]
    cases lines with
    | nil => simpa [skeleton, joined, fill, textsOf] using (fill_line l [] []).symm
    | cons l' lines =>
      rw [skeleton_cons, skeleton_cons, joined_cons, fill_line, fill, ← skeleton_cons, ← ih]
      simp [String.intercalate_cons_cons, String.append_assoc]

theorem count_line : (l.map markup?).count none = (l.filterMap text?).length := by
  induction l with
  | nil => rfl
  | cons p l ih => cases p <;> simp [markup?, text?, filterMap_cons, ih]

theorem count_joined : (joined (skeleton lines)).count none = (textsOf lines).length := by
  induction lines with
  | nil => rfl
  | cons l lines ih =>
    rw [textsOf_cons, length_append, ← count_line]
    cases lines with
    | nil => simp [skeleton, joined, textsOf]
    | cons l' lines =>
      rw [skeleton_cons, skeleton_cons, joined_cons, count_append, ← skeleton_cons, ← ih]
      simp

/-- The characters that open and close tags and attributes, in their order. -/
def marks (s : String) : List Char := s.toList.filter (· ∈ ['<', '>', '"'])

theorem marks_escape (s : String) : marks (escape s) = [] := by
  refine filter_eq_nil_iff.mpr fun c hc hmark => ?_
  have hmem : c ∈ ['<', '>', '\'', '"'] := by
    simp only [mem_cons, not_mem_nil, or_false, decide_eq_true_eq] at hmark ⊢
    rcases hmark with h | h | h <;> simp [h]
  rw [escape, String.toList_ofList] at hc
  exact (escaped_flatMap s.toList).not_mem c hmem hc

theorem marks_append (s t : String) : marks (s ++ t) = marks s ++ marks t := by
  simp [marks]

theorem marks_fill (frame : List (Option String)) (texts : List String) :
    marks (fill frame (texts.map escape)) = frame.flatMap fun m => marks (m.getD "") := by
  induction frame generalizing texts with
  | nil => rfl
  | cons m frame ih =>
    cases m with
    | some s => rw [fill, marks_append, ih, flatMap_cons, Option.getD_some]
    | none =>
      rw [flatMap_cons, Option.getD_none]
      cases texts with
      | nil => exact ih []
      | cons t texts => rw [map_cons, fill, marks_append, marks_escape, ih]; rfl

/-! ### The texts of a document -/

section texts
variable (n : Nat)

@[simp] theorem textsOf_nil : textsOf [] = [] := rfl

@[simp] theorem textsOf_append (a b : List Line) : textsOf (a ++ b) = textsOf a ++ textsOf b := by
  simp [textsOf]

@[simp] theorem textsOf_tag (s : String) (lines : List Line) : textsOf (tag n s :: lines) = textsOf lines := by
  rw [textsOf_cons, tag]
  rfl

@[simp] theorem textsOf_wrap (before text after : String) (lines : List Line) :
    textsOf (wrap n before text after :: lines) = text :: textsOf lines := by
  rw [textsOf_cons, wrap, tag]
  rfl

@[simp] theorem textsOf_wrap_append (before text between text' after : String) (lines : List Line) :
    textsOf ((wrap n before text between ++ [.text text', .markup after]) :: lines) =
      text :: text' :: textsOf lines := by
  rw [textsOf_cons, wrap, tag]
  rfl

@[simp] theorem textsOf_block (parts : List (List Line)) : textsOf (block n parts) = parts.flatMap textsOf := by
  rw [block, textsOf_tag]
  induction parts with
  | nil => rfl
  | cons part parts ih => simp [ih]

@[simp] theorem textsOf_blockIf (b : Bool) (lines : List Line) :
    textsOf (blockIf n b lines) = if b then textsOf lines else [] := by
  cases b <;> simp [blockIf]

end texts

def findingTexts (f : Finding) : List String :=
  [f.id, f.severity.name, f.ruleId, f.message, f.severity.name, Text.upper f.severity.name, f.location.text,
    shownText f.source] ++
  f.description.toList.filter (!·.isEmpty) ++
  (if 1 < f.occurrences.length then f.occurrences.map Location.text else []) ++
  f.evidence.map Evidence.text ++
  f.remediation.toList.filter (!·.isEmpty)

variable (r)

def texts : List String :=
  let title := toolName ++ " " ++ metadataText r.metadata "kind" "scan" ++ " report"
  [title, title, metadataText r.metadata "target" "N/A", toString r.findings.length] ++
  Severity.descending.flatMap (fun s => [Text.capitalize s.name, s.name, toString (r.count s)]) ++
  r.findings.flatMap findingTexts ++
  r.diagnostics.flatMap (fun d => [d.kind, d.source, d.subject, d.message]) ++
  r.sortedMetadata.flatMap (fun e => [Json.keyText e.1, formatValue e.2]) ++
  [toolVersion]

theorem flatMap_singleton_textsOf (l : List α) (n : Nat) (before after : String) (text : α → String) :
    (l.map fun a => [wrap n before (text a) after]).flatMap textsOf = l.map text := by
  rw [flatMap_map]
  exact map_eq_flatMap.symm

theorem textsOf_occurrenceList (f : Finding) : textsOf (occurrenceList f) = f.occurrences.map Location.text := by
  simp [occurrenceList, flatMap_singleton_textsOf]

theorem textsOf_evidenceList (f : Finding) : textsOf (evidenceList f) = f.evidence.map Evidence.text := by
  simp [evidenceList, flatMap_singleton_textsOf]

theorem ite_shown (t : Option String) :
    (if t.any (!·.isEmpty) = true then [t.getD ""] else []) = t.toList.filter (!·.isEmpty) := by
  cases t with
  | none => rfl
  | some t => cases h : t.isEmpty <;> simp [h]

theorem textsOf_findingLines (f : Finding) : textsOf (findingLines f) = findingTexts f := by
  have hevidence : (if (!f.evidence.isEmpty) = true then f.evidence.map Evidence.text else []) =
      f.evidence.map Evidence.text := by
    cases f.evidence <;> rfl
  simp only [findingLines, findingTexts, textsOf_append, textsOf_tag, textsOf_wrap, textsOf_wrap_append, textsOf_nil,
    textsOf_blockIf, textsOf_occurrenceList, textsOf_evidenceList, ite_shown, hevidence, append_nil,
    decide_eq_true_eq]

theorem textsOf_styles : textsOf (styles.map styleLine) = [] := by
  induction styles with
  | nil => rfl
  | cons s styles ih => exact ih

theorem textsOf_summary : textsOf (summary r) = toString r.findings.length ::
    Severity.descending.flatMap fun s => [Text.capitalize s.name, s.name, toString (r.count s)] := by
  simp only [summary, textsOf_append, textsOf_tag, textsOf_wrap, textsOf_block, textsOf_nil, flatMap_map,
    append_nil, cons_append, nil_append]
  rfl

theorem textsOf_findings : textsOf (findings r) = r.findings.flatMap findingTexts := by
  simp only [findings, cons_append, textsOf_tag, textsOf_append, textsOf_block, textsOf_nil, append_nil]
  cases h : r.findings with
  | nil => rfl
  | cons f fs => simp [flatMap_map, textsOf_findingLines]

theorem textsOf_diagnostics :
    textsOf (diagnostics r) = r.diagnostics.flatMap fun d => [d.kind, d.source, d.subject, d.message] := by
  simp only [diagnostics, cons_append, textsOf_tag, textsOf_append, textsOf_block, textsOf_nil, append_nil]
  cases h : r.diagnostics with
  | nil => rfl
  | cons d ds => simp [flatMap_map, diagnosticRow]

theorem textsOf_runDetails :
    textsOf (runDetails r) = r.sortedMetadata.flatMap fun e => [Json.keyText e.1, formatValue e.2] := by
  have hempty : r.metadata = [] → r.sortedMetadata = [] := fun h => by simp [Report.sortedMetadata, h]
  simp only [runDetails, textsOf_blockIf, textsOf_append, textsOf_tag, textsOf_block, textsOf_nil, append_nil,
    nil_append, flatMap_map, textsOf_wrap_append]
  cases h : r.metadata with
  | nil => simp [hempty h]
  | cons e es => simp

theorem textsOf_document : textsOf (document r) = texts r := by
  simp only [document, head, banner, footer, texts, textsOf_append, textsOf_tag, textsOf_wrap, textsOf_nil,
    textsOf_styles, textsOf_summary, textsOf_findings, textsOf_diagnostics, textsOf_runDetails, cons_append,
    nil_append, append_assoc]

/-! ### The frame of a shape -/

structure FindingShape where
  described : Bool
  occurrences : Nat
  evidence : Nat
  remedied : Bool
deriving DecidableEq

structure Shape where
  findings : List FindingShape
  diagnostics : Nat
  metadata : Nat
deriving DecidableEq

def findingShape (f : Finding) : FindingShape where
  described := f.description.any (!·.isEmpty)
  occurrences := f.occurrences.length
  evidence := f.evidence.length
  remedied := f.remediation.any (!·.isEmpty)

def shape : Shape where
  findings := r.findings.map findingShape
  diagnostics := r.diagnostics.length
  metadata := r.metadata.length

variable {r}

def FindingShape.blank (s : FindingShape) : Finding where
  id := ""
  ruleId := ""
  severity := .info
  location := { path := "" }
  message := ""
  description := if s.described then some " " else none
  remediation := if s.remedied then some " " else none
  evidence := replicate s.evidence (.of (.str ""))
  occurrences := replicate s.occurrences { path := "" }

/-- A report of a shape that says as little as can be. -/
def Shape.blank (s : Shape) : Report where
  findings := s.findings.map FindingShape.blank
  diagnostics := replicate s.diagnostics { source := "", kind := "", subject := "", message := "" }
  metadata := replicate s.metadata (.str "", .str "")

theorem findingShape_blank (s : FindingShape) : findingShape s.blank = s := by
  obtain ⟨described, occurrences, evidence, remedied⟩ := s
  cases described <;> cases remedied <;> simp +decide [findingShape, FindingShape.blank]

theorem shape_blank (s : Shape) : shape s.blank = s := by
  have hfindings : findingShape ∘ FindingShape.blank = id := funext findingShape_blank
  simp [shape, Shape.blank, hfindings]

theorem skeleton_append (a b : List Line) : skeleton (a ++ b) = skeleton a ++ skeleton b := map_append

theorem skeleton_block_congr {ps qs : List (List Line)} (h : ps.map skeleton = qs.map skeleton) :
    skeleton (block n ps) = skeleton (block n qs) := by
  have hparts (ps : List (List Line)) : skeleton (ps.flatMap (· ++ [tag n ""])) =
      (ps.map skeleton).flatMap (· ++ skeleton [tag n ""]) := by
    simp [skeleton, map_flatMap, flatMap_map]
  rw [block, block, skeleton_cons, skeleton_cons, hparts, hparts, h]

theorem skeleton_blockIf_congr {b c : Bool} {ls ms : List Line} (hb : b = c)
    (h : skeleton ls = skeleton ms) : skeleton (blockIf n b ls) = skeleton (blockIf n c ms) := by
  subst hb
  refine skeleton_block_congr n ?_
  cases b <;> simp [h]

theorem skeleton_block_length {as bs : List α} (part : α → List Line)
    (hpart : ∀ a b, skeleton (part a) = skeleton (part b)) (h : as.length = bs.length) :
    skeleton (block n (as.map part)) = skeleton (block n (bs.map part)) := by
  refine skeleton_block_congr n (ext_getElem (by simp [h]) fun i _ _ => ?_)
  simpa using hpart ..

theorem isEmpty_congr {as bs : List α} (h : as.length = bs.length) : as.isEmpty = bs.isEmpty := by
  rw [Bool.eq_iff_iff, List.isEmpty_iff_length_eq_zero, List.isEmpty_iff_length_eq_zero, h]

theorem skeleton_occurrenceList (h : f.occurrences.length = g.occurrences.length) :
    skeleton (occurrenceList f) = skeleton (occurrenceList g) := by
  simp only [occurrenceList, skeleton_append]
  rw [skeleton_block_length 20 _ (fun _ _ => rfl) h]

theorem skeleton_evidenceList (h : f.evidence.length = g.evidence.length) :
    skeleton (evidenceList f) = skeleton (evidenceList g) := by
  simp only [evidenceList, skeleton_append]
  rw [skeleton_block_length 20 _ (fun _ _ => rfl) h]

theorem skeleton_findingLines (h : findingShape f = findingShape g) :
    skeleton (findingLines f) = skeleton (findingLines g) := by
  obtain ⟨hdescribed, hoccurrences, hevidence, hremedied⟩ := FindingShape.mk.inj h
  have description := skeleton_blockIf_congr 16 hdescribed
    (show skeleton [wrap 16 "<p>" (f.description.getD "") "</p>"] =
      skeleton [wrap 16 "<p>" (g.description.getD "") "</p>"] from rfl)
  have occurrences := skeleton_blockIf_congr 16 (congrArg (fun n => decide (1 < n)) hoccurrences)
    (skeleton_occurrenceList hoccurrences)
  have evidence := skeleton_blockIf_congr 16 (congrArg (! ·) (isEmpty_congr hevidence))
    (skeleton_evidenceList hevidence)
  simp only [findingLines, skeleton_append, description, occurrences, evidence]
  -- the lines before the remediation differ in their texts alone, which a skeleton does not keep
  congr 2
  exact skeleton_blockIf_congr 16 hremedied rfl

theorem skeleton_findings (h : r.findings.map findingShape = s.findings.map findingShape) :
    skeleton (findings r) = skeleton (findings s) := by
  have hlength : r.findings.length = s.findings.length := by simpa using congrArg List.length h
  have hlines : (r.findings.map findingLines).map skeleton = (s.findings.map findingLines).map skeleton := by
    refine ext_getElem (by simp [hlength]) fun i hr hs => ?_
    simp only [length_map] at hr hs
    have hi := getElem_of_eq h (i := i) (by simpa using hr)
    simp only [getElem_map] at hi ⊢
    exact skeleton_findingLines hi
  simp only [findings, cons_append, skeleton_cons, skeleton_append, isEmpty_congr hlength]
  refine congrArg (_ :: · ++ _) (skeleton_block_congr 8 ?_)
  split
  · rfl
  · exact hlines

theorem skeleton_diagnostics (h : r.diagnostics.length = s.diagnostics.length) :
    skeleton (diagnostics r) = skeleton (diagnostics s) := by
  simp only [diagnostics, cons_append, skeleton_cons, skeleton_append, isEmpty_congr h]
  refine congrArg (_ :: · ++ _) (skeleton_block_congr 8 ?_)
  split
  · rfl
  · simp only [map_cons, map_nil, skeleton_append, skeleton_cons]
    rw [skeleton_block_length 12 diagnosticRow (fun _ _ => rfl) h]

theorem skeleton_runDetails (h : r.metadata.length = s.metadata.length) :
    skeleton (runDetails r) = skeleton (runDetails s) := by
  have hsorted : r.sortedMetadata.length = s.sortedMetadata.length := by simpa [Report.sortedMetadata] using h
  refine skeleton_blockIf_congr 8 (congrArg (! ·) (isEmpty_congr h)) ?_
  simp only [skeleton_append]
  rw [skeleton_block_length 12 _ (fun _ _ => rfl) hsorted]

theorem skeleton_document (h : shape r = shape s) : skeleton (document r) = skeleton (document s) := by
  obtain ⟨hfindings, hdiagnostics, hmetadata⟩ := Shape.mk.inj h
  simp only [document, skeleton_append, skeleton_cons, skeleton_findings hfindings,
    skeleton_diagnostics hdiagnostics, skeleton_runDetails hmetadata]
  rfl

/-- The frame of the documents of a shape: markup, and holes. -/
def frame (s : Shape) : List (Option String) := joined (skeleton (document s.blank))

/-- A document is the frame of the report's shape, and in the holes, in their order, what the report says,
    with entities for the characters of markup, which show as those characters. The marks of two
    documents of one shape are the same. -/
theorem html_injection_free (r : Report) :
    (render r = fill (frame (shape r)) ((texts r).map escape) ∧
      (frame (shape r)).count none = (texts r).length) ∧
    (∀ t ∈ texts r, Escaped (escape t).toList ∧ unescape (escape t).toList = t.toList) ∧
    ∀ s : Report, shape s = shape r → marks (render s) = marks (render r) := by
  have hrender (r : Report) : render r = fill (frame (shape r)) ((texts r).map escape) := by
    rw [render, render_lines, textsOf_document, frame, skeleton_document (shape_blank (shape r))]
  refine ⟨⟨hrender r, ?_⟩, fun t _ => ?_, fun s h => ?_⟩
  · rw [frame, skeleton_document (shape_blank (shape r)), count_joined, textsOf_document]
  · rw [escape, String.toList_ofList]
    exact ⟨escaped_flatMap _, unescape_flatMap _⟩
  · rw [hrender r, hrender s, marks_fill, marks_fill, h]

def reportSaying (text : String) : Report where
  findings := [
    { id := text, ruleId := "R1", severity := .high, location := { path := text }, message := text,
      description := some (text ++ "."), evidence := [.of (.str text)] }]
  diagnostics := [{ source := "scan", kind := "parse_error", subject := text, message := text }]
  metadata := [(.str "target", .str text)]

theorem html_injection_free_script :
    shape (reportSaying "overflow") = shape (reportSaying "\"><script>alert('x')</script>") ∧
      marks (render (reportSaying "overflow")) = marks (render (reportSaying "\"><script>alert('x')</script>")) :=
  ⟨by decide, (html_injection_free _).2.2 _ (by decide)⟩

end ContractAudit.Html

import ContractAudit.Proofs.SeamFields
import ContractAudit.Rule.Catalogue

/-! # What rules see in like code

Texts can differ in a blank at the start of a line (they are `indented`), or in comments and in the insides of
literals. Every built-in detector sees the same in both, but for the one that reads the comments on fields.
Only the name of a block can differ in a blank after a newline: it stands in the message and in the symbol. -/

namespace ContractAudit.Source
open Text List

variable {c c' : List Char}

structure LineTwin (c c' : List Char) (m m' : Match) : Prop where
  capture : ∀ l, (m'.capture? l).map (·.text) = (m.capture? l).map (·.text)
  rest : c'.drop m'.finish = c.drop m.finish

theorem LineTwin.group {m m' : Match} (h : LineTwin c c' m m') (l : Nat) : m'.group l = m.group l := by
  rw [Match.group, Match.group, h.capture]

theorem LineTwin.groupText {m m' : Match} (h : LineTwin c c' m m') (l : Nat) : m'.groupText l = m.groupText l := by
  rw [Match.groupText, Match.groupText, h.group]

theorem LineTwin.refl (c : List Char) (m : Match) : LineTwin c c m m := ⟨fun _ => rfl, rfl⟩

theorem LineTwin.of_twin {s : Seam} (hs : s.pre = []) {m m' : Match} (h : m.Twin s m') :
    LineTwin s.text s.wide m m' where
  capture := h.text_capture? hs
  rest := by
    have hle : s.pre.length ≤ m.finish := by simp [hs]
    rw [h.finish, Seam.shift_of_le hle, Seam.drop_wide_of_le hle, Seam.drop_text_of_le hle]

theorem Indents.seam (h : Indents c c') : c' = c ∨ ∃ s : Seam, s.pre = [] ∧ s.text = c ∧ s.wide = c' := by
  refine h.imp_right ?_
  rintro ⟨b, hb, rfl⟩
  exact ⟨⟨[], b, c, hb, nofun⟩, rfl, rfl, rfl⟩

theorem Indents.trim_eq (h : Indents c c') : trim c' = trim c := by
  rcases h with rfl | ⟨b, hb, rfl⟩
  · rfl
  · have hblank : isBlank b = true := by rcases hb with rfl | rfl <;> decide
    rw [trim, trim, trimStart, dropWhile_cons_of_pos hblank]
    rfl

theorem Indents.filter_eq (h : Indents c c') : c'.filter (!isBlank ·) = c.filter (!isBlank ·) := by
  rcases h.seam with rfl | ⟨s, -, rfl, rfl⟩
  · rfl
  · exact (Widens.of_seam s).filter_eq

section
variable {p : Pattern} (hp : p.Steady true) (h : Indents c c')
include hp h

theorem rel_search_indents : Option.Rel (LineTwin c c') (p.search c) (p.search c') := by
  rcases h.seam with rfl | ⟨s, hs, rfl, rfl⟩
  · cases p.search c' with
    | none => exact .none
    | some m => exact .some (.refl c' m)
  · exact rel_imp (Pattern.rel_search hp (.inr hs)) fun _ _ _ htwin => .of_twin hs htwin

theorem occursIn_indents : p.occursIn c' = p.occursIn c := (isSome_of_rel (rel_search_indents hp h)).symm

theorem rel_findAll_indents : Forall₂ (LineTwin c c') (p.findAll c) (p.findAll c') := by
  rcases h.seam with rfl | ⟨s, hs, rfl, rfl⟩
  · exact forall₂_same.mpr fun m _ => .refl c' m
  · exact (Pattern.rel_findAll hp (.inr hs)).imp fun _ _ hm => .of_twin hs hm.2

end

/-- The characters of a text that are not white space, which fingerprints are taken of. -/
def solid (t : String) : List Char := t.toList.filter (!isBlank ·)

variable {indented : Prop} {σ : Nat → Nat} {l l' : Line} {f f' : Function} {m m' : Model} {n n' : String}

theorem Line.Indented.trimmed (h : Line.Indented indented l l') (hi : indented) : l'.trimmed = l.trimmed := by
  rw [Line.trimmed, Line.trimmed, strip, strip, (h.raw hi).trim_eq]

theorem Line.Indented.solid (h : Line.Indented indented l l') (hi : indented) : solid l'.raw = solid l.raw :=
  (h.raw hi).filter_eq

theorem solid_intercalate (ls : List String) : solid ("\n".intercalate ls) = ls.flatMap solid := by
  have hlines (ls : List (List Char)) : (['\n'].intercalate ls).filter (!isBlank ·) =
      ls.flatMap (List.filter (!isBlank ·)) := by
    induction ls with
    | nil => rfl
    | cons l ls ih =>
      cases ls with
      | nil => simp [List.intercalate]
      | cons k ls =>
        have hn : isBlank '\n' = true := by decide
        rw [intercalate_cons_cons, filter_append, filter_append, ih,
          filter_cons_of_neg (by simp [hn]), filter_nil, append_nil]
        rfl
  have hseparator : "\n".toList = ['\n'] := rfl
  rw [solid, String.toList_intercalate, hseparator, hlines, flatMap_map]
  rfl

theorem solid_snippetOf (h : Forall₂ (Line.Indented indented) m.lines m'.lines) (hi : indented) (first : Int) :
    solid (ScanUnit.snippetOf m' first none) = solid (ScanUnit.snippetOf m first none) := by
  have hslice {i j : Int} : Forall₂ (Line.Indented indented) (slice m.lines i j) (slice m'.lines i j) := by
    unfold slice
    rw [h.length_eq]
    exact forall₂_take _ (forall₂_drop _ h)
  unfold ScanUnit.snippetOf
  rw [solid_intercalate, solid_intercalate, flatMap_def, flatMap_def, map_map, map_map]
  exact congrArg List.flatten (map_eq_of_forall₂ hslice fun _ _ hl => hl.solid hi)

theorem NameInside.isEmpty_eq (h : NameInside n n') : n'.isEmpty = n.isEmpty := by
  have hhead : n'.toList = [] ↔ n.toList = [] := by
    rw [← head?_eq_none_iff, ← head?_eq_none_iff, h.head?_eq]
  rw [Bool.eq_iff_iff, String.isEmpty_iff, String.isEmpty_iff]
  simpa [← String.toList_eq_nil_iff] using hhead

namespace NameAlike

theorem refl (n : String) : NameAlike indented n n := .inl rfl

variable (h : NameAlike indented n n')
include h

theorem append (a b : String) : NameAlike indented (a ++ n ++ b) (a ++ n' ++ b) := by
  rcases h with rfl | ⟨hi, h⟩
  · exact .refl _
  · refine .inr ⟨hi, ?_⟩
    unfold NameInside
    simp only [String.toList_append]
    exact WidensInside.append h a.toList b.toList

theorem after (a : String) : NameAlike indented (a ++ n) (a ++ n') := by simpa using h.append a ""

theorem isEmpty_eq : n'.isEmpty = n.isEmpty := by
  rcases h with rfl | ⟨-, h⟩
  · rfl
  · exact h.isEmpty_eq

end NameAlike

namespace Function.Shifted
variable (h : Function.Shifted indented σ f f')
include h

theorem qualifiedName : NameAlike indented f.qualifiedName f'.qualifiedName := by
  have hcontainer := h.container
  unfold Function.qualifiedName
  rw [h.name]
  generalize f.container = n at hcontainer ⊢
  generalize f'.container = n' at hcontainer ⊢
  cases hcontainer with
  | none => exact .refl _
  | @some n n' hn =>
    dsimp only
    rw [hn.isEmpty_eq]
    split
    · exact .refl _
    · simpa [String.append_assoc] using hn.append "" ("::" ++ f.name)

theorem containsLine (line : Nat) : f'.containsLine line = f.containsLine line := by
  rw [Function.containsLine, Function.containsLine, h.startLine, h.endLine]

theorem contextStruct? : f'.contextStruct? = f.contextStruct? := by
  rw [Function.contextStruct?, Function.contextStruct?, h.params]

end Function.Shifted

/-! ### Structs and their fields -/

/-- Fields that agree in all but the comments on them. -/
structure Field.Alike (f f' : Field) : Prop where
  name : f'.name = f.name
  namelike : Pattern.Namelike f.name.toList
  type : f'.type = f.type
  line : f'.line = f.line
  attributes : f'.attributes = f.attributes

structure Struct.Alike (s s' : Struct) : Prop where
  name : s'.name = s.name
  attributes : s'.attributes = s.attributes
  fields : Forall₂ Field.Alike s.fields s'.fields

theorem Field.Alike.typeName {f f' : Field} (h : Field.Alike f f') : f'.typeName = f.typeName := by
  rw [Field.typeName, Field.typeName, h.type]

theorem Field.Alike.hasAttribute {f f' : Field} (h : Field.Alike f f') (keyword : String) :
    f'.hasAttribute keyword = f.hasAttribute keyword := by
  rw [Field.hasAttribute, Field.hasAttribute, h.attributes]

section
variable (d : Sheet) (t : List Char)

theorem Sheet.field?_alike (start : Nat) (chunk : List Char) :
    Option.Rel Field.Alike (d.field? start chunk) ({ d with text := t }.field? start chunk) := by
  unfold Sheet.field?
  split
  · exact .none
  · dsimp only
    cases hm : fieldPattern.matchStart (trimEnd (trimStart (leadingAttributes chunk).2)) with
    | none => exact .none
    | some m =>
      obtain ⟨n, hn, hname, -⟩ := capture_of_fieldPattern hm
      simp only [hn]
      exact .some ⟨rfl, by rwa [String.toList_ofList], rfl, rfl, rfl⟩

theorem Sheet.fields_alike (start stop : Nat) :
    Forall₂ Field.Alike (d.fields start stop) ({ d with text := t }.fields start stop) := by
  refine rel_filterMap (R := Eq) ?_ ?_
  · rintro ⟨offset, chunk⟩ _ rfl
    exact d.field?_alike t _ _
  · rw [forall₂_eq_eq_eq]

theorem Sheet.structs_alike (attributes : List AttributeSpan) :
    Forall₂ Struct.Alike (d.structs attributes) ({ d with text := t }.structs attributes) := by
  refine rel_map (R := Eq) ?_ (by rw [forall₂_eq_eq_eq])
  rintro m _ rfl
  unfold Sheet.struct
  dsimp only
  split
  · split
    · exact ⟨rfl, rfl, d.fields_alike t _ _⟩
    · exact ⟨rfl, rfl, .nil⟩
  · exact ⟨rfl, rfl, .nil⟩

end

/-! ### Models -/

/-- Models of texts in which places are moved by `σ`. -/
structure Model.Shifted (indented : Prop) (σ : Nat → Nat) (m m' : Model) : Prop where
  lines : Forall₂ (Line.Indented indented) m.lines m'.lines
  injective : Function.Injective σ
  functions : Forall₂ (Function.Shifted indented σ) m.functions m'.functions
  structs : Forall₂ Struct.Alike m.structs m'.structs
  same_structs : indented → m'.structs = m.structs
  modules : m'.modules = m.modules

theorem Model.shifted_of_seam {s : Seam} (hs : s.post ≠ []) :
    ∃ σ, Shifted True σ (ofText (String.ofList s.text)) (ofText (String.ofList s.wide)) := by
  obtain ⟨x, hpre, hpost, htext, hwide⟩ := s.exists_mask
  have hx : x.post ≠ [] := by
    rw [← length_pos_iff] at hs ⊢
    omega
  have hsheet : Sheet.ofText (String.ofList s.text).toList = s.sheet x := by
    rw [String.toList_ofList, Sheet.ofText, htext]
    rfl
  have hwideSheet : Sheet.ofText (String.ofList s.wide).toList = s.wideSheet x := by
    rw [String.toList_ofList, Sheet.ofText, hwide]
    rfl
  have hmodules := modules_wideSheet (s := s) hx
  have hstructs := structs_wideSheet hpre hx
  have hfunctions : Forall₂ (Function.Shifted True x.shift)
      ((s.sheet x).functions (attributeSpans x.text) ((s.sheet x).modules (attributeSpans x.text)))
      ((s.wideSheet x).functions (attributeSpans x.wide) ((s.wideSheet x).modules (attributeSpans x.wide))) := by
    rw [hmodules]
    exact functions_wideSheet hx _
  have halike : Forall₂ Struct.Alike ((s.sheet x).structs (attributeSpans x.text))
      ((s.wideSheet x).structs (attributeSpans x.wide)) := by
    rw [hstructs]
    exact (s.sheet x).structs_alike s.text _
  refine ⟨x.shift, ?_⟩
  unfold ofText
  simp only [hsheet, hwideSheet]
  exact
    { lines := lines_wideSheet hs hx
      injective := Seam.strictMono_shift.injective
      functions := hfunctions
      structs := halike
      same_structs := fun _ => hstructs
      modules := hmodules }

theorem rel_firstMin {α β : Type} {R : α → β → Prop} {key : α → Nat} {key' : β → Nat} {l : List α} {l' : List β}
    (h : Forall₂ R l l') (hkey : ∀ a a', R a a' → key' a' = key a) :
    Option.Rel R (firstMin key l) (firstMin key' l') := by
  induction h with
  | nil => exact .none
  | @cons a a' l l' ha _ ih =>
    unfold firstMin
    obtain ⟨hb, hb'⟩ | ⟨b, b', hb, hb', hbb⟩ := rel_cases ih
    · rw [hb, hb']
      exact .some ha
    · rw [hb, hb']
      dsimp only
      rw [hkey a a' ha, hkey b b' hbb]
      split
      · exact .some ha
      · exact .some hbb

namespace Model.Shifted
variable (h : Model.Shifted indented σ m m')
include h

theorem bodyLines (hf : Function.Shifted indented σ f f') :
    Forall₂ (Line.Indented indented) (m.bodyLines f) (m'.bodyLines f') := by
  rw [Model.bodyLines, Model.bodyLines, hf.endLine, hf.bodyStartLine]
  exact forall₂_drop _ (forall₂_take _ h.lines)

theorem functionAt? (line : Nat) :
    Option.Rel (Function.Shifted indented σ) (m.functionAt? line) (m'.functionAt? line) := by
  refine rel_firstMin (forall₂_filter h.functions fun _ _ hf => hf.containsLine line) fun f f' hf => ?_
  rw [hf.startLine, hf.endLine]

theorem isTestCode (hf : Function.Shifted indented σ f f') : m'.isTestCode f' = m.isTestCode f := by
  rw [Model.isTestCode, Model.isTestCode, hf.attributes, hf.startLine, h.modules]

theorem isHandler (hf : Function.Shifted indented σ f f') : m'.isHandler f' = m.isHandler f := by
  rw [Model.isHandler, Model.isHandler, h.isTestCode hf, hf.name, hf.startLine, hf.isPub, hf.params, h.modules]

theorem accountsStructs : Forall₂ Struct.Alike m.accountsStructs m'.accountsStructs :=
  forall₂_filter h.structs fun s s' hs => by rw [Struct.isAccounts, Struct.isAccounts, hs.attributes]

end Model.Shifted

end ContractAudit.Source

namespace ContractAudit
open Source Text List Pattern
variable {indented : Prop} {σ : Nat → Nat} {u u' : ScanUnit} {i i' : Index} {m m' : Model}
variable {f f' : Function} {l l' : Line} {names : List String}

structure ScanUnit.Shifted (indented : Prop) (σ : Nat → Nat) (u u' : ScanUnit) : Prop where
  path : u'.path = u.path
  language : u'.language = u.language
  model : Model.Shifted indented σ u.model u'.model

structure Index.Shifted (indented : Prop) (σ : Nat → Nat) (i i' : Index) : Prop where
  functions : Forall₂ (fun e e' => e'.1 = e.1 ∧ Function.Shifted indented σ e.2 e'.2) i.functions i'.functions
  structs : Forall₂ (fun e e' => Struct.Alike e.2 e'.2) i.structs i'.structs

theorem Index.forall₂_sortUnits {us us' : List ScanUnit} (h : Forall₂ (ScanUnit.Shifted indented σ) us us') :
    Forall₂ (ScanUnit.Shifted indented σ) (sortUnits us) (sortUnits us') := by
  have hpair : ∀ p ∈ us.zip us', ScanUnit.Shifted indented σ p.1 p.2 := fun _ hp => forall₂_zip h hp
  -- both lists are sides of one list of pairs, which is sorted by the path of either side
  have hside : ∀ f : ScanUnit × ScanUnit → ScanUnit, (∀ p ∈ us.zip us', p.1.path = (f p).path) →
      ((us.zip us').mergeSort fun p q => p.1.path ≤ q.1.path).map f = sortUnits ((us.zip us').map f) := by
    intro f hf
    refine map_mergeSort fun p hp q hq => ?_
    rw [hf p hp, hf q hq]
  have hleft := hside Prod.fst fun _ _ => rfl
  have hright := hside Prod.snd fun p hp => (hpair p hp).path.symm
  rw [map_fst_zip (Nat.le_of_eq h.length_eq)] at hleft
  rw [map_snd_zip (Nat.le_of_eq h.length_eq.symm)] at hright
  rw [← hleft, ← hright, forall₂_map_left_iff, forall₂_map_right_iff, forall₂_same]
  exact fun p hp => hpair p (mem_mergeSort.mp hp)

theorem Index.shifted_ofUnits {us us' : List ScanUnit} (h : Forall₂ (ScanUnit.Shifted indented σ) us us') :
    Index.Shifted indented σ (Index.ofUnits us) (Index.ofUnits us') := by
  have hmodels : Forall₂ (fun e e' : String × Model => e'.1 = e.1 ∧ Model.Shifted indented σ e.2 e'.2)
      (((sortUnits us).filter (·.language == "rust")).map fun u => (u.path, u.model))
      (((sortUnits us').filter (·.language == "rust")).map fun u => (u.path, u.model)) := by
    refine rel_map (fun u u' hu => ⟨hu.path, hu.model⟩) (forall₂_filter (forall₂_sortUnits h) fun u u' hu => ?_)
    rw [hu.language]
  constructor
  · exact rel_flatMap hmodels fun e e' he => rel_map (fun f f' hf => ⟨he.1, hf⟩) he.2.functions
  · refine rel_flatMap hmodels fun e e' he => ?_
    rw [forall₂_map_left_iff, forall₂_map_right_iff]
    exact he.2.structs

section
variable (h : Index.Shifted indented σ i i')
include h

theorem Index.Shifted.handlersFor (name : String) : Forall₂ (fun e e' => e'.1 = e.1 ∧
    Function.Shifted indented σ e.2 e'.2) (i.handlersFor name) (i'.handlersFor name) :=
  forall₂_filter h.functions fun e e' he => by rw [he.2.contextStruct?]

theorem Index.Shifted.struct? (name : String) :
    Option.Rel (fun e e' => Struct.Alike e.2 e'.2) (i.struct? name) (i'.struct? name) :=
  find?_of_forall₂ h.structs fun _ _ he => by rw [he.name]

end

/-- The same sighting; if texts differ in more than their indentation, they can be shown otherwise. -/
structure Sighting.Alike (indented : Prop) (v v' : Sighting) : Prop where
  line : v'.line = v.line
  message : NameAlike indented v.message v'.message
  symbol : Option.Rel (NameAlike indented) v.symbol v'.symbol
  severity : v'.severity = v.severity
  evidence : indented → v'.evidence = v.evidence
  snippet : indented → solid v'.snippet = solid v.snippet

inductive SeenAlike (indented : Prop) :
    Except ItemsError (List Sighting) → Except ItemsError (List Sighting) → Prop where
  | ok {l l' : List Sighting} (h : Forall₂ (Sighting.Alike indented) l l') : SeenAlike indented (.ok l) (.ok l')
  | error (e : ItemsError) : SeenAlike indented (.error e) (.error e)

def Detector.ReadsCode (indented : Prop) (d : Detector) : Prop :=
  ∀ (σ : Nat → Nat) (u u' : ScanUnit) (i i' : Index), Model.Shifted indented σ u.model u'.model →
    Index.Shifted indented σ i i' → ∀ setup, SeenAlike indented (d.sightings setup u i) (d.sightings setup u' i')

/-! ### Functions and their lines -/

section
variable (h : Model.Shifted indented σ m m')
variable {p p' : Function → Bool}
include h

theorem Source.Model.Shifted.flatMap_functions
    (hp : ∀ f f', Function.Shifted indented σ f f' → p' f' = p f) {see see' : Function → List Sighting}
    (hsee : ∀ f f', Function.Shifted indented σ f f' → Forall₂ (Sighting.Alike indented) (see f) (see' f')) :
    Forall₂ (Sighting.Alike indented) ((m.functions.filter p).flatMap see)
      ((m'.functions.filter p').flatMap see') :=
  rel_flatMap (forall₂_filter h.functions hp) hsee

theorem Source.Model.Shifted.flatMap_bodyLines
    (hp : ∀ f f', Function.Shifted indented σ f f' → p' f' = p f) {see see' : Function → Line → Option Sighting}
    (hsee : ∀ f f', Function.Shifted indented σ f f' → ∀ l l', Line.Indented indented l l' →
      Option.Rel (Sighting.Alike indented) (see f l) (see' f' l')) :
    Forall₂ (Sighting.Alike indented) ((m.functions.filter p).flatMap fun f => (m.bodyLines f).filterMap (see f))
      ((m'.functions.filter p').flatMap fun f => (m'.bodyLines f).filterMap (see' f)) :=
  h.flatMap_functions hp fun f f' hf => rel_filterMap (fun l l' hl => hsee f f' hf l l' hl) (h.bodyLines hf)

/-- What is seen on a line of a function, with a message that names the function. -/
theorem Source.Model.Shifted.alike_onLine (hf : Function.Shifted indented σ f f') (hl : Line.Indented indented l l')
    {s s' : String} (hs : NameAlike indented s s') (e : List (String × Value)) :
    Sighting.Alike indented (.onLine m f l s e) (.onLine m' f' l' s' e) where
  line := hl.number
  message := hs
  symbol := .some hf.qualifiedName
  severity := rfl
  evidence hi := by simp only [Sighting.onLine, hl.trimmed hi]
  snippet hi := by
    simp only [Sighting.onLine, hl.number]
    exact solid_snippetOf h.lines hi _

theorem Source.Model.Shifted.alike_place (v : Sighting) :
    Sighting.Alike indented { v with snippet := ScanUnit.snippetOf m v.line none }
      { v with snippet := ScanUnit.snippetOf m' v.line none } where
  line := rfl
  message := .refl _
  symbol := by
    cases v.symbol with
    | none => exact .none
    | some n => exact .some (.refl n)
  severity := rfl
  evidence _ := rfl
  snippet hi := solid_snippetOf h.lines hi _

end

/-! ### Unchecked arithmetic -/

namespace Arithmetic

theorem steady_safeCall : safeCall.Steady true := ⟨rfl, rfl, by simp [safeCall]⟩

theorem steady_floatType : floatType.Steady true := ⟨rfl, rfl, by simp [floatType]⟩

theorem steady_compound : compound.Steady true := ⟨rfl, rfl, by simp [compound, optCall]⟩

theorem steady_binary : binary.Steady true := ⟨rfl, rfl, by simp [binary, binary.wordOrDot, optCall]⟩

theorem operation?_indents (names : List String) {c c' : List Char} (h : Indents c c') :
    operation? names c' = operation? names c := by
  have hbinary := rel_findAll_indents steady_binary h
  unfold operation?
  rw [h.trim_eq, occursIn_indents steady_safeCall h, occursIn_indents steady_floatType h]
  dsimp only
  split
  · rfl
  split
  · rfl
  obtain ⟨hm, hm'⟩ | ⟨m, m', hm, hm', htwin⟩ := rel_cases (rel_search_indents steady_compound h)
  · rw [hm, hm']
    have hfind := find?_of_forall₂ hbinary (p := fun m => isOperation names (m.group 1) (m.group 3))
      (q := fun m => isOperation names (m.group 1) (m.group 3)) fun m m' hm => by rw [hm.group, hm.group]
    exact map_eq_of_rel hfind fun m m' hm => by rw [hm.groupText, hm.group, hm.group]
  · rw [hm, hm']
    dsimp only
    rw [htwin.groupText, htwin.group, htwin.rest]

theorem sighting?_alike (hf : Function.Shifted indented σ f f') (hl : Line.Indented indented l l') :
    Option.Rel (Sighting.Alike indented) (sighting? names f l) (sighting? names f' l') := by
  rw [sighting?, sighting?, operation?_indents names hl.code]
  cases operation? names l.code.toList with
  | none => exact .none
  | some o =>
    exact .some
      { line := hl.number
        message := hf.qualifiedName.after _
        symbol := .some hf.qualifiedName
        severity := rfl
        evidence := fun hi => by simp only [hl.trimmed hi]
        snippet := hl.solid }

theorem detector_readsCode : detector.ReadsCode indented := by
  intro σ u u' i i' hm _ setup
  change SeenAlike indented (sightings setup u i) (sightings setup u' i')
  unfold sightings
  cases optionList setup.options "value_names" with
  | error e => exact .error e
  | ok more =>
    refine .ok (hm.flatMap_bodyLines (fun f f' hf => by rw [hm.isTestCode hf]) fun f f' hf l l' hl => ?_)
    have hnested : Forall₂ (Function.Shifted indented σ) (nestedIn u.model f) (nestedIn u'.model f') :=
      forall₂_filter hm.functions fun g g' hg => by rw [hf.startLine, hf.endLine, hg.startLine, hg.endLine]
    have hany : ((nestedIn u'.model f').any fun g => g.containsLine l'.number) =
        (nestedIn u.model f).any fun g => g.containsLine l.number :=
      (any_of_forall₂ hnested fun g g' hg => by rw [hg.containsLine, hl.number]).symm
    rw [hany]
    split
    · exact .none
    · exact sighting?_alike hf hl

end Arithmetic

/-! ### Account checks -/

namespace Accounts
variable {name : String}

theorem steady_nextAccount : nextAccount.Steady true := ⟨rfl, rfl, by simp [nextAccount]⟩

theorem steady_deserialize : deserialize.Steady true := ⟨rfl, rfl, by simp [deserialize]⟩

theorem steady_dataAccess : dataAccess.Steady true := ⟨rfl, rfl, by simp [dataAccess, dot, emptyCall, opening]⟩

theorem steady_createAddress : createAddress.Steady true := ⟨rfl, rfl, by simp [createAddress]⟩

theorem steady_ownerCheck : ownerCheck.Steady false := ⟨rfl, rfl, by simp [ownerCheck]⟩

theorem steady_findAddress : (lit "find_program_address").Steady false := ⟨rfl, rfl, by simp⟩

theorem steady_signerCheck (h : Namelike name.toList) : (signerCheck name).Steady false where
  crosses := by
    simp only [signerCheck, crosses_append, crosses_lit h]
    rfl
  blocked := by rw [signerCheck, Pattern.before_append, Pattern.before_append, Pattern.before_lit h]
  blind := by simp [signerCheck, dot]

theorem steady_signerCheckThrough (h : Namelike name.toList) : (signerCheckThrough name).Steady false where
  crosses := by
    simp only [signerCheckThrough, crosses_append, crosses_lit h]
    rfl
  blocked := by
    rw [signerCheckThrough, Pattern.before_append, Pattern.before_append, Pattern.before_append,
      before_lit h]
  blind := by simp [signerCheckThrough, dot]

theorem checkedIn_shifted {l l' : List (String × Function)}
    (h : Forall₂ (fun e e' => e'.1 = e.1 ∧ Function.Shifted indented σ e.2 e'.2) l l')
    (hname : Namelike name.toList) : checkedIn l' name = checkedIn l name := by
  refine (any_of_forall₂ h ?_).symm
  rintro ⟨_, f⟩ ⟨_, f'⟩ ⟨-, hf⟩
  have hbody := occursIn_widens (steady_signerCheckThrough hname) hf.body
  dsimp only at hbody hf ⊢
  rw [hf.params, hbody]

theorem structSightings_alike (hm : Model.Shifted indented σ m m') (hi : Index.Shifted indented σ i i')
    {s s' : Struct} (hs : Struct.Alike s s') : Forall₂ (Sighting.Alike indented) (structSightings names m i s)
      (structSightings names m' i' s') := by
  have hhandlers := hi.handlersFor s.name
  have hcalled : (i'.handlersFor s.name).map (·.2.name) = (i.handlersFor s.name).map (·.2.name) :=
    map_eq_of_forall₂ hhandlers fun _ _ he => he.2.name
  have hmut : (s.fields.any fun f => f.hasAttribute "mut") = s'.fields.any fun f => f.hasAttribute "mut" :=
    any_of_forall₂ hs.fields fun _ _ hf => (hf.hasAttribute "mut").symm
  unfold structSightings
  dsimp only
  rw [hs.name, hcalled, hmut]
  refine rel_map (fun f f' hf => ?_) (forall₂_filter hs.fields fun f f' hf => ?_)
  · rw [hf.line, hf.name, hf.type]
    exact hm.alike_place ⟨f.line, _, _, _, _, ""⟩
  · rw [isUnsignedAuthority, isUnsignedAuthority, hf.name, hf.type, hf.hasAttribute, hf.typeName,
      checkedIn_shifted hhandlers hf.namelike]

theorem lineSighting?_alike (hm : Model.Shifted indented σ m m') (hf : Function.Shifted indented σ f f')
    (hl : Line.Indented indented l l') :
    Option.Rel (Sighting.Alike indented) (lineSighting? names m f l) (lineSighting? names m' f' l') := by
  refine rel_bind (rel_search_indents steady_nextAccount hl.code) fun found found' hfound htwin => ?_
  have hname : Namelike (found.groupText 1).toList := by
    rw [Match.groupText, String.toList_ofList]
    exact namelike_group_of_search rfl hfound
  have hcheck := occursIn_widens (steady_signerCheck hname) hf.body
  simp only [Option.bind_eq_bind, htwin.groupText, hcheck]
  split
  · exact .none
  split
  · exact .none
  · exact .some (hm.alike_onLine hf hl (hf.qualifiedName.append _ _) _)

theorem asksForNames_shifted (h : Model.Shifted indented σ m m') : asksForNames m' = asksForNames m := by
  have hstructs : (m.accountsStructs.any fun s => !s.fields.isEmpty) =
      m'.accountsStructs.any fun s => !s.fields.isEmpty := by
    refine any_of_forall₂ h.accountsStructs fun s s' hs => ?_
    have hfields := hs.fields
    generalize s.fields = fs, s'.fields = fs' at hfields ⊢
    cases hfields <;> rfl
  have hlines : (m.functions.any fun f => (m.bodyLines f).any fun l => nextAccount.occursIn l.code.toList) =
      m'.functions.any fun f => (m'.bodyLines f).any fun l => nextAccount.occursIn l.code.toList :=
    any_of_forall₂ h.functions fun f f' hf => any_of_forall₂ (h.bodyLines hf) fun l l' hl =>
      (occursIn_indents steady_nextAccount hl.code).symm
  rw [asksForNames, asksForNames, hstructs, hlines]

theorem missingSigner_readsCode : missingSigner.ReadsCode indented := by
  intro σ u u' i i' hm hi setup
  have hseen (names : List String) : Forall₂ (Sighting.Alike indented)
      (u.model.accountsStructs.flatMap (structSightings names u.model i)
        ++ u.model.functions.flatMap fun f => (u.model.bodyLines f).filterMap (lineSighting? names u.model f))
      (u'.model.accountsStructs.flatMap (structSightings names u'.model i')
        ++ u'.model.functions.flatMap fun f => (u'.model.bodyLines f).filterMap (lineSighting? names u'.model f)) := by
    refine rel_append ?_ ?_
    · exact rel_flatMap hm.accountsStructs fun s s' hs => structSightings_alike hm hi hs
    · simpa using hm.flatMap_bodyLines (p := fun _ => true) (fun _ _ _ => rfl)
        fun f f' hf l l' hl => lineSighting?_alike hm hf hl
  change SeenAlike indented (signerSightings setup u i) (signerSightings setup u' i')
  unfold signerSightings
  dsimp only
  rw [asksForNames_shifted hm]
  split
  · cases optionList setup.options "authority_names" with
    | error e => exact .error e
    | ok more => exact .ok (hseen _)
  · exact .ok (hseen _)

theorem uncheckedAccount_readsCode (hi : indented) : uncheckedAccount.ReadsCode indented := by
  intro σ u u' i i' hm _ setup
  have hstructs : u'.model.accountsStructs = u.model.accountsStructs := by
    rw [Model.accountsStructs, Model.accountsStructs, hm.same_structs hi]
  refine .ok (rel_flatMap (R := Eq) (by rw [hstructs, forall₂_eq_eq_eq]) ?_)
  rintro s _ rfl
  refine rel_map (R := Eq) ?_ (forall₂_eq_eq_eq ▸ rfl)
  rintro f _ rfl
  exact hm.alike_place ⟨f.line, _, _, _, _, ""⟩

theorem missingOwner_readsCode : missingOwner.ReadsCode indented := by
  intro σ u u' i i' hm _ setup
  refine .ok (hm.flatMap_bodyLines (fun f f' hf => ?_) fun f f' hf l l' hl => ?_)
  · rw [occursIn_widens steady_ownerCheck hf.body]
  · rw [occursIn_indents steady_deserialize hl.code]
    split
    · exact .none
    refine rel_bind (rel_search_indents steady_dataAccess hl.code) fun found found' _ htwin => ?_
    rw [htwin.groupText]
    exact .some (hm.alike_onLine hf hl (hf.qualifiedName.append _ _) _)

theorem nonCanonicalBump_readsCode : nonCanonicalBump.ReadsCode indented := by
  intro σ u u' i i' hm _ setup
  refine .ok (hm.flatMap_functions (fun f f' hf => ?_) fun f f' hf => ?_)
  · rw [occursIn_widens steady_findAddress hf.body]
  · refine rel_map (fun l l' hl => ?_)
      (forall₂_filter (hm.bodyLines hf) fun l l' hl => occursIn_indents steady_createAddress hl.code)
    exact hm.alike_onLine hf hl (hf.qualifiedName.after _) _

end Accounts

/-! ### Cross-program invocations -/

namespace Invocation
variable {account : String}

theorem steady_call : call.Steady true := ⟨rfl, rfl, by simp [call, opening, colons]⟩

theorem steady_stateWrite : stateWrite.Steady true :=
  ⟨rfl, rfl, by simp [stateWrite, dot, colons, opening, emptyCall]⟩

theorem steady_nativeProgram : nativeProgram.Steady true :=
  ⟨rfl, rfl, by simp [nativeProgram, dot, colons, opening]⟩

theorem steady_contextProgram : contextProgram.Steady true :=
  ⟨rfl, rfl, by simp [contextProgram, dot, colons, opening]⟩

theorem writesAfter_alike (hm : Model.Shifted indented σ m m') (hf : Function.Shifted indented σ f f')
    (first : Option Nat) {ls ls' : List Line} (h : Forall₂ (Line.Indented indented) ls ls') :
    Forall₂ (Sighting.Alike indented) (writesAfter m f first ls) (writesAfter m' f' first ls') := by
  induction h generalizing first with
  | nil =>
    rw [writesAfter, writesAfter]
    exact .nil
  | @cons l l' _ _ hl _ ih =>
    have hcall := occursIn_indents steady_call hl.code
    have hwrite := occursIn_indents steady_stateWrite hl.code
    cases first with
    | none =>
      rw [writesAfter, writesAfter, hcall, hl.number]
      exact ih _
    | some first =>
      rw [writesAfter, writesAfter, hcall, hwrite]
      split
      · exact .cons (hm.alike_onLine hf hl (hf.qualifiedName.after _) _) (ih _)
      · exact ih _

theorem stateChangeAfterCall_readsCode : stateChangeAfterCall.ReadsCode indented := by
  intro σ u u' i i' hm _ setup
  refine .ok (hm.flatMap_functions (fun f f' hf => by rw [hm.isTestCode hf]) fun f f' hf => ?_)
  exact writesAfter_alike hm hf none (hm.bodyLines hf)

theorem steady_of_mem_verifications (h : Namelike account.toList) {p : Pattern}
    (hp : p ∈ verifications account) : p.Steady false := by
  simp only [verifications, mem_cons, not_mem_nil, or_false] at hp
  rcases hp with rfl | rfl | rfl | rfl
  · exact
      { crosses := by
          simp only [crosses_append, crosses_lit h]
          rfl
        blocked := by simp only [Pattern.before_append, Pattern.before_lit h]
        blind := by simp [dot] }
  all_goals
    exact
      { crosses := by
          simp only [crosses_append, crosses_lit h, before_lit h]
          rfl
        blocked := rfl
        blind := by simp [dot, opening] }

theorem isVerified_widens (h : Namelike account.toList) {b b' : List Char}
    (hb : Widens b b') : isVerified account b' = isVerified account b := by
  unfold isVerified
  rw [Bool.eq_iff_iff, any_eq_true, any_eq_true]
  refine exists_congr fun p => and_congr_right fun hp => ?_
  rw [occursIn_widens (steady_of_mem_verifications h hp) hb]

theorem isUnverifiedField_shifted (hi : Index.Shifted indented σ i i')
    (hf : Function.Shifted indented σ f f') (field : String) :
    isUnverifiedField i' f' field = isUnverifiedField i f field := by
  rw [isUnverifiedField, isUnverifiedField, hf.contextStruct?]
  cases f.contextStruct? with
  | none => rfl
  | some name =>
    dsimp only [Option.bind_eq_bind, Option.bind_some]
    obtain ⟨he, he'⟩ | ⟨e, e', he, he', hs⟩ := rel_cases (hi.struct? name)
    · rw [he, he']
    · have hfield : Option.Rel Field.Alike (e.2.field? field) (e'.2.field? field) :=
        find?_of_forall₂ hs.fields fun _ _ hd => by rw [hd.name]
      rw [he, he']
      dsimp only [Option.bind_some]
      obtain ⟨hd, hd'⟩ | ⟨d, d', hd, hd', h⟩ := rel_cases hfield
      · rw [hd, hd']
      · simp only [hd, hd', Option.bind_some, h.typeName, h.hasAttribute]

theorem unverifiedCall?_shifted (hi : Index.Shifted indented σ i i')
    (hf : Function.Shifted indented σ f f') {c c' : List Char} (hc : Indents c c') :
    unverifiedCall? i' f' c' = unverifiedCall? i f c := by
  have hnative := rel_search_indents steady_nativeProgram hc
  have hcontext := rel_search_indents steady_contextProgram hc
  have hverified {p : Pattern} {m : Match} (hp : p.marksName 1 = true) (hm : p.search c = some m) :
      isVerified (m.groupText 1) f'.body.toList = isVerified (m.groupText 1) f.body.toList := by
    refine isVerified_widens ?_ hf.body
    rw [Match.groupText, String.toList_ofList]
    exact namelike_group_of_search hp hm
  unfold unverifiedCall?
  obtain ⟨hm, hm'⟩ | ⟨m, m', hm, hm', htwin⟩ := rel_cases hnative
  · rw [hm, hm']
    obtain ⟨hm, hm'⟩ | ⟨m, m', hm, hm', htwin⟩ := rel_cases hcontext
    · rw [hm, hm']
    · rw [hm, hm']
      simp only [Option.filter_some, htwin.groupText, hverified rfl hm, isUnverifiedField_shifted hi hf]
  · rw [hm, hm']
    simp only [Option.filter_some, htwin.groupText, hverified rfl hm]

theorem arbitraryCall_readsCode : arbitraryCall.ReadsCode indented := by
  intro σ u u' i i' hm hi setup
  refine .ok (hm.flatMap_bodyLines (fun f f' hf => by rw [hm.isTestCode hf]) fun f f' hf l l' hl => ?_)
  rw [unverifiedCall?_shifted hi hf hl.code]
  cases unverifiedCall? i f l.code.toList with
  | none => exact .none
  | some account =>
    exact .some (hm.alike_onLine hf hl (hf.qualifiedName.after _) _)

end Invocation

/-! ### Memory safety and panics -/

namespace Safety

theorem steady_unsafeStart : unsafeStart.Steady true := ⟨rfl, rfl, by simp [unsafeStart]⟩

theorem steady_panicCall : panicCall.Steady true := ⟨rfl, rfl, by simp [panicCall]⟩

theorem unsafeCode_readsCode : unsafeCode.ReadsCode indented := by
  intro σ u u' i i' hm _ setup
  refine .ok (rel_filterMap (fun l l' hl => ?_) hm.lines)
  obtain ⟨htest, hmessage, hsymbol⟩ :
      (u'.model.functionAt? l.number).any u'.model.isTestCode =
          (u.model.functionAt? l.number).any u.model.isTestCode ∧
        NameAlike indented
          ("unsafe code" ++ (u.model.functionAt? l.number).elim "" fun f => " in " ++ f.qualifiedName)
          ("unsafe code" ++ (u'.model.functionAt? l.number).elim "" fun f => " in " ++ f.qualifiedName) ∧
        Option.Rel (NameAlike indented) ((u.model.functionAt? l.number).map (·.qualifiedName))
          ((u'.model.functionAt? l.number).map (·.qualifiedName)) := by
    have hfunction := hm.functionAt? l.number
    generalize u.model.functionAt? l.number = g at hfunction ⊢
    generalize u'.model.functionAt? l.number = g' at hfunction ⊢
    cases hfunction with
    | none => exact ⟨rfl, .refl _, .none⟩
    | some hg => exact ⟨hm.isTestCode hg, (hg.qualifiedName.after _).after _, .some hg.qualifiedName⟩
  rw [occursIn_indents steady_unsafeStart hl.code, hl.number]
  dsimp only
  rw [htest]
  split
  · exact .none
  split
  · exact .none
  · exact .some
      { line := rfl
        message := hmessage
        symbol := hsymbol
        severity := rfl
        evidence := fun hi => by simp only [hl.trimmed hi]
        snippet := fun hi => solid_snippetOf hm.lines hi _ }

theorem callName_twin {c c' : List Char} {m m' : Match} (h : LineTwin c c' m m') : callName m' = callName m := by
  have hcapture := h.capture 1
  unfold callName
  rw [h.groupText]
  generalize m.capture? 1 = y at hcapture ⊢
  generalize m'.capture? 1 = y' at hcapture ⊢
  cases y <;> cases y' <;> simp_all

theorem panicInHandler_readsCode : panicInHandler.ReadsCode indented := by
  intro σ u u' i i' hm _ setup
  refine .ok (hm.flatMap_bodyLines (fun f f' hf => hm.isHandler hf) fun f f' hf l l' hl => ?_)
  have hinner : ((u'.model.functionAt? l'.number).map (·.offset) != some f'.offset) =
      ((u.model.functionAt? l.number).map (·.offset) != some f.offset) := by
    have hoffset : (u'.model.functionAt? l.number).map (·.offset) =
        (u.model.functionAt? l.number).map fun g => σ g.offset :=
      map_eq_of_rel (hm.functionAt? l.number) fun g g' hg => hg.offset
    rw [hl.number, hoffset, hf.offset]
    cases u.model.functionAt? l.number with
    | none => rfl
    | some g => simp [hm.injective.eq_iff, bne]
  refine rel_bind (rel_search_indents steady_panicCall hl.code) fun found found' _ htwin => ?_
  simp only [Option.bind_eq_bind, hinner, callName_twin htwin]
  split
  · exact .none
  · exact .some (hm.alike_onLine hf hl (hf.qualifiedName.after _) _)

end Safety

/-- Every built-in detector sees the same in texts that differ in indentation, and every one but that for
    unchecked accounts in texts that differ in comments. -/
theorem readsCode_of_mem {d : Detector} (hd : d ∈ builtinDetectors) (hid : indented ∨ d.info.id ≠ "SOL-003") :
    d.ReadsCode indented := by
  simp only [builtinDetectors, mem_cons, not_mem_nil, or_false] at hd
  rcases hd with rfl | rfl | rfl | rfl | rfl | rfl | rfl | rfl | rfl
  · exact Arithmetic.detector_readsCode
  · exact Accounts.missingSigner_readsCode
  · exact Accounts.uncheckedAccount_readsCode (hid.resolve_right fun h => h rfl)
  · exact Accounts.missingOwner_readsCode
  · exact Invocation.stateChangeAfterCall_readsCode
  · exact Invocation.arbitraryCall_readsCode
  · exact Safety.unsafeCode_readsCode
  · exact Safety.panicInHandler_readsCode
  · exact Accounts.nonCanonicalBump_readsCode

end ContractAudit

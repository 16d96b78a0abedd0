import ContractAudit.Proofs.Lexemes
import ContractAudit.Proofs.WordPlaces
import ContractAudit.Source.Parser

/-! # Plain programs and their texts

A plain program is a row of functions and of structs with named fields, without attributes, comments and
literals. What is known of its parts is known of its text (`Divisible`). -/

namespace ContractAudit.Source.Plain
open Text

structure Gap where
  text : List Char
  blank : text.all isBlank = true

/-- White space that keeps two words apart. -/
structure Space extends Gap where
  nonempty : text ≠ []

def itemWords : List (List Char) := ["fn".toList, "struct".toList, "mod".toList, "impl".toList]

def opensComment : List Char → Bool
  | [] => false
  | c :: s => (c == '/' && (s.head? == some '/' || s.head? == some '*')) || opensComment s

/-- Nothing in the text could be taken for a literal, an attribute, a comment or an item. -/
def isQuiet (s : List Char) : Bool :=
  !s.contains '"' && !s.contains '\'' && !s.contains '#' && !opensComment s &&
    itemWords.all fun w => !hasWord w s

def isIdentifier : List Char → Bool
  | [] => false
  | c :: s => isIdentStart c && s.all isIdentChar

structure Name where
  text : List Char
  identifier : isIdentifier text = true
  free : itemWords.contains text = false

def avoids (cs s : List Char) : Bool := s.all fun c => !cs.contains c

theorem not_mem_of_avoids {cs s : List Char} {c : Char} (h : avoids cs s = true) (hc : c ∈ cs) : c ∉ s := by
  intro hmem
  have hnot := List.all_eq_true.mp h c hmem
  simp [hc] at hnot

theorem avoids_mono {cs ds s : List Char} (h : avoids cs s = true) (hds : ds ⊆ cs) : avoids ds s = true := by
  refine List.all_eq_true.mpr fun c hc => ?_
  have hnot : c ∉ ds := fun hmem => not_mem_of_avoids h (hds hmem) hc
  simpa using hnot

structure Params where
  text : List Char
  quiet : isQuiet text = true
  flat : avoids ['(', ')'] text = true

/-- How many braces are open after a text, if none is closed that was not opened. -/
def bracesAfter? (depth : Nat) : List Char → Option Nat
  | [] => some depth
  | c :: s =>
    if c == '{' then bracesAfter? (depth + 1) s
    else if c == '}' then if depth = 0 then none else bracesAfter? (depth - 1) s
    else bracesAfter? depth s

structure Body where
  text : List Char
  quiet : isQuiet text = true
  balanced : bracesAfter? 0 text = some 0

def bracketStep (c : Char) : Int :=
  if ['(', '[', '{', '<'].contains c then 1 else if [')', ']', '}', '>'].contains c then -1 else 0

/-- How many brackets are open after a text, if no comma stands outside of brackets. -/
def bracketsAfter? (depth : Int) : List Char → Option Int
  | [] => some depth
  | c :: s => if c == ',' && depth == 0 then none else bracketsAfter? (depth + bracketStep c) s

structure TypeText where
  text : List Char
  quiet : isQuiet text = true
  nonblank : text.all isBlank = false
  flat : avoids ['{', '}', '-'] text = true
  balanced : bracketsAfter? 0 text = some 0

def visibilityText : Option Space → List Char
  | none => []
  | some g => "pub".toList ++ g.text

structure FunctionItem where
  visibility : Option Space
  gap : Space
  name : Name
  params : Params
  beforeBody : Gap
  body : Body

structure FieldItem where
  before : Gap
  visibility : Option Space
  name : Name
  type : TypeText

structure StructItem where
  visibility : Option Space
  gap : Space
  name : Name
  beforeFields : Gap
  fields : List FieldItem
  /-- What follows a comma after the last field, if there is one. -/
  closing : Option Gap

inductive Item where
  | function (f : FunctionItem)
  | struct (s : StructItem)

def FieldItem.lead (f : FieldItem) : List Char := f.before.text ++ visibilityText f.visibility

def FieldItem.text (f : FieldItem) : List Char := f.lead ++ f.name.text ++ ':' :: f.type.text

def StructItem.inner (s : StructItem) : List Char :=
  [','].intercalate (s.fields.map FieldItem.text ++ s.closing.toList.map Gap.text)

def Item.word : Item → List Char
  | .function _ => "fn".toList
  | .struct _ => "struct".toList

def Item.visibility : Item → Option Space
  | .function f => f.visibility
  | .struct s => s.visibility

def Item.gap : Item → Space
  | .function f => f.gap
  | .struct s => s.gap

def Item.name : Item → Name
  | .function f => f.name
  | .struct s => s.name

def FunctionItem.signature (f : FunctionItem) : List Char := '(' :: f.params.text ++ ')' :: f.beforeBody.text

def Item.rest : Item → List Char
  | .function f => f.signature ++ '{' :: f.body.text
  | .struct s => s.beforeFields.text ++ '{' :: s.inner

def Item.lead (i : Item) : List Char := visibilityText i.visibility ++ i.word ++ i.gap.text

def Item.front (i : Item) : List Char := i.lead ++ i.name.text ++ i.rest

def Item.text (i : Item) : List Char := i.front ++ ['}']

/-- A row of items, each with the white space after it. -/
structure Program where
  before : Gap
  items : List (Item × Gap)

def itemsText : List (Item × Gap) → List Char
  | [] => []
  | x :: xs => x.1.text ++ x.2.text ++ itemsText xs

def Program.text (p : Program) : List Char := p.before.text ++ itemsText p.items

def Program.source (p : Program) : String := String.ofList p.text

def placed (u : List Char) : List (Item × Gap) → List (List Char × Item)
  | [] => []
  | x :: xs => (u, x.1) :: placed (u ++ x.1.text ++ x.2.text) xs

def Program.placed (p : Program) : List (List Char × Item) := Plain.placed p.before.text p.items

def lineAfter (u : List Char) : Nat := u.count '\n' + 1

def FunctionItem.parsed (f : FunctionItem) (u : List Char) : Function :=
  let front := u ++ (Item.function f).lead ++ f.name.text ++ f.signature
  { name := String.ofList f.name.text
    offset := u.length
    startLine := lineAfter u
    bodyStartLine := lineAfter front
    endLine := lineAfter (front ++ '{' :: f.body.text)
    params := String.ofList (collapse f.params.text)
    isPub := f.visibility.isSome
    body := String.ofList ('{' :: f.body.text ++ ['}']) }

def FieldItem.parsed (f : FieldItem) (u : List Char) : Field where
  name := String.ofList f.name.text
  type := String.ofList (collapse f.type.text)
  line := lineAfter (u ++ f.lead)

/-- The fields of declarations after a text, each followed by a comma. -/
def parsedFields (u : List Char) : List FieldItem → List Field
  | [] => []
  | f :: fs => f.parsed u :: parsedFields (u ++ f.text ++ [',']) fs

def StructItem.parsed (s : StructItem) (u : List Char) : Struct :=
  let front := u ++ (Item.struct s).lead ++ s.name.text ++ s.beforeFields.text
  { name := String.ofList s.name.text
    startLine := lineAfter u
    endLine := lineAfter (front ++ '{' :: s.inner)
    fields := parsedFields (front ++ ['{']) s.fields }

def Item.function? (u : List Char) : Item → Option Function
  | .function f => some (f.parsed u)
  | .struct _ => none

def Item.struct? (u : List Char) : Item → Option Struct
  | .function _ => none
  | .struct s => some (s.parsed u)

def Program.functions (p : Program) : List Function := p.placed.filterMap fun x => x.2.function? x.1

def Program.structs (p : Program) : List Struct := p.placed.filterMap fun x => x.2.struct? x.1

open List Item
variable {w : List Char} {i : Nat}
variable (p : Program) (n : Name)

variable {a b s : List Char} {d : Char}

/-- Nothing in the text could be taken for a literal, an attribute or a comment. -/
structure Clean (s : List Char) : Prop where
  double : '"' ∉ s
  single : '\'' ∉ s
  hash : '#' ∉ s
  comment : opensComment s = false

/-- Nothing in the text could be taken for something else than a part of an item. -/
structure Quiet (s : List Char) : Prop extends Clean s where
  lacks : ∀ w ∈ itemWords, Lacks w s

theorem isWord_of_mem (h : w ∈ itemWords) : IsWord w := by
  simp only [itemWords, mem_cons, not_mem_nil, or_false] at h
  rcases h with rfl | rfl | rfl | rfl <;> exact ⟨by decide, by decide⟩

theorem clean_of_mem (h : w ∈ itemWords) : Clean w := by
  simp only [itemWords, mem_cons, not_mem_nil, or_false] at h
  rcases h with rfl | rfl | rfl | rfl <;> exact ⟨by decide, by decide, by decide, by decide⟩

theorem Item.word_mem (x : Item) : x.word ∈ itemWords := by
  cases x with
  | function f => exact .head _
  | struct s => exact .tail _ (.head _)

theorem quiet_of_isQuiet (h : isQuiet s = true) : Quiet s := by
  simp only [isQuiet, Bool.and_eq_true, Bool.not_eq_true', contains_eq_mem, decide_eq_false_iff_not, all_eq_true] at h
  obtain ⟨⟨⟨⟨hdouble, hsingle⟩, hhash⟩, hcomment⟩, hwords⟩ := h
  exact ⟨⟨hdouble, hsingle, hhash, hcomment⟩, fun w hw => lacks_of_hasWord (isWord_of_mem hw) (hwords w hw)⟩

theorem opensComment_of_not_mem (h : '/' ∉ s) : opensComment s = false := by
  induction s with
  | nil => rfl
  | cons c s ih =>
    rw [mem_cons, not_or] at h
    rw [opensComment, ih h.2, beq_eq_false_iff_ne.mpr (Ne.symm h.1)]
    rfl

theorem all_isIdentChar : n.text.all isIdentChar = true := by
  have h := n.identifier
  unfold isIdentifier at h
  split at h
  · cases h
  · next c s hn =>
    rw [Bool.and_eq_true] at h
    rw [hn, all_cons, isIdentChar_of_isIdentStart h.1, h.2]
    rfl

theorem all_isWordChar : n.text.all isWordChar = true := by
  rw [all_eq_true]
  exact fun c hc => isWordChar_of_isIdentChar (all_eq_true.mp (all_isIdentChar n) c hc)

theorem Name.quiet : Quiet n.text := by
  have hnot (c : Char) (hc : isIdentChar c = false) : c ∉ n.text := by
    intro hmem
    rw [all_eq_true.mp (all_isIdentChar n) c hmem] at hc
    cases hc
  refine ⟨⟨hnot _ (by decide), hnot _ (by decide), hnot _ (by decide),
    opensComment_of_not_mem (hnot _ (by decide))⟩, fun w hw => lacks_of_ne (all_isWordChar n) ?_⟩
  rintro rfl
  exact absurd hw (by simpa using n.free)

theorem quiet_pub : Quiet "pub".toList := quiet_of_isQuiet (by decide)

theorem Space.exists_cons (g : Space) : ∃ c r, g.text = c :: r ∧ isBlank c = true ∧ r.all isBlank = true := by
  obtain ⟨c, r, hg⟩ := exists_cons_of_ne_nil g.nonempty
  have hblank := g.blank
  rw [hg, all_cons, Bool.and_eq_true] at hblank
  exact ⟨c, r, hg, hblank⟩

/-- A character that keeps the parts of a program apart. -/
def isDelimiter (d : Char) : Bool := isBlank d || ['(', ')', '{', '}', ':', ','].contains d

theorem isWordChar_of_isDelimiter (h : isDelimiter d = true) : isWordChar d = false := by
  rw [isDelimiter, Bool.or_eq_true] at h
  rcases h with h | h
  · exact isWordChar_of_isBlank h
  · simp only [contains_eq_mem, mem_cons, not_mem_nil, or_false, decide_eq_true_eq] at h
    rcases h with rfl | rfl | rfl | rfl | rfl | rfl <;> decide

theorem isDelimiter_of_isBlank (h : isBlank d = true) : isDelimiter d = true := by
  rw [isDelimiter, h, Bool.true_or]

/-- What is known of two texts is known of both with a delimiter between them. -/
structure Divisible (P : List Char → Prop) : Prop where
  nil : P []
  cut : ∀ {a b : List Char} {d : Char}, isDelimiter d = true → P a → P b → P (a ++ d :: b)

theorem divisible_lacks (hw : IsWord w) : Divisible (Lacks w) where
  nil := lacks_nil hw
  cut hd ha hb := ha.cut hw (isWordChar_of_isDelimiter hd) hb

theorem opensComment_cut (hslash : d ≠ '/') (hstar : d ≠ '*') (ha : opensComment a = false)
    (hb : opensComment b = false) : opensComment (a ++ d :: b) = false := by
  induction a with
  | nil =>
    rw [nil_append, opensComment, hb, beq_eq_false_iff_ne.mpr hslash]
    rfl
  | cons c a ih =>
    rw [opensComment, Bool.or_eq_false_iff] at ha
    rw [cons_append, opensComment, ih ha.2, Bool.or_false]
    cases a with
    | nil => simp [hslash, hstar]
    | cons e a => exact ha.1

theorem divisible_clean : Divisible Clean where
  nil := ⟨by simp, by simp, by simp, rfl⟩
  cut {a b d} hd ha hb := by
    have hne (c : Char) (hc : isDelimiter c = false) : d ≠ c := by
      rintro rfl
      rw [hd] at hc
      cases hc
    have hnot {c : Char} (hc : isDelimiter c = false) (ha : c ∉ a) (hb : c ∉ b) : c ∉ a ++ d :: b := by
      simp [ha, hb, Ne.symm (hne c hc)]
    exact ⟨hnot (by decide) ha.double hb.double, hnot (by decide) ha.single hb.single,
      hnot (by decide) ha.hash hb.hash,
      opensComment_cut (hne _ (by decide)) (hne _ (by decide)) ha.comment hb.comment⟩

namespace Divisible
variable {P : List Char → Prop}

theorem gap (hP : Divisible P) (g : Gap) (hb : P b) : P (g.text ++ b) := by
  have hall : ∀ g : List Char, g.all isBlank = true → P (g ++ b) := by
    intro g
    induction g with
    | nil => exact fun _ => hb
    | cons c g ih =>
      intro hg
      rw [all_cons, Bool.and_eq_true] at hg
      exact hP.cut (a := []) (isDelimiter_of_isBlank hg.1) hP.nil (ih hg.2)
  exact hall g.text g.blank

theorem spaced (hP : Divisible P) (g : Gap) (hd : isDelimiter d = true) (ha : P a) (hb : P b) :
    P (a ++ (g.text ++ d :: b)) := by
  obtain ⟨g, hg⟩ := g
  cases g with
  | nil => exact hP.cut hd ha hb
  | cons c g =>
    rw [all_cons, Bool.and_eq_true] at hg
    exact hP.cut (isDelimiter_of_isBlank hg.1) ha (hP.gap ⟨g, hg.2⟩ (hP.cut (a := []) hd hP.nil hb))

theorem space (hP : Divisible P) (g : Space) (ha : P a) (hb : P b) : P (a ++ (g.text ++ b)) := by
  obtain ⟨c, r, hg, hc, hr⟩ := g.exists_cons
  rw [hg]
  exact hP.cut (isDelimiter_of_isBlank hc) ha (hP.gap ⟨r, hr⟩ hb)

theorem visibility (hP : Divisible P) (hpub : P "pub".toList) (v : Option Space) (hb : P b) :
    P (visibilityText v ++ b) := by
  cases v with
  | none => exact hb
  | some g =>
    rw [visibilityText, append_assoc]
    exact hP.space g hpub hb

variable (hP : Divisible P) (hquiet : ∀ s, Quiet s → P s)
include hP hquiet

theorem field (f : FieldItem) : P f.text := by
  rw [FieldItem.text, FieldItem.lead, append_assoc, append_assoc]
  refine hP.gap f.before (hP.visibility (hquiet _ quiet_pub) f.visibility ?_)
  exact hP.cut (by decide) (hquiet _ f.name.quiet) (hquiet _ (quiet_of_isQuiet f.type.quiet))

theorem inner (i : StructItem) : P i.inner := by
  have hall : ∀ chunks : List (List Char), (∀ c ∈ chunks, P c) → P ([','].intercalate chunks) := by
    intro chunks
    induction chunks with
    | nil => exact fun _ => hP.nil
    | cons c chunks ih =>
      intro hchunks
      cases chunks with
      | nil =>
        rw [intercalate_singleton]
        exact hchunks c (.head _)
      | cons c' chunks =>
        rw [intercalate_cons_cons, append_assoc]
        exact hP.cut (d := ',') (by decide) (hchunks c (.head _)) (ih fun x hx => hchunks x (.tail _ hx))
  refine hall _ fun c hc => ?_
  rcases mem_append.mp hc with hc | hc
  · obtain ⟨f, -, rfl⟩ := mem_map.mp hc
    exact hP.field hquiet f
  · obtain ⟨g, -, rfl⟩ := mem_map.mp hc
    have := hP.gap g hP.nil
    rwa [append_nil] at this

theorem named (i : Item) : P (i.name.text ++ i.rest) := by
  cases i with
  | function f =>
    have hbody : P (f.params.text ++ ')' :: (f.beforeBody.text ++ '{' :: f.body.text)) :=
      hP.cut (by decide) (hquiet _ (quiet_of_isQuiet f.params.quiet))
        (hP.spaced (a := []) f.beforeBody (by decide) hP.nil (hquiet _ (quiet_of_isQuiet f.body.quiet)))
    rw [rest, FunctionItem.signature, append_assoc]
    exact hP.cut (by decide) (hquiet _ f.name.quiet) hbody
  | struct i => exact hP.spaced i.beforeFields (by decide) (hquiet _ i.name.quiet) (hP.inner hquiet i)

theorem front (i : Item) (hword : P i.word) : P i.front := by
  rw [Item.front, lead, append_assoc, append_assoc, append_assoc]
  exact hP.visibility (hquiet _ quiet_pub) _ (hP.space i.gap hword (hP.named hquiet i))

theorem items {xs : List (Item × Gap)} (hword : ∀ x ∈ xs, P x.1.word) : P (itemsText xs) := by
  induction xs with
  | nil => exact hP.nil
  | cons x xs ih =>
    rw [itemsText, text, append_assoc, append_assoc, singleton_append]
    exact hP.cut (by decide) (hP.front hquiet x.1 (hword x (.head _)))
      (hP.gap x.2 (ih fun y hy => hword y (.tail _ hy)))

theorem program {p : Program} (hword : ∀ x ∈ p.items, P x.1.word) : P p.text := hP.gap p.before (hP.items hquiet hword)

end Divisible

theorem clean_program : Clean p.text :=
  divisible_clean.program (fun _ h => h.toClean) fun x _ => clean_of_mem x.1.word_mem

/-- Where no literal and no comment can begin, every character is code. -/
theorem mask_of_clean (h : Clean s) : mask s = s := by
  have hgo : ∀ (s : List Char) (last : Option Char), Clean s → (lexemesFrom last s).flatMap Lexeme.masked = s := by
    intro s
    induction s with
    | nil =>
      intro last _
      rw [lexemesFrom]
      rfl
    | cons c s ih =>
      intro last h
      have hcomment := h.comment
      rw [opensComment, Bool.or_eq_false_iff] at hcomment
      have hrest : Clean s := ⟨fun hc => h.double (.tail _ hc), fun hc => h.single (.tail _ hc),
        fun hc => h.hash (.tail _ hc), hcomment.2⟩
      have hraw : rawOpening? (c :: s) = none := by
        cases hr : rawOpening? (c :: s) with
        | none => rfl
        | some x =>
          obtain ⟨hopening, hbegins⟩ := rawOpening?_eq_some.mp (show rawOpening? (c :: s) = some (x.1, x.2) from hr)
          refine absurd (hbegins.subset ?_) h.double
          rcases hopening with ho | ho <;> rw [ho] <;> simp
      have hreads : Reads last ((⟨.code, [c], [], []⟩ : Lexeme).text ++ s) ⟨.code, [c], [], []⟩ := by
        refine .code ?_ ?_ (fun _ => hraw) (fun hc => h.double (hc ▸ .head _)) fun hc => ?_
        · rintro ⟨rfl, hhead⟩
          simp [show s.head? = some '/' from hhead] at hcomment
        · rintro ⟨rfl, hhead⟩
          simp [show s.head? = some '*' from hhead] at hcomment
        · exact absurd (hc ▸ mem_cons_self) h.single
      have hlexemes := lexemesFrom_of_reads hreads
      rw [show (⟨.code, [c], [], []⟩ : Lexeme).text ++ s = c :: s from rfl] at hlexemes
      rw [hlexemes, flatMap_cons, ih _ hrest]
      rfl
  exact hgo s none h

theorem Space.wordAt (g : Space) (hw : IsWord w) (h : WordAt w (a ++ (g.text ++ b)) i) :
    WordAt w a i ∨ ∃ j, i = a.length + g.text.length + j ∧ WordAt w b j := by
  obtain ⟨c, r, hg, hc, hr⟩ := g.exists_cons
  rw [hg] at h ⊢
  rcases h.cut hw (isWordChar_of_isBlank hc) with h | ⟨j, rfl, hj⟩
  · exact .inl h
  · obtain ⟨k, rfl, hk⟩ := hj.skip hw fun d hd => isWordChar_of_isBlank (all_eq_true.mp hr d hd)
    exact .inr ⟨k, by rw [length_cons]; omega, hk⟩

section
variable (hw : w ∈ itemWords)
include hw

theorem wordAt_visibilityText {v : Option Space}
    (h : WordAt w (visibilityText v ++ b) i) : ∃ j, i = (visibilityText v).length + j ∧ WordAt w b j := by
  cases v with
  | none => exact ⟨i, (Nat.zero_add i).symm, h⟩
  | some g =>
    rw [visibilityText, append_assoc] at h
    rcases g.wordAt (isWord_of_mem hw) h with h | ⟨j, rfl, hj⟩
    · exact absurd h (quiet_pub.lacks w hw i)
    · exact ⟨j, by rw [visibilityText, length_append], hj⟩

theorem Item.wordAt_front {x : Item} (h : WordAt w x.front i) :
    x.word = w ∧ i = (visibilityText x.visibility).length := by
  rw [Item.front, lead, append_assoc, append_assoc, append_assoc] at h
  obtain ⟨j, rfl, hj⟩ := wordAt_visibilityText hw h
  have hrest : Lacks w (x.name.text ++ x.rest) :=
    (divisible_lacks (isWord_of_mem hw)).named (fun s hs => hs.lacks w hw) x
  rcases x.gap.wordAt (isWord_of_mem hw) hj with h | ⟨k, -, h⟩
  · obtain ⟨hword, rfl⟩ := h.eq_self (isWord_of_mem x.word_mem).2
    exact ⟨hword, rfl⟩
  · exact absurd h (hrest k)

theorem exists_placed_of_wordAt {xs : List (Item × Gap)} (h : WordAt w (itemsText xs) i) (u : List Char) :
    ∃ y ∈ placed u xs, y.2.word = w ∧ u.length + i = y.1.length + (visibilityText y.2.visibility).length := by
  induction xs generalizing i u with
  | nil => exact absurd h (lacks_nil (isWord_of_mem hw) i)
  | cons x xs ih =>
    rw [itemsText, text, append_assoc, append_assoc, singleton_append] at h
    rcases h.cut (isWord_of_mem hw) (by decide) with h | ⟨j, rfl, hj⟩
    · obtain ⟨hword, rfl⟩ := wordAt_front hw h
      exact ⟨(u, x.1), .head _, hword, rfl⟩
    · obtain ⟨k, rfl, hk⟩ := hj.skip (isWord_of_mem hw) fun d hd =>
        isWordChar_of_isBlank (all_eq_true.mp x.2.blank d hd)
      obtain ⟨y, hy, hword, hplace⟩ := ih hk (u ++ x.1.text ++ x.2.text)
      refine ⟨y, .tail _ hy, hword, ?_⟩
      rw [← hplace, text]
      simp only [length_append, length_cons, length_nil]
      omega

theorem Program.exists_placed_of_wordAt (h : WordAt w p.text i) :
    ∃ y ∈ p.placed, y.2.word = w ∧ i = y.1.length + (visibilityText y.2.visibility).length := by
  obtain ⟨j, rfl, hj⟩ := h.skip (isWord_of_mem hw) fun d hd =>
    isWordChar_of_isBlank (all_eq_true.mp p.before.blank d hd)
  exact Plain.exists_placed_of_wordAt hw hj p.before.text

theorem Program.lacks (hfn : w ≠ "fn".toList) (hstruct : w ≠ "struct".toList) : Lacks w p.text := by
  intro i h
  obtain ⟨⟨u, x⟩, -, hword, -⟩ := p.exists_placed_of_wordAt hw h
  cases x with
  | function f => exact hfn hword.symm
  | struct s => exact hstruct hword.symm

end

end ContractAudit.Source.Plain

import ContractAudit.Proofs.PlainFunctions

/-! # Parsing plain programs

The text between the braces of a struct falls apart into its fields. With the functions, and as heads of
items stand nowhere else, a plain program is parsed to itself (`ofText_source`). -/

namespace ContractAudit.Source.Plain
open Text Pattern List FieldItem Sheet
variable {s : StructItem} {x a : List Char}
variable (f : FieldItem)

variable {t u v : List Char} {m : Captures}

/-! ### Characters of fields -/

def isLeading (c : Char) : Bool := isBlank c || isIdentChar c || c == ':'

theorem avoids_of_isLeading {s : List Char} (h : s.all isLeading = true) :
    avoids ['(', '[', '{', '<', ')', ']', '}', '>', ',', '-'] s = true := by
  rw [all_eq_true] at h
  refine all_eq_true.mpr fun c hc => ?_
  have hleading := h c hc
  rw [contains_eq_mem, Bool.not_eq_true', decide_eq_false_iff_not]
  intro hmem
  simp only [mem_cons, not_mem_nil, or_false] at hmem
  rcases hmem with rfl | rfl | rfl | rfl | rfl | rfl | rfl | rfl | rfl | rfl <;>
    exact absurd hleading (by decide)

theorem all_isLeading_of_blank {g : List Char} (hg : g.all isBlank = true) : g.all isLeading = true := by
  rw [all_eq_true] at hg ⊢
  intro c hc
  rw [isLeading, hg c hc, Bool.true_or, Bool.true_or]

theorem all_isLeading_field : (f.lead ++ f.name.text ++ [':']).all isLeading = true := by
  have hname : f.name.text.all isLeading = true := by
    have h := all_isIdentChar f.name
    rw [all_eq_true] at h ⊢
    intro c hc
    rw [isLeading, h c hc, Bool.or_true, Bool.true_or]
  have hvisibility : (visibilityText f.visibility).all isLeading = true := by
    cases f.visibility with
    | none => rfl
    | some g =>
      rw [visibilityText, all_append, all_isLeading_of_blank g.blank]
      decide
  rw [lead, all_append, all_append, all_append, hname, hvisibility, all_isLeading_of_blank f.before.blank]
  decide

theorem bracketsAfter?_append {depth : Int} (hx : x.all isLeading = true) (s : List Char) :
    bracketsAfter? depth (x ++ s) = bracketsAfter? depth s := by
  induction x with
  | nil => rfl
  | cons c x ih =>
    have hnot {d : Char} (hd : d ∈ ['(', '[', '{', '<', ')', ']', '}', '>', ',', '-']) : c ≠ d := by
      rintro rfl
      exact not_mem_of_avoids (avoids_of_isLeading hx) hd (.head _)
    have hstep : bracketStep c = 0 := by simp [bracketStep, hnot]
    rw [all_cons, Bool.and_eq_true] at hx
    rw [cons_append, bracketsAfter?, hstep, Int.add_zero, ih hx.2, if_neg (by simp [hnot])]

theorem chunk_of_struct (hx : x ∈ s.fields.map FieldItem.text ++ s.closing.toList.map Gap.text) :
    bracketsAfter? 0 x = some 0 ∧ avoids ['{', '}', '-'] x = true := by
  have havoids {y : List Char} (hy : y.all isLeading = true) : avoids ['{', '}', '-'] y = true :=
    avoids_mono (avoids_of_isLeading hy) (by simp)
  rcases mem_append.mp hx with hx | hx
  · obtain ⟨f, -, rfl⟩ := mem_map.mp hx
    have hfront := all_isLeading_field f
    have htext : f.text = f.lead ++ f.name.text ++ [':'] ++ f.type.text := by
      rw [FieldItem.text, append_assoc _ [':']]
      rfl
    rw [htext, bracketsAfter?_append hfront, f.type.balanced, avoids, all_append]
    exact ⟨rfl, Bool.and_eq_true_iff.mpr ⟨havoids hfront, f.type.flat⟩⟩
  · obtain ⟨g, -, rfl⟩ := mem_map.mp hx
    have hblank := all_isLeading_of_blank g.blank
    refine ⟨?_, havoids hblank⟩
    rw [← append_nil g.text, bracketsAfter?_append hblank]
    rfl

theorem not_mem_inner {c : Char} (hc : c ∈ ['{', '}']) : c ∉ s.inner := by
  intro h
  rcases Text.mem_intercalate h with h | ⟨x, hx, hmem⟩
  · obtain rfl := mem_singleton.mp h
    simp at hc
  · exact not_mem_of_avoids (chunk_of_struct hx).2 (mem_append_left ['-'] hc) hmem

/-! ### Reading a field -/

def FieldItem.declaration (f : FieldItem) : List Char :=
  visibilityText f.visibility ++ (f.name.text ++ ':' :: f.type.text)

theorem FieldItem.text_eq : f.text = f.before.text ++ f.declaration := by
  rw [text, lead, declaration, append_assoc, append_assoc]

theorem FieldItem.head?_declaration : ∃ d, f.declaration.head? = some d ∧ isIdentStart d = true := by
  rw [declaration]
  cases f.visibility with
  | none => exact head?_name f.name _
  | some g => exact ⟨'p', rfl, by decide⟩

theorem FieldItem.trimStart_text : trimStart f.text = f.declaration := by
  obtain ⟨d, hd, hstart⟩ := f.head?_declaration
  rw [trimStart, f.text_eq, dropWhile_isBlank f.before.blank (by rw [hd]; exact isBlank_of_isIdentStart hstart)]

theorem FieldItem.leadingAttributes_text : leadingAttributes f.text = ([], f.text) := by
  rw [leadingAttributes]
  split
  · next r h =>
    obtain ⟨d, hd, hstart⟩ := f.head?_declaration
    rw [← f.trimStart_text, h] at hd
    cases hd
    exact absurd hstart (by decide)
  · rfl

theorem exists_trim {s : List Char} (h : s.all isBlank = false) :
    ∃ a x b, s = a ++ (x ++ b) ∧ a.all isBlank = true ∧ b.all isBlank = true ∧ x ≠ [] ∧
      x.head?.any isBlank = false ∧ x.getLast?.any isBlank = false := by
  have hdrop (s : List Char) : (s.dropWhile isBlank).head?.any isBlank = false := by
    induction s with
    | nil => rfl
    | cons c s ih =>
      rw [dropWhile_cons]
      split
      · exact ih
      · next hc => simpa using hc
  have hend : trimStart s = trimEnd (trimStart s) ++ ((trimStart s).reverse.takeWhile isBlank).reverse := by
    rw [trimEnd, ← reverse_append, takeWhile_append_dropWhile, reverse_reverse]
  have hblank : ((trimStart s).reverse.takeWhile isBlank).reverse.all isBlank = true := by
    rw [all_reverse, all_takeWhile]
  have hne : trimEnd (trimStart s) ≠ [] := by
    intro hnil
    rw [hnil, nil_append] at hend
    rw [← hend] at hblank
    have hall : s.all isBlank = true := by
      rw [← takeWhile_append_dropWhile (p := isBlank) (l := s), all_append, all_takeWhile]
      exact hblank
    rw [hall] at h
    cases h
  refine ⟨s.takeWhile isBlank, trimEnd (trimStart s), _, ?_, all_takeWhile, hblank, hne, ?_, ?_⟩
  · rw [← hend]
    exact takeWhile_append_dropWhile.symm
  · have hstart := hdrop s
    rw [← trimStart, hend, head?_append_of_ne_nil _ hne] at hstart
    exact hstart
  · rw [trimEnd, getLast?_reverse]
    exact hdrop _

theorem trimEnd_append {s b : List Char} (hs : s.getLast?.any isBlank = false) (hb : b.all isBlank = true) :
    trimEnd (s ++ b) = s := by
  rw [trimEnd, reverse_append, dropWhile_isBlank (by rwa [all_reverse]) (by rwa [head?_reverse]), reverse_reverse]

/-- What follows the letters `pub` at the start of a name shows that they are no visibility. -/
theorem fails_pub (n : Name) (r : List Char) :
    (lit "pub" ++ opt (blanks ++ char '(' ++ many (noneOf ")") ++ char ')') ++ blanks1).Fails u
      (n.text ++ ':' :: r) := by
  rintro m c l ⟨c₂, m₂, ⟨c₁, m₁, hpub, hparen⟩, hblanks⟩
  obtain ⟨w, hw, rfl⟩ := path_lit hpub
  have hhead : ∃ d, w.head? = some d ∧ isBlank d = false ∧ d ≠ '(' := by
    rcases append_eq_append_iff.mp hw with ⟨a, ha, hr⟩ | ⟨a, ha, rfl⟩
    · cases a with
      | nil => exact ⟨':', by rw [← nil_append w, ← hr]; rfl, by decide, by decide⟩
      | cons d a =>
        obtain ⟨rfl, -⟩ := List.cons.inj hr
        have hmem : ':' ∈ "pub".toList := by
          rw [ha]
          simp
        exact absurd hmem (by decide)
    · cases a with
      | nil => exact ⟨':', rfl, by decide, by decide⟩
      | cons d a =>
        have hident : isIdentChar d = true := all_eq_true.mp (all_isIdentChar n) d (by rw [ha]; simp)
        refine ⟨d, rfl, Bool.eq_false_iff.mpr fun hblank => ?_, ?_⟩
        · rw [isIdentChar_of_isBlank hblank] at hident
          cases hident
        · rintro rfl
          exact absurd hident (by decide)
  obtain ⟨d, hd, hblank, hne⟩ := hhead
  rcases hparen with ⟨c₃, m₃, ⟨c₄, m₄, hopen, -⟩, -⟩ | ⟨rfl, -⟩
  · exact fails_blanks_char (g := []) rfl (by rw [hd]; exact hblank) (by rw [hd]; simpa using hne) (by decide)
      _ _ _ hopen
  · obtain ⟨e, g, r, rfl, he, -⟩ := path_some1_cons hblanks
    cases hd
    rw [he] at hblank
    cases hblank

theorem takes_fieldVisibility (g : Option Space) (n : Name) (r : List Char) :
    (opt (lit "pub" ++ opt (blanks ++ char '(' ++ many (noneOf ")") ++ char ')') ++ blanks1)).Takes u
      (visibilityText g) (n.text ++ ':' :: r) m m := by
  cases g with
  | none => exact (fails_pub n r).opt
  | some g =>
    obtain ⟨d, hd, hstart⟩ := head?_name n (':' :: r)
    have hblank : (n.text ++ ':' :: r).head?.any isBlank = false := by
      rw [hd]
      exact isBlank_of_isIdentStart hstart
    have hparen : (n.text ++ ':' :: r).head? ≠ some '(' := by
      rw [hd]
      rintro ⟨⟩
      exact absurd hstart (by decide)
    have hpub : (lit "pub").Takes u "pub".toList ([] ++ (g.text ++ (n.text ++ ':' :: r))) m m := takes_lit "pub"
    have hblanks : blanks1.Takes (u ++ ("pub".toList ++ [])) g.text (n.text ++ ':' :: r) m m :=
      takes_some1_one g.blank g.nonempty hblank
    exact ((Takes.seq (x := []) hpub (takes_restriction g.blank hblank hparen)).seq hblanks).left empty

theorem takes_fieldPattern (g : Option Space) (n : Name) (ha : a.all isBlank = true)
    (hx : x ≠ []) (hhead : x.head?.any isBlank = false) :
    fieldPattern.Takes [] (visibilityText g ++ (n.text ++ ':' :: (a ++ x))) [] []
      [(2, ⟨(visibilityText g ++ n.text ++ ':' :: a).length, x, x.length⟩),
        (1, ⟨(visibilityText g).length, n.text ++ ':' :: (a ++ x), n.text.length⟩)] := by
  have hvisibility := takes_fieldVisibility (u := []) (m := []) g n (a ++ (x ++ []))
  have hname : (mark 1 ident).Takes ([] ++ visibilityText g) n.text ([] ++ ([':'] ++ (a ++ (x ++ [])))) [] _ :=
    (takes_ident n rfl).mark 1
  have hgap {m : Captures} : blanks.Takes ([] ++ (visibilityText g ++ n.text)) [] ([':'] ++ (a ++ (x ++ []))) m m :=
    takes_many_one rfl rfl
  have hblanks {u : List Char} {m : Captures} : blanks.Takes u a (x ++ []) m m :=
    takes_many_one ha (by rwa [append_nil])
  have htype {u : List Char} {m : Captures} : (some1 anyChar).Takes u x ([] ++ []) m m :=
    takes_some1_one (all_eq_true.mpr fun _ _ => rfl) hx rfl
  have hend {u : List Char} {m : Captures} : textEnd.Takes u [] [] m m := takes_here rfl
  have hall := Takes.seq (x := []) ((((Takes.seq (x := []) (hvisibility.seq hname) hgap).seq
    (takes_char ':')).seq hblanks).seq (htype.mark 2)) hend
  simpa [fieldPattern] using hall

theorem opensComment_of_eq {s b : List Char} (h : s = a ++ '/' :: '/' :: b) : opensComment s = true := by
  induction a generalizing s with
  | nil =>
    rw [h]
    rfl
  | cons c a ih => rw [h, cons_append, opensComment, ih rfl, Bool.or_true]

theorem findAll_docComment : docComment.findAll f.text = [] := by
  have hclean : Clean f.text := divisible_clean.field (fun _ h => h.toClean) f
  refine findAll_eq_nil fun u v hs => ?_
  refine Fails.seq (Fails.seq ?_ _) _
  rintro m c n ⟨c₂, m₂, ⟨c₁, m₁, ⟨-, rfl, -⟩, hblanks⟩, hlit⟩
  obtain ⟨w, r, rfl, -, rfl⟩ := path_many_one hblanks
  obtain ⟨r, rfl, -⟩ := path_lit hlit
  have hopens : opensComment f.text = true :=
    opensComment_of_eq (a := u ++ w) (b := '/' :: r) (by rw [hs, append_assoc]; rfl)
  rw [hclean.comment] at hopens
  cases hopens

theorem FieldItem.all_isBlank_text : f.text.all isBlank = false := by
  obtain ⟨d, hd, hstart⟩ := f.head?_declaration
  refine Bool.eq_false_iff.mpr fun hall => ?_
  have hmem : d ∈ f.text := by
    rw [f.text_eq]
    exact mem_append_right _ (mem_of_mem_head? hd)
  rw [all_eq_true] at hall
  have hblank := isBlank_of_isIdentStart hstart
  rw [hall d hmem] at hblank
  cases hblank

theorem FieldItem.matchStart_declaration :
    ∃ m name, fieldPattern.matchStart (trimEnd f.declaration) = some m ∧ m.capture? 1 = some name ∧
      name.text = f.name.text ∧ name.start = (visibilityText f.visibility).length ∧
      collapse (m.group 2) = collapse f.type.text := by
  obtain ⟨a, x, b, hs, ha, hb, hne, hhead, hlast⟩ := exists_trim f.type.nonblank
  have hx : visibilityText f.visibility ++ (f.name.text ++ ':' :: (a ++ x)) =
      visibilityText f.visibility ++ (f.name.text ++ ':' :: a) ++ x := by simp
  have htrim : trimEnd f.declaration = visibilityText f.visibility ++ (f.name.text ++ ':' :: (a ++ x)) := by
    have heq : f.declaration = visibilityText f.visibility ++ (f.name.text ++ ':' :: (a ++ x)) ++ b := by
      rw [declaration, hs]
      simp
    rw [heq]
    refine trimEnd_append ?_ hb
    rw [hx, getLast?_append_of_ne_nil _ hne]
    exact hlast
  have hmatch := (takes_fieldPattern f.visibility f.name ha hne hhead).matchAt
  rw [append_nil] at hmatch
  refine ⟨_, ⟨(visibilityText f.visibility).length, f.name.text ++ ':' :: (a ++ x), f.name.text.length⟩,
    by rw [htrim]; exact hmatch, rfl, take_left, rfl, ?_⟩
  show collapse (x.take x.length) = _
  rw [take_length, collapse, collapse, hs, words_of_blank_append ha, words_append_of_blank hb]

theorem field?_text {f : FieldItem} (ht : t = u ++ (f.text ++ v)) :
    (sheet t).field? u.length f.text = some (f.parsed u) := by
  obtain ⟨m, name, hmatch, hcapture, hname, hstart, htype⟩ := f.matchStart_declaration
  have hraw : between t u.length (u.length + f.text.length) = f.text := between_eq ht rfl rfl
  have hplace : u.length + (f.text.length - f.declaration.length) + (visibilityText f.visibility).length =
      (u ++ f.lead).length := by
    rw [f.text_eq, lead]
    simp only [length_append]
    omega
  have hline : (sheet t).lineOf (u ++ f.lead).length = lineAfter (u ++ f.lead) := by
    refine lineOf_sheet (v := f.name.text ++ ':' :: f.type.text ++ v) ?_
    rw [ht, FieldItem.text]
    simp
  rw [field?, if_neg (by rw [f.all_isBlank_text]; decide), f.leadingAttributes_text]
  simp only [f.trimStart_text, hmatch, hcapture, hname, hstart, htype, hplace, hline,
    show (sheet t).text = t from rfl, hraw, findAll_docComment]
  rfl

/-! ### Structs -/

theorem filterMap_field? (fs : List FieldItem) (g : Option Gap)
    (ht : t = u ++ ([','].intercalate (fs.map FieldItem.text ++ g.toList.map Gap.text) ++ v)) :
    (chunksAt u.length (fs.map FieldItem.text ++ g.toList.map Gap.text)).filterMap
      (fun x => (sheet t).field? x.1 x.2) = parsedFields u fs := by
  induction fs generalizing u with
  | nil =>
    cases g with
    | none => rfl
    | some g =>
      have hnone : (sheet t).field? u.length g.text = none := by rw [field?, if_pos g.blank]
      exact filterMap_cons_none hnone
  | cons f fs ih =>
    rw [map_cons, cons_append] at ht ⊢
    rw [chunksAt, parsedFields]
    generalize hxs : fs.map FieldItem.text ++ g.toList.map Gap.text = xs at ht ih ⊢
    cases xs with
    | nil =>
      obtain ⟨hfs, -⟩ := append_eq_nil_iff.mp hxs
      rw [map_eq_nil_iff] at hfs
      rw [intercalate_singleton] at ht
      simp only [filterMap_cons, field?_text ht, hfs]
      rfl
    | cons x xs =>
      rw [intercalate_cons_cons] at ht
      have hfield : t = u ++ (f.text ++ ([','] ++ ([','].intercalate (x :: xs) ++ v))) := by
        rw [ht]
        simp
      have hrest : t = u ++ f.text ++ [','] ++ ([','].intercalate (x :: xs) ++ v) := by
        rw [ht]
        simp
      have hlength : u.length + f.text.length + 1 = (u ++ f.text ++ [',']).length := by
        simp only [length_append, length_singleton]
      simp only [filterMap_cons, field?_text hfield, hlength, ih hrest]

theorem fields_inner (ht : t = u ++ (s.inner ++ v)) :
    (sheet t).fields u.length (u ++ s.inner).length = parsedFields u s.fields := by
  have hinner : between t u.length (u ++ s.inner).length = s.inner := between_eq ht rfl (length_append ..)
  have hchunks : s.fields.map FieldItem.text ++ s.closing.toList.map Gap.text = [] ∨
      chunksFrom (· == ',') none 0 u.length [] u.length s.inner =
        chunksAt u.length (s.fields.map FieldItem.text ++ s.closing.toList.map Gap.text) := by
    by_cases hnil : s.fields.map FieldItem.text ++ s.closing.toList.map Gap.text = []
    · exact .inl hnil
    · exact .inr (chunksFrom_intercalate hnil
        (fun x hx => ⟨(chunk_of_struct hx).1, not_mem_of_avoids (chunk_of_struct hx).2 (by simp)⟩) (by simp) u.length)
  rw [fields_eq, show (sheet t).masked = t from rfl, hinner]
  rcases hchunks with hnil | hchunks
  · -- without any chunk the text is empty, and read as one chunk
    obtain ⟨hfields, -⟩ := append_eq_nil_iff.mp hnil
    rw [StructItem.inner, hnil, map_eq_nil_iff.mp hfields]
    rfl
  · rw [hchunks]
    exact filterMap_field? s.fields s.closing ht

theorem braces_of_struct (ht : t = a ++ '{' :: (s.inner ++ '}' :: v)) :
    findChar t (fun c => c == '{' || c == ';' || c == '(') a.length = some a.length ∧
    t[a.length]? = some '{' ∧ blockEnd t a.length = (a ++ '{' :: s.inner).length ∧
    (sheet t).fields (a.length + 1) (a ++ '{' :: s.inner).length = parsedFields (a ++ ['{']) s.fields := by
  have hfields : t = a ++ ['{'] ++ (s.inner ++ '}' :: v) := by
    rw [ht]
    simp
  have hopen : a.length + 1 = (a ++ ['{']).length := by
    simp only [length_append, length_singleton]
  have hclose : a ++ '{' :: s.inner = a ++ ['{'] ++ s.inner := by simp
  refine ⟨?_, ?_, ?_, ?_⟩
  · rw [ht]
    exact findChar_self rfl
  · rw [ht]
    exact getElem?_append_cons ..
  · rw [ht]
    exact blockEnd_append rfl fun n => closeFrom_of_not_mem (not_mem_inner (by simp)) (not_mem_inner (by simp))
  · rw [hopen, hclose]
    exact fields_inner hfields

theorem struct_headMatch (ht : t = u ++ ((Item.struct s).lead ++ s.name.text ++ ((Item.struct s).rest ++ '}' :: v))) :
    (sheet t).struct [] (headMatch t (u, .struct s)) = s.parsed u := by
  have hmatch := headMatch_eq (y := (u, .struct s)) ht
  have hname : (headMatch t (u, .struct s)).groupText 1 = String.ofList s.name.text := by
    rw [hmatch]
    exact congrArg String.ofList take_left
  have hstart : (headMatch t (u, .struct s)).start = u.length := rfl
  have hfinish : (headMatch t (u, .struct s)).finish = (u ++ (Item.struct s).lead ++ s.name.text).length := by
    rw [hmatch, append_assoc]
    rfl
  have hfront : t = u ++ (Item.struct s).lead ++ s.name.text ++
      (s.beforeFields.text ++ '{' :: (s.inner ++ '}' :: v)) := by
    rw [ht, Item.rest]
    simp
  have hafter := afterTypeParams_append (u := u ++ (Item.struct s).lead ++ s.name.text) (d := '{')
    (v := s.inner ++ '}' :: v) s.beforeFields.blank (by decide) (by decide)
  rw [← hfront] at hafter
  rw [← append_assoc] at hfront
  obtain ⟨hbrace, hopens, hstop, hfields⟩ := braces_of_struct hfront
  have hend : (sheet t).lineOf (u ++ (Item.struct s).lead ++ s.name.text ++ s.beforeFields.text ++
      '{' :: s.inner).length = _ := lineOf_sheet (v := '}' :: v) (by rw [hfront]; simp)
  rw [Sheet.struct, StructItem.parsed]
  simp only [show (sheet t).masked = t from rfl, hfinish, hname, hstart, hafter, hbrace, hopens, hstop, hfields,
    hend, lineOf_sheet ht, beq_self_eq_true, if_true]
  rfl

/-! ### Programs -/

theorem functions_program (q : Program) : (sheet q.text).functions [] [] = q.functions := by
  rw [functions, show (sheet q.text).masked = q.text from rfl, implBlocks_eq, findAll_functionHead,
    filterMap_map, filterMap_filter, Program.functions]
  refine filterMap_congr fun y hy => ?_
  obtain ⟨v, hv⟩ := Program.exists_of_mem_placed hy
  obtain ⟨u, x⟩ := y
  cases x with
  | function f => exact function?_headMatch hv
  | struct s => rfl

theorem structs_program (q : Program) : (sheet q.text).structs [] = q.structs := by
  rw [structs, show (sheet q.text).masked = q.text from rfl, findAll_structHead, map_map,
    ← filterMap_eq_map, filterMap_filter, Program.structs]
  refine filterMap_congr fun y hy => ?_
  obtain ⟨v, hv⟩ := Program.exists_of_mem_placed hy
  obtain ⟨u, x⟩ := y
  cases x with
  | function f => rfl
  | struct s => exact congrArg some (struct_headMatch hv)

/-- A plain program is read as it was written: its functions and its structs with their fields, in
    order, each with its name, its visibility and its lines, and nothing else. -/
theorem ofText_source (q : Program) :
    (Model.ofText q.source).functions = q.functions ∧ (Model.ofText q.source).structs = q.structs ∧
      (Model.ofText q.source).modules = [] := by
  have hsheet : Sheet.ofText q.source.toList = sheet q.text := by
    rw [Program.source, String.toList_ofList, sheet_program]
  have hmodules : (sheet q.text).modules [] = [] := by
    rw [Sheet.modules, show (sheet q.text).masked = q.text from rfl, findAll_moduleHead]
    rfl
  have hattributes : attributeSpans (sheet q.text).masked = [] := attributeSpans_eq q
  simp only [Model.ofText, hsheet, hattributes, hmodules]
  exact ⟨functions_program q, structs_program q, trivial⟩

def sampleProgram : Program where
  before := ⟨[], rfl⟩
  items :=
    [(.function
        { visibility := some ⟨⟨" ".toList, by decide⟩, by decide⟩
          gap := ⟨⟨" ".toList, by decide⟩, by decide⟩
          name := ⟨"pay".toList, by decide, by decide⟩
          params := ⟨"to: Key,  amount: u64".toList, by decide, by decide⟩
          beforeBody := ⟨" ".toList, by decide⟩
          body := ⟨" if ok \x7b send() \x7d ".toList, by decide, by decide⟩ },
      ⟨"\n".toList, by decide⟩),
     (.struct
        { visibility := none
          gap := ⟨⟨" ".toList, by decide⟩, by decide⟩
          name := ⟨"Vault".toList, by decide, by decide⟩
          beforeFields := ⟨" ".toList, by decide⟩
          fields :=
            [{ before := ⟨"\n  ".toList, by decide⟩
               visibility := some ⟨⟨" ".toList, by decide⟩, by decide⟩
               name := ⟨"public".toList, by decide, by decide⟩
               type := ⟨" Map<Key, [u8; 4]>".toList, by decide, by decide, by decide, by decide⟩ }]
          closing := some ⟨"\n".toList, by decide⟩ },
      ⟨[], rfl⟩)]

example : sampleProgram.source = "pub fn pay(to: Key,  amount: u64) \x7b if ok \x7b send() \x7d \x7d\n" ++
    "struct Vault \x7b\n  pub public: Map<Key, [u8; 4]>,\n\x7d" := by decide

example : sampleProgram.functions =
    [{ name := "pay", offset := 0, startLine := 1, bodyStartLine := 1, endLine := 1,
       params := "to: Key, amount: u64", isPub := true, body := "\x7b if ok \x7b send() \x7d \x7d" }] := by
  decide

example : sampleProgram.structs =
    [{ name := "Vault", startLine := 2, endLine := 4,
       fields := [{ name := "public", type := "Map<Key, [u8; 4]>", line := 3 }] }] := by decide

end ContractAudit.Source.Plain

import ContractAudit.Proofs.CodeView
import ContractAudit.Proofs.Crossing
import ContractAudit.Proofs.SeamScans

/-! # Items of a text with one blank more -/

namespace ContractAudit.Source
open Text List Pattern Seam
variable {p : Pattern} {c : Cursor} {x x' : Match} {i : Nat} {u u' : List Char}

variable {s : Seam}

section
variable {α β γ : Type} {R : α → β → Prop} {l : List α} {l' : List β}

theorem map_eq_of_forall₂ {f : α → γ} {g : β → γ} (h : Forall₂ R l l')
    (hfg : ∀ a b, R a b → g b = f a) : l'.map g = l.map f := by
  induction h with
  | nil => rfl
  | cons hab _ ih => rw [map_cons, map_cons, hfg _ _ hab, ih]

theorem filterMap_eq_of_forall₂ {f : α → Option γ} {g : β → Option γ} (h : Forall₂ R l l')
    (hfg : ∀ a b, R a b → g b = f a) : l'.filterMap g = l.filterMap f := by
  induction h with
  | nil => rfl
  | cons hab _ ih => rw [filterMap_cons, filterMap_cons, hfg _ _ hab, ih]

theorem forall₂_filter {p : α → Bool} {q : β → Bool} (h : Forall₂ R l l')
    (hpq : ∀ a b, R a b → q b = p a) : Forall₂ R (l.filter p) (l'.filter q) :=
  rel_filter (fun a b hab => Bool.eq_iff_iff.mp (hpq a b hab).symm) h

end

theorem steady_attributeHead : attributeHead.Steady false where
  crosses := rfl
  blocked := rfl
  blind := by simp [attributeHead]

theorem steady_moduleHead : moduleHead.Steady false where
  crosses := rfl
  blocked := rfl
  blind := by simp [moduleHead, visibility]

theorem steady_functionHead : functionHead.Steady false where
  crosses := rfl
  blocked := rfl
  blind := by simp [functionHead, visibility]

theorem steady_structHead : structHead.Steady false where
  crosses := rfl
  blocked := rfl
  blind := by simp [structHead, visibility]

theorem steady_typeNamePattern : typeNamePattern.Steady false where
  crosses := rfl
  blocked := rfl
  blind := by simp [typeNamePattern]

theorem steady_impl : (word "impl").Steady false := ⟨rfl, rfl, blind_word _⟩

theorem steady_where : (word "where").Steady false := ⟨rfl, rfl, blind_word _⟩

theorem steady_for : (word "for").Steady false := ⟨rfl, rfl, blind_word _⟩

theorem last_of_path_char {a : Char} {d : Cursor} {m n : Captures}
    (h : (p ++ char a).Path c m d n) : d.last = some a := by
  obtain ⟨e, l, -, b, r, -, hb, rfl, -⟩ := h
  rw [beq_iff_eq.mp hb]

theorem finish_pred (h : x.Twin s x') {a : Char} (hlast : x.stop.last = some a)
    (ha : a ≠ '\n') : x'.finish - 1 = s.shift (x.finish - 1) := by
  have hle := h.finish_le
  rw [h.stop] at hlast
  rw [h.finish]
  cases hn : x.finish with
  | zero =>
    rw [hn] at hlast
    cases hlast
  | succ n =>
    rw [hn] at hlast hle
    have hget := getElem?_eq_getElem (show n < s.text.length by omega)
    rw [cursorAt_succ hget] at hlast
    have hne : n + 1 ≠ s.pre.length := by
      intro h
      rw [getElem?_newline h] at hget
      rw [← Option.some.inj hget] at hlast
      exact ha (Option.some.inj hlast).symm
    rw [shift_succ hne, Nat.add_sub_cancel, Nat.add_sub_cancel]

theorem finish_sub_start (hp : p.inOneLine = true)
    (hx : p.matchAt (cursorAt s.text x.start) = some x) (h : x.Twin s x') :
    x'.finish - x'.start = x.finish - x.start := by
  obtain ⟨w, hw, hfinish, hnl⟩ := behind_of_path (path_of_matchAt hx).2
  have hw : s.text.drop x.start = w ++ x.stop.rest := hw
  have hfinish : x.finish = x.start + w.length := hfinish
  have hbetween : between s.text x.start x.finish = w := by
    rw [between, hfinish, Nat.add_sub_cancel_left, hw, take_left]
  have heq := between_shift (s := s) (i := x.start) (j := x.finish) (by rw [hbetween]; exact hnl hp)
  have hlength := add_length_between (t := s.wide) (strictMono_shift.monotone
    (show x.start ≤ x.finish by omega)) (shift_le (s := s) h.finish_le)
  rw [heq, hbetween] at hlength
  rw [h.start, h.finish, ← hlength, hfinish, Nat.add_sub_cancel_left, Nat.add_sub_cancel_left]

structure AttributeSpan.At (s : Seam) (a a' : AttributeSpan) : Prop where
  start : a'.start = s.shift a.start
  stop : s.At a.stop a'.stop
  inner : a'.inner = a.inner

theorem attributeSpans_at (s : Seam) :
    Forall₂ (AttributeSpan.At s) (attributeSpans s.text) (attributeSpans s.wide) := by
  refine rel_map ?_ (rel_findAll steady_attributeHead (.inl rfl))
  rintro x x' ⟨hx, h⟩
  have hlast : x.stop.last = some '[' := last_of_path_char (path_of_matchAt hx).2
  refine ⟨h.start, ?_, ?_⟩
  · show s.At (blockEnd s.text (x.finish - 1) + 1) (blockEnd s.wide (x'.finish - 1) + 1)
    rw [finish_pred h hlast (by decide)]
    exact s.at_blockEnd_succ _
  · show (x'.finish - x'.start == 3) = (x.finish - x.start == 3)
    rw [finish_sub_start rfl hx h]

theorem lt_iff_of_at {j j' : Nat} (h : s.At j j') : s.shift i < j' ↔ i < j := by
  rcases h with rfl | ⟨rfl, rfl⟩
  · exact strictMono_shift.lt_iff_lt
  · constructor
    · exact le_shift.trans_lt
    · intro h
      rwa [shift_of_lt h]

theorem attributesBack_shift {l l' : List AttributeSpan} (h : Forall₂ (AttributeSpan.At s) l l')
    (i : Nat) : attributesBack s.wide (s.shift i) l' = attributesBack s.text i l := by
  induction h generalizing i with
  | nil => rfl
  | @cons a a' _ _ ha _ ih =>
    have hblank := (widens_between ha.stop (s.at_shift i)).all_isBlank
    have htext := (widens_between (s.at_shift a.start) ha.stop).collapse_eq
    rw [attributesBack, attributesBack, ha.start, ha.inner, hblank, htext, ih, ih]
    simp only [lt_iff_of_at ha.stop]

theorem attributesBefore_shift (s : Seam) (i : Nat) : attributesBefore s.wide (attributeSpans s.wide) (s.shift i) =
      attributesBefore s.text (attributeSpans s.text) i := by
  rw [attributesBefore, attributesBefore,
    attributesBack_shift (rel_reverse (attributeSpans_at s)) i]

/-- The sheet of a text, and the sheet of the text with the blank; `x` is the masked text. -/
def Seam.sheet (s x : Seam) : Sheet := ⟨s.text, x.text, lineStarts x.text⟩
def Seam.wideSheet (s x : Seam) : Sheet := ⟨s.wide, x.wide, lineStarts x.wide⟩

theorem exists_capture {l : Nat} (hp : p.marksName l = true) (hx : p.matchAt c = some x) (h : x.Twin s x') :
    ∃ y y', x.capture? l = some y ∧ x'.capture? l = some y' ∧ y.Twin s y' ∧ y'.text = y.text := by
  obtain ⟨y, hy, hname, -⟩ := capture?_of_path hp (path_of_matchAt hx).2
  obtain ⟨y', hy', htwin⟩ := exists_of_rel (hy ▸ h.rel_capture? l)
  exact ⟨y, y', hy, hy', htwin, htwin.text_eq hname.1⟩

theorem groupText_eq {l : Nat} (hp : p.marksName l = true)
    (hx : p.matchAt c = some x) (h : x.Twin s x') : x'.groupText l = x.groupText l := by
  obtain ⟨y, y', hy, hy', -, htext⟩ := exists_capture hp hx h
  rw [Match.groupText, Match.groupText, Match.group, Match.group, hy, hy', Option.map_some,
    Option.map_some, htext]

theorem lineOf_wideSheet {x : Seam} {i' : Nat} (h : x.At i i') :
    (s.wideSheet x).lineOf i' = (s.sheet x).lineOf i := lineOf_at h

theorem modules_wideSheet {x : Seam} (hx : x.post ≠ []) :
    (s.wideSheet x).modules (attributeSpans x.wide) = (s.sheet x).modules (attributeSpans x.text) := by
  refine map_eq_of_forall₂ (rel_findAll steady_moduleHead (.inl rfl)) ?_
  rintro y y' ⟨hy, h⟩
  have hlast : y.stop.last = some '{' := last_of_path_char (path_of_matchAt hy).2
  have hstart := lineOf_wideSheet (s := s) (x.at_shift y.start)
  have hstop := lineOf_wideSheet (s := s) (x.at_shift (blockEnd x.text (y.finish - 1)))
  have hattributes := attributesBefore_shift x y.start
  rw [← h.start] at hstart hattributes
  rw [← blockEnd_shift hx, ← finish_pred h hlast (by decide)] at hstop
  exact (Module.mk.injEq ..).mpr ⟨groupText_eq rfl hy h, hstart, hstop, hattributes⟩

theorem rel_getLast? {α β : Type} {R : α → β → Prop} {l : List α} {l' : List β}
    (h : Forall₂ R l l') : Option.Rel R l.getLast? l'.getLast? := by
  have h := rel_reverse h
  rw [← head?_reverse, ← head?_reverse]
  generalize l.reverse = r at h ⊢
  generalize l'.reverse = r' at h ⊢
  cases h with
  | nil => exact .none
  | cons h _ => exact .some h

theorem beforeWhere_widens (h : Widens u u') : Widens (beforeWhere u) (beforeWhere u') := by
  rcases h with rfl | ⟨s, rfl, rfl⟩
  · exact .refl _
  · unfold beforeWhere
    obtain ⟨hx, hx'⟩ | ⟨x, x', hx, hx', h⟩ := rel_cases (rel_search (s := s) steady_where (.inl rfl))
    · rw [hx, hx']
      exact .of_seam s
    · rw [hx, hx']
      exact widens_take (h.start ▸ s.at_shift _)

theorem afterFor_widens (h : Widens u u') : Widens (afterFor u) (afterFor u') := by
  rcases h with rfl | ⟨s, rfl, rfl⟩
  · exact .refl _
  · have hrel := rel_getLast? (rel_findAll (s := s) steady_for (.inl rfl))
    unfold afterFor
    obtain ⟨hx, hx'⟩ | ⟨x, x', hx, hx', -, h⟩ := rel_cases hrel
    · rw [hx, hx']
      exact .of_seam s
    · rw [hx, hx']
      exact widens_drop (h.finish ▸ s.at_shift _)

def dropParams (h : List Char) : List Char :=
  if h.head? == some '<' then h.drop (angleEnd h 0 + 1) else h

def nameOf (h : List Char) : String :=
  match typeNamePattern.search h with
  | some m => m.groupText 1
  | none => String.ofList h

theorem implName_eq (u : List Char) :
    implName u = nameOf (trim (afterFor (dropParams (trim (beforeWhere u))))) := rfl

theorem dropParams_widens (h : WidensInside u u') : Widens (dropParams u) (dropParams u') := by
  unfold dropParams
  rw [h.head?_eq]
  split
  · next hhead =>
    rcases h with rfl | ⟨s, hs, rfl, rfl⟩
    · exact .refl _
    · have hget : s.text[0]? = some '<' := by
        rw [← head?_eq_getElem?]
        exact beq_iff_eq.mp hhead
      have hat := at_angleEnd_succ hget
      rw [shift_of_lt (length_pos_iff.mpr hs)] at hat
      exact widens_drop hat
  · exact h.widens

/-- Names that differ in a blank at most. -/
def NameInside (n n' : String) : Prop := WidensInside n.toList n'.toList

theorem nameOf_inside (h : WidensInside u u') : NameInside (nameOf u) (nameOf u') := by
  rcases h with rfl | ⟨s, hs, rfl, rfl⟩
  · exact .inl rfl
  · have hrel := rel_search (s := s) steady_typeNamePattern (.inl rfl)
    unfold nameOf
    obtain ⟨hx, hx'⟩ | ⟨x, x', hx, hx', h⟩ := rel_cases hrel
    · rw [hx, hx']
      exact .inr ⟨s, hs, String.toList_ofList.symm, String.toList_ofList.symm⟩
    · rw [hx, hx']
      rw [search_eq] at hx
      exact .inl (congrArg String.toList (groupText_eq rfl (matchAt_of_searchAt hx) h).symm)

theorem implName_inside (h : Widens u u') : NameInside (implName u) (implName u') := by
  rw [implName_eq, implName_eq]
  exact nameOf_inside (afterFor_widens (dropParams_widens (beforeWhere_widens h).inside_trim)).inside_trim

structure ImplBlock.At (s : Seam) (b b' : ImplBlock) : Prop where
  start : b'.start = s.shift b.start
  stop : b'.stop = s.shift b.stop
  name : NameInside b.name b'.name

def implBlock? (masked : List Char) (m : Match) : Option ImplBlock :=
  match findChar masked (fun c => c == '{' || c == ';') m.finish with
  | some p =>
    if masked[p]? == some '{' then
      some ⟨p, blockEnd masked p, implName (between masked m.finish p)⟩
    else none
  | none => none

theorem implBlocks_eq (masked : List Char) :
    implBlocks masked = ((word "impl").findAll masked).filterMap (implBlock? masked) := rfl

theorem rel_implBlock? (hs : s.post ≠ []) (h : x.Twin s x') :
    Option.Rel (ImplBlock.At s) (implBlock? s.text x) (implBlock? s.wide x') := by
  have hfinish : s.At x.finish x'.finish := h.finish ▸ s.at_shift _
  have hfind := findChar_at (p := fun c => c == '{' || c == ';') (by decide) hfinish
  simp only [implBlock?, hfind]
  cases findChar s.text (fun c => c == '{' || c == ';') x.finish with
  | none => exact .none
  | some i =>
    simp only [Option.map_some, s.getElem?_shift]
    split
    · have hname := implName_inside (widens_between hfinish (s.at_shift i))
      have hstop := blockEnd_shift hs i
      generalize implName (between s.text x.finish i) = n at hname ⊢
      generalize implName (between s.wide x'.finish (s.shift i)) = n' at hname ⊢
      exact .some { start := rfl, stop := hstop, name := hname }
    · exact .none

theorem implBlocks_at (hs : s.post ≠ []) : Forall₂ (ImplBlock.At s) (implBlocks s.text) (implBlocks s.wide) := by
  rw [implBlocks_eq, implBlocks_eq]
  exact rel_filterMap (fun _ _ h => rel_implBlock? hs h.2)
    (rel_findAll steady_impl (.inl rfl))

theorem rel_firstMax {α β : Type} {R : α → β → Prop} {key : α → Nat} {key' : β → Nat} {l : List α}
    {l' : List β} (h : Forall₂ R l l')
    (hkey : ∀ a b a' b', R a a' → R b b' → (key' b' ≤ key' a' ↔ key b ≤ key a)) :
    Option.Rel R (firstMax key l) (firstMax key' l') := by
  induction h with
  | nil => exact .none
  | @cons a a' l l' ha _ ih =>
    unfold firstMax
    obtain ⟨hb, hb'⟩ | ⟨b, b', hb, hb', hbb⟩ := rel_cases ih
    · rw [hb, hb']
      exact .some ha
    · rw [hb, hb']
      simp only [hkey a b a' b' ha hbb]
      split
      · exact .some ha
      · exact .some hbb

theorem containerOf_at {impls impls' : List ImplBlock} (h : Forall₂ (ImplBlock.At s) impls impls')
    (modules : List Module) {i' line line' : Nat} (hi : i' = s.shift i) (hline : line' = line) :
    Option.Rel NameInside (containerOf impls modules i line) (containerOf impls' modules i' line') := by
  subst hi hline
  have hfilter : Forall₂ (ImplBlock.At s) (impls.filter fun b => b.start < i && i < b.stop)
      (impls'.filter fun b => b.start < s.shift i && s.shift i < b.stop) := by
    refine forall₂_filter h fun b b' hb => ?_
    simp only [hb.start, hb.stop, strictMono_shift.lt_iff_lt]
  have hmax : Option.Rel (ImplBlock.At s)
      (firstMax ImplBlock.start (impls.filter fun b => b.start < i && i < b.stop))
      (firstMax ImplBlock.start (impls'.filter fun b => b.start < s.shift i && s.shift i < b.stop)) :=
    rel_firstMax hfilter fun a b a' b' ha hb => by
      rw [ha.start, hb.start, strictMono_shift.le_iff_le]
  unfold containerOf
  obtain ⟨hb, hb'⟩ | ⟨b, b', hb, hb', hbb⟩ := rel_cases hmax
  · rw [hb, hb']
    cases firstMax Module.startLine (modules.filter (·.containsLine line')) with
    | none => exact .none
    | some m => exact .some (.inl rfl)
  · rw [hb, hb']
    exact .some hbb.name

/-- The same name, or, if texts differ in their indentation, one with a blank more. -/
def NameAlike (indented : Prop) (n n' : String) : Prop := n' = n ∨ indented ∧ NameInside n n'

structure Function.Shifted (indented : Prop) (σ : Nat → Nat) (f f' : Function) : Prop where
  name : f'.name = f.name
  offset : f'.offset = σ f.offset
  startLine : f'.startLine = f.startLine
  bodyStartLine : f'.bodyStartLine = f.bodyStartLine
  endLine : f'.endLine = f.endLine
  params : f'.params = f.params
  attributes : f'.attributes = f.attributes
  isPub : f'.isPub = f.isPub
  container : Option.Rel (NameAlike indented) f.container f'.container
  body : Widens f.body.toList f'.body.toList

theorem isSome_pubStart (h : WidensInside u u') :
    (pubStart.matchStart u').isSome = (pubStart.matchStart u).isSome := by
  rcases h with rfl | ⟨s, hs, rfl, rfl⟩
  · rfl
  · have hcrosses : pubStart.crosses false .unknown = true := rfl
    have hrel := rel_matchAt (s := s) hcrosses (by simp [pubStart]) (.inl rfl) (Nat.zero_le _)
    rw [shift_of_lt (length_pos_iff.mpr hs)] at hrel
    exact (isSome_of_rel hrel).symm

theorem rel_function? {x : Seam} (hx : x.post ≠ []) {impls impls' : List ImplBlock}
    (himpls : Forall₂ (ImplBlock.At x) impls impls') (modules : List Module) {y y' : Match}
    (hy : functionHead.matchAt (cursorAt x.text y.start) = some y) (h : y.Twin x y') :
    Option.Rel (Function.Shifted True x.shift) ((s.sheet x).function? (attributeSpans x.text) impls modules y)
      ((s.wideSheet x).function? (attributeSpans x.wide) impls' modules y') := by
  obtain ⟨n, n', hn, hn', ⟨a, b, rfl, rfl⟩, hname⟩ := exists_capture (l := 1) rfl hy h
  have hfinish : x.At y.finish y'.finish := h.finish ▸ x.at_shift _
  have hparen := findChar_at (p := (· == '(')) (by decide) (at_afterTypeParams hfinish)
  have hstart := lineOf_wideSheet (s := s) (x.at_shift y.start)
  have hattributes := attributesBefore_shift x y.start
  rw [← h.start] at hstart hattributes
  unfold Sheet.function?
  simp only [sheet, wideSheet, hn, hn', hparen]
  cases findChar x.text (· == '(') (afterTypeParams x.text y.finish) with
  | none => exact .none
  | some i =>
    have hend := blockEnd_shift hx i
    have hbrace := findChar_at (p := fun c => c == '{' || c == ';') (by decide)
      (x.at_succ (blockEnd x.text i))
    simp only [Option.map_some, Option.bind_eq_bind, Option.bind_some, hend, hbrace]
    cases findChar x.text (fun c => c == '{' || c == ';') (blockEnd x.text i + 1) with
    | none => exact .none
    | some j =>
      have hstop := blockEnd_shift hx j
      have hlead := inside_between y.start (x.at_shift a)
      rw [← h.start] at hlead
      have hbody := widens_between (x.at_shift j) (x.at_succ (blockEnd x.text j))
      simp only [Option.map_some, Option.bind_some, x.getElem?_shift, hstop]
      split
      · exact .none
      · exact .some
          { name := congrArg String.ofList hname
            offset := h.start
            startLine := hstart
            bodyStartLine := lineOf_wideSheet (s := s) (x.at_shift j)
            endLine := lineOf_wideSheet (s := s) (x.at_shift (blockEnd x.text j))
            params := congrArg String.ofList
              (widens_between (x.at_succ i) (x.at_shift (blockEnd x.text i))).collapse_eq
            attributes := hattributes
            isPub := isSome_pubStart hlead
            container := rel_imp (containerOf_at himpls modules h.start hstart) fun _ _ _ hn => .inr ⟨trivial, hn⟩
            body := by rwa [String.toList_ofList, String.toList_ofList] }

theorem functions_wideSheet {x : Seam} (hx : x.post ≠ []) (modules : List Module) :
    Forall₂ (Function.Shifted True x.shift) ((s.sheet x).functions (attributeSpans x.text) modules)
      ((s.wideSheet x).functions (attributeSpans x.wide) modules) :=
  rel_filterMap (fun _ _ ⟨hy, h⟩ => rel_function? hx (implBlocks_at hx) modules hy h)
    (rel_findAll steady_functionHead (.inl rfl))

end ContractAudit.Source

import ContractAudit.Proofs.LineMask
import ContractAudit.Proofs.SeamItems

/-! # Structs of a text with one blank more

The fields of a struct are read chunk by chunk, and none of that depends on a blank at the start of a line,
so the structs are the same. -/

namespace ContractAudit.Source
open Text List Pattern Seam Sheet
variable {i : Nat} {c : Cursor} {m : Captures} {x : Seam} {u u' t : List Char}
variable {α : Type} {d : Cursor} {n : Captures} {w : List Char} {i' j : Nat} {f : Field}

variable {s : Seam}

/-! ### Comments -/

def commentOnLine : Pattern := .blanks ++ .lit "///" ++ .mark 1 (.many .inLine) ++ .lineEnd

theorem matchAt_docComment (c : Cursor) :
    docComment.matchAt c = if c.last.all (· == '\n') then commentOnLine.matchAt c else none := rfl

/-- The same comment. Before the blank a line starts, and after it none does: the place at the start of
    the line belongs to the place before the blank. -/
structure CommentTwin (s : Seam) (x x' : Match) : Prop where
  finish : x'.finish = shiftAt (s.pre.length + 1) x.finish
  group : x'.group 1 = x.group 1

theorem last_cursorAt_shiftAt (hi : i ≤ s.text.length) :
    (cursorAt s.wide (shiftAt (s.pre.length + 1) i)).last = (cursorAt s.text i).last := by
  by_cases h : i ≤ s.pre.length
  · rw [shiftAt_of_lt (by omega)]
    exact congrArg List.getLast? (take_of_le h)
  · obtain ⟨j, rfl⟩ : ∃ j, i = j + 1 := ⟨i - 1, by omega⟩
    have hget := getElem?_eq_getElem (show j < s.text.length by omega)
    have hwide := (s.getElem?_shift j).trans hget
    rw [shift_of_le (by omega)] at hwide
    rw [shiftAt_of_le (by omega), cursorAt_succ hget, cursorAt_succ hwide]

theorem commentOnLine_shiftAt (k : Continuation α) :
    commentOnLine.run (cursorAt s.wide (shiftAt (s.pre.length + 1) i)) [] k =
      commentOnLine.run (cursorAt s.wide (s.shift i)) [] k := by
  have halike : commentOnLine.before .unknown = .alike := rfl
  have hgap := holds_before (s := s) (k := k) (o := .unknown) commentOnLine trivial
  rw [halike] at hgap
  rcases lt_trichotomy i s.pre.length with h | rfl | h
  · rw [shiftAt_of_lt (by omega), shift_of_lt h]
  · rw [shiftAt_of_lt (by omega), shift_of_le (Nat.le_refl _)]
    exact hgap []
  · rw [shiftAt_of_le (by omega), shift_of_le (by omega)]

theorem last_of_path_many {accepts : Char → Bool}
    (h : (many (.one accepts)).Path c m d n) : d.last = c.last ∨ ∃ a, accepts a = true ∧ d.last = some a := by
  rcases Relation.ReflTransGen.cases_tail h with heq | ⟨e, -, a, r, -, ha, hd, -⟩
  · rw [(Prod.mk.inj heq).1]
    exact .inl rfl
  · exact .inr ⟨a, ha, congrArg Cursor.last hd⟩

theorem last_of_path_docComment (h : docComment.Path c m d n) :
    ∃ a, d.last = some a ∧ a ≠ '\n' := by
  obtain ⟨_, _, ⟨f, _, ⟨_, _, _, hlit⟩, _, hmany, _⟩, _, rfl, _⟩ := h
  have hslash : f.last = some '/' := by
    obtain ⟨_, _, _, _, _, _, _, _, ⟨a, _, _, ha, rfl, _⟩, rfl, _⟩ := hlit
    exact congrArg some (beq_iff_eq.mp ha)
  rcases last_of_path_many hmany with hd | ⟨a, ha, hd⟩
  · exact ⟨'/', hd.trans hslash, by decide⟩
  · exact ⟨a, hd, bne_iff_ne.mp ha⟩

theorem rel_commentOnLine (hi : i ≤ s.text.length) :
    Option.Rel (fun x x' => x'.finish = s.shift x.finish ∧ x.stop = cursorAt s.text x.finish ∧
        Captures.Twin s x.captures x'.captures) (commentOnLine.matchAt (cursorAt s.text i))
      (commentOnLine.matchAt (cursorAt s.wide (shiftAt (s.pre.length + 1) i))) := by
  have hcrosses : commentOnLine.crosses false .unknown = true := rfl
  have hblind : commentOnLine.Blind := by simp [commentOnLine]
  unfold matchAt
  rw [commentOnLine_shiftAt]
  exact rel_run commentOnLine hcrosses hblind (.inl rfl) trivial
    (fun j n n' _ hn => .some ⟨rfl, rfl, hn⟩) hi .nil

theorem group_of_docComment {x x' : Match} (hx : docComment.matchAt c = some x)
    (h : Captures.Twin s x.captures x'.captures) : x'.group 1 = x.group 1 := by
  obtain ⟨y, hy, hline, -⟩ := capture_of_marks (l := 1) (P := fun w => '\n' ∉ w)
    (fun p c m d n (hp : p.inOneLine = true) hpath => by
      obtain ⟨w, hw, hoffset, hnl⟩ := behind_of_path hpath
      exact ⟨w, hw, hoffset, hnl hp⟩) (p := docComment) rfl (path_of_matchAt hx).2
  have hy : x.capture? 1 = some y := by rw [Match.capture?, hy]; rfl
  obtain ⟨y', hy', htwin⟩ := exists_of_rel (hy ▸ h.rel_capture? 1)
  rw [Match.group, Match.group, hy, hy', Option.map_some, Option.map_some, htwin.text_eq hline]

theorem rel_docComment (hi : i ≤ s.text.length) : Option.Rel (CommentTwin s) (docComment.matchAt (cursorAt s.text i))
      (docComment.matchAt (cursorAt s.wide (shiftAt (s.pre.length + 1) i))) := by
  have hrel := rel_commentOnLine hi
  rw [matchAt_docComment (cursorAt s.wide _), last_cursorAt_shiftAt hi]
  cases hx : docComment.matchAt (cursorAt s.text i) with
  | none =>
    rw [matchAt_docComment] at hx
    split at hx
    · rw [hx] at hrel
      rw [if_pos (by assumption), eq_none_of_rel hrel]
      exact .none
    · rw [if_neg (by assumption)]
      exact .none
  | some x =>
    have hpath := (path_of_matchAt hx).2
    have hmatch := hx
    rw [matchAt_docComment] at hx
    split at hx
    · obtain ⟨x', hx', hfinish, hstop, htwin⟩ := exists_of_rel (hx ▸ hrel)
      obtain ⟨a, hlast, ha⟩ := last_of_path_docComment hpath
      rw [if_pos (by assumption), hx']
      refine .some ⟨?_, group_of_docComment hmatch htwin⟩
      have hne : x.finish ≠ s.pre.length := by
        intro h
        rw [hstop, h] at hlast
        rcases last_cursorAt_pre s with hn | hn <;> rw [hn] at hlast <;> cases hlast
        exact ha rfl
      rw [hfinish]
      unfold shift shiftAt
      split <;> split <;> omega
    · cases hx

theorem docComment_end (t : List Char) : docComment.matchAt (cursorAt t t.length) = none := by
  cases hx : docComment.matchAt (cursorAt t t.length) with
  | none => rfl
  | some x =>
    obtain ⟨_, _, ⟨_, _, ⟨f, _, hblanks, hlit⟩, _⟩, _⟩ := (path_of_matchAt hx).2
    obtain ⟨w, hw, -⟩ := behind_of_path hblanks
    obtain ⟨_, _, ⟨a, r, hrest, _⟩, _⟩ := hlit
    have hw : t.drop t.length = w ++ f.rest := hw
    rw [drop_length, hrest] at hw
    simp at hw

theorem docs_widens (h : Widens u u') : (docComment.findAll u').map (fun c => String.ofList (trim (c.group 1))) =
      (docComment.findAll u).map fun c => String.ofList (trim (c.group 1)) := by
  rcases h with rfl | ⟨s, rfl, rfl⟩
  · rfl
  · have hgap : docComment.matchAt (cursorAt s.wide (s.pre.length + 1)) = none := by
      rw [matchAt_docComment, cursorAt_succ s.getElem?_gap]
      exact if_neg (by simpa using s.blank_ne_newline)
    have hfound : Forall₂ (CommentTwin s) (docComment.findAll s.text) (docComment.findAll s.wide) :=
      forall₂_findAt length_wide hgap (fun _ hi => rel_docComment hi)
        (fun _ => docComment_end s.text) (fun _ _ h => h.finish) (Nat.zero_le _) (beside_zero _) (beside_zero _)
    exact map_eq_of_forall₂ hfound fun x x' hx => by rw [hx.group]

/-! ### Attributes of fields -/

theorem leadingAttributes_of_eq {r : List Char} (h : trimStart u = '#' :: '[' :: r) : leadingAttributes u =
      (String.ofList (collapse ('#' :: ('[' :: r).take (blockEnd ('[' :: r) 0 + 1))) ::
          (leadingAttributes (r.drop (blockEnd ('[' :: r) 0))).1,
        (leadingAttributes (r.drop (blockEnd ('[' :: r) 0))).2) := by
  rw [leadingAttributes]
  split
  · next r' hr =>
    obtain rfl : r = r' := (List.cons.inj (List.cons.inj (h.symm.trans hr)).2).2
    rfl
  · next hne => exact absurd h (hne r)

theorem leadingAttributes_of_ne (h : ∀ r, trimStart u ≠ '#' :: '[' :: r) : leadingAttributes u = ([], u) := by
  rw [leadingAttributes]
  split
  · next r hr => exact absurd hr (h r)
  · rfl

theorem leadingAttributes_suffix (u : List Char) : (leadingAttributes u).2 <:+ u := by
  induction hn : u.length using Nat.strong_induction_on generalizing u with
  | _ n ih =>
    by_cases h : ∃ r, trimStart u = '#' :: '[' :: r
    · obtain ⟨r, hr⟩ := h
      have hsuffix : '#' :: '[' :: r <:+ u := hr ▸ dropWhile_suffix isBlank
      have hdrop := (drop_suffix (blockEnd ('[' :: r) 0) r).trans
        (((suffix_cons '[' r).trans (suffix_cons '#' _)).trans hsuffix)
      have hlength := hsuffix.length_le
      have hlength' := (drop_suffix (blockEnd ('[' :: r) 0) r).length_le
      rw [length_cons, length_cons] at hlength
      rw [leadingAttributes_of_eq hr]
      exact (ih _ (by omega) _ rfl).trans hdrop
    · simp [leadingAttributes_of_ne fun r hr => h ⟨r, hr⟩]

theorem attribute_cases (hs : s.pre ≠ []) : (∃ p, s.pre = '#' :: '[' :: p) ∨
    (∀ r, s.text ≠ '#' :: '[' :: r) ∧ ∀ r, s.wide ≠ '#' :: '[' :: r := by
  have hstart {a b : Char} {p : List Char} (hp : s.pre = a :: b :: p) (hne : ¬(a = '#' ∧ b = '[')) :
      (∀ r, s.text ≠ '#' :: '[' :: r) ∧ ∀ r, s.wide ≠ '#' :: '[' :: r := by
    rw [Seam.text, Seam.wide, hp]
    constructor
    all_goals
      intro r h
      obtain ⟨ha, h⟩ := List.cons.inj h
      exact hne ⟨ha, (List.cons.inj h).1⟩
  obtain ⟨a, p, hp⟩ := exists_cons_of_ne_nil hs
  cases p with
  | nil =>
    obtain rfl : a = '\n' := s.ends a (by rw [hp]; rfl)
    rw [Seam.text, Seam.wide, hp]
    right
    constructor
    all_goals
      intro r h
      exact absurd (List.cons.inj h).1 (by decide)
  | cons b p =>
    by_cases h : a = '#' ∧ b = '['
    · obtain ⟨rfl, rfl⟩ := h
      exact .inl ⟨p, hp⟩
    · exact .inr (hstart hp h)

theorem leadingAttributes_widens (h : Widens u u') : (leadingAttributes u').1 = (leadingAttributes u).1 ∧
      Widens (leadingAttributes u).2 (leadingAttributes u').2 := by
  induction hn : u.length using Nat.strong_induction_on generalizing u u' with
  | _ n ih =>
    rcases h.inside_trimStart with heq | ⟨z, hz, htext, hwide⟩
    · by_cases hr : ∃ r, trimStart u = '#' :: '[' :: r
      · obtain ⟨r, hr⟩ := hr
        rw [leadingAttributes_of_eq hr, leadingAttributes_of_eq (heq ▸ hr)]
        exact ⟨rfl, .refl _⟩
      · rw [leadingAttributes_of_ne fun r h => hr ⟨r, h⟩, leadingAttributes_of_ne fun r h => hr ⟨r, heq.trans h⟩]
        exact ⟨rfl, h⟩
    · rcases attribute_cases hz with ⟨p, hp⟩ | ⟨hne, hne'⟩
      · -- the seam of the text from the bracket on
        let y := z.ofSuffix ('[' :: p) (hp ▸ suffix_cons '#' _)
        have hat := y.at_blockEnd_succ 0
        rw [shift_of_lt (Nat.succ_pos _)] at hat
        have hcollapse := ((inside_take (cons_ne_nil '[' p) hat).append ['#'] []).widens.collapse_eq
        rw [append_nil, append_nil] at hcollapse
        have hr : trimStart u = '#' :: '[' :: (p ++ z.post) := by rw [← htext, Seam.text, hp]; rfl
        have hr' : trimStart u' = '#' :: '[' :: (p ++ z.blank :: z.post) := by
          rw [← hwide, wide, hp]; rfl
        have htrim : (trimStart u).length ≤ u.length := (dropWhile_suffix isBlank).length_le
        have hdrop : (y.text.drop (blockEnd y.text 0 + 1)).length ≤ (p ++ z.post).length :=
          (drop_suffix (blockEnd y.text 0) (p ++ z.post)).length_le
        rw [hr, length_cons, length_cons] at htrim
        obtain ⟨hattributes, htail⟩ := ih _ (by omega) (widens_drop hat) rfl
        rw [leadingAttributes_of_eq hr, leadingAttributes_of_eq hr']
        exact ⟨cons_eq_cons.mpr ⟨congrArg String.ofList hcollapse, hattributes⟩, htail⟩
      · rw [htext] at hne
        rw [hwide] at hne'
        rw [leadingAttributes_of_ne hne, leadingAttributes_of_ne hne']
        exact ⟨rfl, h⟩

/-! ### Declarations -/

theorem exists_trimEnd_append (u : List Char) : ∃ r, u = trimEnd u ++ r := by
  refine ⟨(u.reverse.takeWhile isBlank).reverse, ?_⟩
  rw [trimEnd, ← reverse_append, takeWhile_append_dropWhile, reverse_reverse]

theorem many_anyChar_ne_none {k : Continuation α} (hi : i ≤ t.length) (hk : k (cursorAt t t.length) m ≠ none) :
    (many .anyChar).run (cursorAt t i) m k ≠ none := by
  induction hn : t.length - i generalizing i with
  | zero =>
    obtain rfl : i = t.length := by omega
    rw [run_many _ hi, run_onward_of_length]
    exact hk
  | succ n ih =>
    have hstep : anyChar.run (cursorAt t i) m (onward i fun c n => (many .anyChar).run c n k) =
        (many .anyChar).run (cursorAt t (i + 1)) m k := by
      rw [anyChar, run_one (getElem?_eq_getElem (show i < t.length by omega)), if_pos rfl]
      exact if_pos (Nat.lt_succ_self i)
    rw [run_many _ hi, hstep]
    have hnext := ih (i := i + 1) (by omega) (by omega)
    cases h : (many .anyChar).run (cursorAt t (i + 1)) m k with
    | none => exact absurd h hnext
    | some a => exact Option.some_ne_none a

def fieldHead : Pattern :=
  .opt (.lit "pub" ++ .opt (.blanks ++ .char '(' ++ .many (.noneOf ")") ++ .char ')') ++ .blanks1)
    ++ .mark 1 .ident ++ .blanks ++ .char ':' ++ .blanks

def fieldType : Pattern := .mark 2 (.some1 .anyChar) ++ .textEnd

theorem matchAt_fieldPattern (c : Cursor) : fieldPattern.matchAt c =
    fieldHead.run c [] fun d m => fieldType.run d m fun e n => some ⟨c.offset, e, n⟩ := rfl

/-- Where something follows the blank, the type can begin after it. -/
theorem covered_fieldType (hs : s.post ≠ []) {n : Nat} :
    Outlook.covered.Holds s fun d m => fieldType.run d m fun e l => some (Match.mk n e l) := by
  intro m h
  refine absurd h ?_
  have hlt : s.pre.length + 1 < s.wide.length := by
    have := length_pos_iff.mpr hs
    rw [wide, length_append, length_cons]
    omega
  let finish : Continuation Match := fun d l => textEnd.run d
    ((2, ⟨s.pre.length + 1, s.wide.drop (s.pre.length + 1), d.offset - (s.pre.length + 1)⟩) :: l)
    fun e l => some ⟨n, e, l⟩
  have hfinish (l : Captures) : finish (cursorAt s.wide s.wide.length) l ≠ none := by
    have hend : (cursorAt s.wide s.wide.length).rest = [] := drop_length
    simp [finish, textEnd, run, hend]
  show (one fun _ => true).run (cursorAt s.wide (s.pre.length + 1)) m
    (fun c l => (many .anyChar).run c l finish) ≠ none
  rw [run_one (getElem?_eq_getElem hlt), if_pos rfl]
  exact many_anyChar_ne_none hlt (hfinish m)

theorem rel_fieldPattern (hpre : s.pre ≠ []) (hpost : s.post ≠ []) :
    Option.Rel (Match.Twin s) (fieldPattern.matchStart s.text) (fieldPattern.matchStart s.wide) := by
  have hhead : fieldHead.crosses false .covered = true := rfl
  have htype : fieldType.crosses false .unknown = true := rfl
  have hzero : s.shift 0 = 0 := shift_of_lt (length_pos_iff.mpr hpre)
  have hrel : Option.Rel (Match.Twin s) (fieldPattern.matchAt (cursorAt s.text 0))
      (fieldPattern.matchAt (cursorAt s.wide (s.shift 0))) := by
    rw [matchAt_fieldPattern, matchAt_fieldPattern]
    refine rel_run fieldHead hhead (by simp [fieldHead]) (.inl rfl) (covered_fieldType hpost) ?_
      (Nat.zero_le _) .nil
    intro j n n' hj hn
    refine rel_run fieldType htype (by simp [fieldType]) (.inl rfl) trivial ?_ hj hn
    intro i l l' hi hl
    exact .some ⟨rfl, rfl, Nat.zero_le _, hi, rfl, hl⟩
  rwa [hzero] at hrel

/-- The same field, declared by texts that differ in the blank at most. -/
structure FieldTwin (u u' : List Char) (m m' : Match) (n n' : Capture) : Prop where
  capture : m.capture? 1 = some n
  capture' : m'.capture? 1 = some n'
  name : n'.text = n.text
  start_le : n.start ≤ u.length
  start_le' : n'.start ≤ u'.length
  newlines : (u'.take n'.start).count '\n' = (u.take n.start).count '\n'
  type : collapse (m'.group 2) = collapse (m.group 2)

theorem capture_of_fieldPattern {m : Match} (h : fieldPattern.matchStart t = some m) :
    ∃ n, m.capture? 1 = some n ∧ Namelike n.text ∧ n.start ≤ t.length := by
  obtain ⟨n, hn, hname, w, hw, hstart, -⟩ :=
    capture?_of_path (l := 1) (p := fieldPattern) rfl (path_of_matchAt h).2
  refine ⟨n, hn, hname, ?_⟩
  have hw : t = w ++ n.rest := hw
  have hstart : n.start = 0 + w.length := hstart
  rw [hstart, hw, length_append]
  omega

theorem rel_declaration (h : WidensInside u u') :
    Option.Rel (fun m m' => ∃ n n', FieldTwin u u' m m' n n') (fieldPattern.matchStart (trimEnd u))
      (fieldPattern.matchStart (trimEnd u')) := by
  obtain ⟨r, hr⟩ := exists_trimEnd_append u
  obtain ⟨r', hr'⟩ := exists_trimEnd_append u'
  have htake {k : Nat} (hk : k ≤ (trimEnd u).length) : u.take k = (trimEnd u).take k := by
    conv_lhs => rw [hr, take_append_of_le_length hk]
  have htake' {k : Nat} (hk : k ≤ (trimEnd u').length) : u'.take k = (trimEnd u').take k := by
    conv_lhs => rw [hr', take_append_of_le_length hk]
  have hlength : (trimEnd u).length ≤ u.length := by
    conv_rhs => rw [hr, length_append]
    omega
  have hlength' : (trimEnd u').length ≤ u'.length := by
    conv_rhs => rw [hr', length_append]
    omega
  have same (heq : trimEnd u' = trimEnd u) : Option.Rel (fun m m' => ∃ n n', FieldTwin u u' m m' n n')
      (fieldPattern.matchStart (trimEnd u)) (fieldPattern.matchStart (trimEnd u')) := by
    rw [heq] at htake' hlength' ⊢
    cases hm : fieldPattern.matchStart (trimEnd u) with
    | none => exact .none
    | some m =>
      obtain ⟨n, hn, -, hle⟩ := capture_of_fieldPattern hm
      refine .some ⟨n, n, hn, hn, rfl, hle.trans hlength, hle.trans hlength', ?_, rfl⟩
      rw [htake hle, htake' hle]
  rcases h with rfl | ⟨s, hs, rfl, rfl⟩
  · exact same rfl
  · rcases s.trimEnd_eq with heq | ⟨hpost, htext, hwide⟩
    · exact same heq
    · rw [htext] at htake hlength ⊢
      rw [hwide] at htake' hlength' ⊢
      have hrel := rel_fieldPattern (s := s.withPost (trimEnd s.post)) hs hpost
      generalize s.withPost (trimEnd s.post) = z at *
      refine rel_imp hrel fun m m' hm h => ?_
      obtain ⟨n, hn, hlike, hle⟩ := capture_of_fieldPattern hm
      obtain ⟨n', hn', hcapture⟩ := exists_of_rel (hn ▸ h.rel_capture? 1)
      have hname := hcapture.text_eq hlike.1
      obtain ⟨a, b, rfl, rfl⟩ := hcapture
      have hle' := shift_le hle
      have htype := (h.widens_group 2).collapse_eq
      refine ⟨_, _, hn, hn', hname, hle.trans hlength, hle'.trans hlength', ?_, htype⟩
      rw [htake hle, htake' hle', (widens_take (z.at_shift a)).count_newline]

/-! ### Fields -/

theorem count_newline_take {a k : Nat} (hw : w = between t a (a + w.length)) (hu : u <:+ w)
    (hk : k ≤ u.length) : (t.take (a + (w.length - u.length) + k)).count '\n' =
      (t.take a).count '\n' + (w.count '\n' - u.count '\n') + (u.take k).count '\n' := by
  obtain ⟨q, rfl⟩ := hu
  have hchunk : (t.drop a).take (q.length + k) = q ++ u.take k := by
    rw [between, Nat.add_sub_cancel_left, length_append] at hw
    have htake := congrArg (List.take (q.length + k)) hw
    rw [take_take, Nat.min_eq_left (by omega), take_length_add_append] at htake
    exact htake.symm
  rw [length_append, Nat.add_sub_cancel, Nat.add_assoc, take_add, hchunk, count_append,
    count_append, count_append, Nat.add_sub_cancel, Nat.add_assoc]

theorem chunksFrom_add (isSep : Char → Bool) (last : Option Char) (depth : Int) (k c n : Nat)
    (chunk l : List Char) : chunksFrom isSep last depth (k + c) chunk (k + n) l =
      (chunksFrom isSep last depth c chunk n l).map fun x => (k + x.1, x.2) := by
  induction l generalizing last depth c n chunk with
  | nil => rfl
  | cons a l ih =>
    rw [chunksFrom, chunksFrom, Nat.add_assoc]
    split
    · exact ih ..
    split
    · rw [map_cons, ← ih]
    · exact ih ..

theorem Sheet.fields_eq (d : Sheet) (i j : Nat) : d.fields i j =
    (chunksFrom (· == ',') none 0 i [] i (between d.masked i j)).filterMap fun x => d.field? x.1 x.2 := by
  have hadd := chunksFrom_add (· == ',') none 0 i 0 0 [] (between d.masked i j)
  rw [Nat.add_zero] at hadd
  rw [hadd, filterMap_map]
  rfl

section
variable (hx : x.pre.length = s.pre.length)
include hx

theorem Seam.at_of_length (h : x.At i i') : s.At i i' := by
  unfold At shift at h ⊢
  rwa [hx] at h

theorem field?_wideSheet {c c' : Nat × List Char}
    (h : x.ChunkAt c c') : (s.wideSheet x).field? c'.1 c'.2 = (s.sheet x).field? c.1 c.2 := by
  obtain ⟨a, w⟩ := c
  obtain ⟨a', w'⟩ := c'
  have hchunk : Widens w w' := by
    have hbetween := widens_between h.start h.stop
    rwa [← h.text, ← h.wide] at hbetween
  have hraw := docs_widens (widens_between (at_of_length hx h.start) (at_of_length hx h.stop))
  obtain ⟨hattributes, htail⟩ := leadingAttributes_widens hchunk
  have hdeclaration := htail.inside_trimStart
  have hrel := rel_declaration hdeclaration
  have hsuffix : trimStart (leadingAttributes w).2 <:+ w :=
    (dropWhile_suffix isBlank).trans (leadingAttributes_suffix w)
  have hsuffix' : trimStart (leadingAttributes w').2 <:+ w' :=
    (dropWhile_suffix isBlank).trans (leadingAttributes_suffix w')
  unfold field?
  simp only [hchunk.all_isBlank, hattributes]
  split
  · rfl
  · generalize trimStart (leadingAttributes w).2 = u at *
    generalize trimStart (leadingAttributes w').2 = u' at *
    cases hm : fieldPattern.matchStart (trimEnd u) with
    | none =>
      rw [hm] at hrel
      rw [eq_none_of_rel hrel]
    | some m =>
      obtain ⟨m', hm', n, n', hn⟩ := exists_of_rel (hm ▸ hrel)
      have hline : (s.wideSheet x).lineOf (a' + (w'.length - u'.length) + n'.start) =
          (s.sheet x).lineOf (a + (w.length - u.length) + n.start) := by
        show lineOf (lineStarts x.wide) _ = lineOf (lineStarts x.text) _
        rw [lineOf_lineStarts, lineOf_lineStarts, count_newline_take h.text hsuffix hn.start_le,
          count_newline_take h.wide hsuffix' hn.start_le', hn.newlines, hchunk.count_newline,
          hdeclaration.widens.count_newline, (widens_take h.start).count_newline]
      simp only [hm', hn.capture, hn.capture', hn.name, hn.type, hline]
      exact congrArg some ((Field.mk.injEq ..).mpr ⟨rfl, rfl, rfl, rfl, hraw⟩)

theorem fields_wideSheet {j' : Nat} (hi : x.At i i')
    (hle : i ≤ x.text.length) (hle' : i' ≤ x.wide.length) (hj : x.At j j') :
    (s.wideSheet x).fields i' j' = (s.sheet x).fields i j := by
  rw [fields_eq, fields_eq]
  refine filterMap_eq_of_forall₂ (forall₂_chunksFrom (by decide) hj rfl (by simp) ?_)
    fun c c' hc => field?_wideSheet hx hc
  exact
    { start := hi
      stop := hi
      le := Nat.le_refl _
      le' := Nat.le_refl _
      le_length := hle
      le_length' := hle'
      text := (between_of_le (Nat.le_refl _)).symm
      wide := (between_of_le (Nat.le_refl _)).symm }

end

/-! ### Structs -/

theorem lt_of_findChar {p : Char → Bool} (h : findChar t p i = some j) : j < t.length := by
  obtain ⟨k, hk, rfl⟩ := Option.map_eq_some_iff.mp h
  obtain ⟨hlt, -⟩ := findIdx?_eq_some_iff_getElem.mp hk
  rw [length_drop] at hlt
  omega

theorem struct_wideSheet (hx : x.pre.length = s.pre.length) (hpost : x.post ≠ []) {y y' : Match}
    (hy : structHead.matchAt (cursorAt x.text y.start) = some y) (h : y.Twin x y') :
    (s.wideSheet x).struct (attributeSpans x.wide) y' = (s.sheet x).struct (attributeSpans x.text) y := by
  have hfinish : x.At y.finish y'.finish := h.finish ▸ x.at_shift _
  have hpos := at_afterTypeParams hfinish
  have hstart := lineOf_wideSheet (s := s) (x.at_shift y.start)
  have hattributes := attributesBefore_shift x y.start
  rw [← h.start] at hstart hattributes
  have hsemicolon := findChar_at (p := (· == ';')) (by decide) hpos
  have hopening := findChar_at (p := fun c => c == '{' || c == ';' || c == '(') (by decide) hpos
  have hend : (s.wideSheet x).lineOf
      ((findChar x.wide (· == ';') (afterTypeParams x.wide y'.finish)).getD (afterTypeParams x.wide y'.finish)) =
      (s.sheet x).lineOf
        ((findChar x.text (· == ';') (afterTypeParams x.text y.finish)).getD (afterTypeParams x.text y.finish)) := by
    rw [hsemicolon]
    cases findChar x.text (· == ';') (afterTypeParams x.text y.finish) with
    | none => exact lineOf_wideSheet hpos
    | some i => exact lineOf_wideSheet (x.at_shift i)
  unfold struct
  simp only [sheet, wideSheet] at hstart hend ⊢
  simp only [hopening, hstart, hend, hattributes, groupText_eq (l := 1) rfl hy h]
  cases hbrace : findChar x.text (fun c => c == '{' || c == ';' || c == '(') (afterTypeParams x.text y.finish) with
  | none => rfl
  | some i =>
    have hi := lt_of_findChar hbrace
    have hstop := blockEnd_shift hpost i
    have hfields := fields_wideSheet hx (x.at_succ i) hi (shift_lt hi) (x.at_shift (blockEnd x.text i))
    have hline := lineOf_wideSheet (s := s) (x.at_shift (blockEnd x.text i))
    simp only [sheet, wideSheet] at hfields hline
    simp only [Option.map_some, x.getElem?_shift, hstop, hfields, hline]
    rfl

theorem structs_wideSheet (hx : x.pre.length = s.pre.length) (hpost : x.post ≠ []) :
    (s.wideSheet x).structs (attributeSpans x.wide) = (s.sheet x).structs (attributeSpans x.text) :=
  map_eq_of_forall₂ (rel_findAll steady_structHead (.inl rfl))
    fun _ _ hy => struct_wideSheet hx hpost hy.1 hy.2

/-! ### Lines -/

/-- The second text is the first, or the first after a space or tab. -/
def Indents (l l' : List Char) : Prop := l' = l ∨ ∃ b, (b = ' ' ∨ b = '\t') ∧ l' = b :: l

theorem splitLines_indent {b : Char} (hb : b = ' ' ∨ b = '\t') (t : List Char) :
    Forall₂ Indents (splitLines t) (splitLines (b :: t)) := by
  have hne : (b == '\n') = false := by rcases hb with rfl | rfl <;> decide
  rw [splitLines.eq_2, if_neg (by rw [hne]; exact Bool.false_ne_true)]
  cases h : splitLines t with
  | nil => exact absurd h (splitLines_ne_nil t)
  | cons l ls => exact .cons (.inr ⟨b, hb, rfl⟩) (forall₂_same.mpr fun _ _ => .inl rfl)

theorem splitLines_wide (s : Seam) : Forall₂ Indents (splitLines s.text) (splitLines s.wide) := by
  have hpost := splitLines_indent s.indents s.post
  rcases s.pre_eq with hp | ⟨p, hp⟩
  · rwa [Seam.text, Seam.wide, hp]
  · rw [Seam.text, Seam.wide, hp, append_assoc, append_assoc, singleton_append,
      singleton_append, splitLines_newline, splitLines_newline]
    exact rel_append (forall₂_same.mpr fun _ _ => .inl rfl) hpost

theorem fileLines_wide (hs : s.post ≠ []) : Forall₂ Indents (fileLines s.text) (fileLines s.wide) := by
  have hlines := splitLines_wide s
  have hlast : s.wide.getLast? = s.text.getLast? := by
    rw [Seam.wide, Seam.text, getLast?_append, getLast?_append, getLast?_cons,
      getLast?_eq_some_getLast hs]
    rfl
  unfold fileLines
  rw [hlast]
  split
  · rw [dropLast_eq_take, dropLast_eq_take, hlines.length_eq]
    exact forall₂_take _ hlines
  · exact hlines

theorem Indents.dropReturns {l l' : List Char} (h : Indents l l') : Indents (dropReturns l) (dropReturns l') := by
  rcases h with rfl | ⟨b, hb, rfl⟩
  · exact .inl rfl
  · refine .inr ⟨b, hb, ?_⟩
    have hkeep : (b == '\r') = false := by rcases hb with rfl | rfl <;> decide
    rw [Source.dropReturns, Source.dropReturns, reverse_cons, dropWhile_append]
    split
    · next hnil =>
      rw [List.isEmpty_iff.mp hnil, dropWhile_cons_of_neg (by rw [hkeep]; exact Bool.false_ne_true)]
      rfl
    · rw [reverse_append]
      rfl

structure Line.Indented (indented : Prop) (l l' : Line) : Prop where
  number : l'.number = l.number
  raw : indented → Indents l.raw.toList l'.raw.toList
  code : Indents l.code.toList l'.code.toList

theorem lines_wideSheet (hs : s.post ≠ []) (hx : x.post ≠ []) :
    Forall₂ (Line.Indented True) (s.sheet x).lines (s.wideSheet x).lines := by
  obtain ⟨hraw, hraws⟩ := forall₂_iff_get.mp (fileLines_wide hs)
  obtain ⟨hcode, hcodes⟩ := forall₂_iff_get.mp (fileLines_wide hx)
  refine forall₂_iff_get.mpr ⟨?_, fun i hi hi' => ?_⟩
  · simp only [lines, sheet, wideSheet, length_map, length_zipIdx, length_zip,
      hraw, hcode]
  · simp only [lines, sheet, wideSheet, length_map, length_zipIdx,
      length_zip, Nat.lt_min] at hi hi'
    have hr := (hraws i hi.1 hi'.1).dropReturns
    have hc := (hcodes i hi.2 hi'.2).dropReturns
    simp only [lines, sheet, wideSheet, get_eq_getElem, getElem_map,
      getElem_zipIdx, getElem_zip] at hr hc ⊢
    exact ⟨rfl, fun _ => by simpa only [String.toList_ofList] using hr, by simpa only [String.toList_ofList] using hc⟩

end ContractAudit.Source

import ContractAudit.Proofs.SeamFields
import ContractAudit.Proofs.WordPlaces

/-! # Where items begin and end

Every scan of the parser goes forward and ends within the text, so the lines of items follow one another and
are lines of the text. -/

namespace ContractAudit.Text.Pattern
open List Match
variable {p q : Pattern} {t : List Char} {x : Match}

/-! ### Matches in a text -/

theorem exists_parts_of_mem_findAll (h : x ∈ p.findAll t) :
    ∃ u w v, t = u ++ (w ++ v) ∧ x.start = u.length ∧ x.stop = .after (u ++ w) v ∧
      p.Path (.after u (w ++ v)) [] x.stop x.captures := by
  rw [findAll_eq] at h
  obtain ⟨hlt, hmatch⟩ := matchAt_of_mem_findAt h
  obtain ⟨-, hpath⟩ := path_of_matchAt hmatch
  rw [cursorAt_eq_after hlt.le] at hpath
  obtain ⟨w, v, hw, hstop⟩ := exists_after_of_path hpath
  rw [hw] at hpath
  refine ⟨t.take x.start, w, v, ?_, ?_, hstop, hpath⟩
  · rw [← hw, take_append_drop]
  · rw [length_take, Nat.min_eq_left hlt.le]

theorem finish_bounds_of_mem_findAll (h : x ∈ p.findAll t) : x.start ≤ x.finish ∧ x.finish ≤ t.length := by
  obtain ⟨u, w, v, rfl, hstart, hstop, -⟩ := exists_parts_of_mem_findAll h
  rw [hstart, finish, hstop]
  simp only [Cursor.after, length_append]
  omega

theorem group_suffix_of_path {l : Nat} {u w v : List Char} (hstop : x.stop = .after (u ++ w) v)
    (h : (p ++ mark l q).Path (.after u (w ++ v)) [] x.stop x.captures) : x.group l <:+ u ++ w := by
  obtain ⟨e, n, hp, k, hq, hcaptures⟩ := h
  obtain ⟨a, b, hab, rfl⟩ := exists_after_of_path hp
  obtain ⟨c, d, rfl, hd⟩ := exists_after_of_path hq
  rw [hstop] at hd
  obtain rfl : v = d := congrArg Cursor.rest hd
  obtain rfl : w = a ++ c := by
    rw [← append_assoc] at hab
    exact append_cancel_right hab
  have hlength : x.stop.offset - (u ++ a).length = c.length := by
    rw [hstop]
    simp only [Cursor.after, length_append]
    omega
  have hgroup : x.group l = c := by
    simp only [group, capture?, hcaptures, find?_cons, beq_self_eq_true, Option.map_some,
      Option.getD_some, Capture.text, Cursor.after, hlength, take_left]
  rw [hgroup, ← append_assoc]
  exact suffix_append _ c

theorem start_lt_finish {c : Char} {u w v : List Char} (hstart : x.start = u.length)
    (h : (p ++ char c).Path (.after u (w ++ v)) [] x.stop x.captures) : x.start < x.finish := by
  obtain ⟨e, n, hp, a, r, -, -, hstop, -⟩ := h
  obtain ⟨y, b, -, rfl⟩ := exists_after_of_path hp
  rw [hstart, finish, hstop]
  simp only [Cursor.after, length_append]
  omega

/-! ### Marked identifiers -/

theorem path_many {accepts : Char → Bool} {c d : Cursor} {m n : Captures} (h : (many (one accepts)).Path c m d n) :
    ∃ w, c.rest = w ++ d.rest ∧ d.offset = c.offset + w.length ∧ w.all accepts = true := by
  have hloop {y z : Cursor × Captures}
      (hyz : Relation.ReflTransGen (fun y z => (one accepts).Path y.1 y.2 z.1 z.2) y z) :
      ∃ w, y.1.rest = w ++ z.1.rest ∧ z.1.offset = y.1.offset + w.length ∧ w.all accepts = true := by
    induction hyz with
    | refl => exact ⟨[], rfl, rfl, rfl⟩
    | tail _ hstep ih =>
      obtain ⟨w, hrest, hoffset, hall⟩ := ih
      obtain ⟨a, r, har, ha, hd, -⟩ := hstep
      refine ⟨w ++ [a], ?_, ?_, by simp [hall, ha]⟩
      · rw [hrest, har, hd, append_assoc]
        rfl
      · rw [hd, hoffset, length_append]
        rfl
  exact hloop h

theorem path_ident {c d : Cursor} {m n : Captures} (h : ident.Path c m d n) :
    ∃ w, c.rest = w ++ d.rest ∧ d.offset = c.offset + w.length ∧ IsWord w := by
  obtain ⟨e, l, ⟨a, r, hrest, ha, rfl, rfl⟩, hmany⟩ := h
  obtain ⟨w, hr, hoffset, hall⟩ := path_many hmany
  refine ⟨a :: w, hrest.trans (congrArg (a :: ·) hr), ?_, by simp, ?_⟩
  · rw [hoffset, length_cons, Nat.add_right_comm]
    rfl
  · rw [all_cons, isWordChar_of_isIdentChar (isIdentChar_of_isIdentStart ha), Bool.true_and, all_eq_true]
    exact fun b hb => isWordChar_of_isIdentChar (all_eq_true.mp hall b hb)

open Classical in
theorem exists_parts_of_capture {l : Nat} (hp : ∀ kind : Pattern → Bool, kind ident = true → p.marks kind l = true)
    (h : p.matchStart t = some x) :
    ∃ y a b, x.capture? l = some y ∧ t = a ++ (y.text ++ b) ∧ y.start = a.length ∧ IsWord y.text := by
  obtain ⟨y, hy, hword, a, ha, hstart, -⟩ := capture_of_marks (P := IsWord)
    (fun q c m d n (hq : decide (q = ident) = true) hpath => by
      obtain rfl := of_decide_eq_true hq
      exact path_ident hpath) (hp _ (decide_eq_true rfl)) (path_of_matchAt h).2
  refine ⟨y, a, y.rest.drop y.length, by rw [capture?, hy]; rfl, ?_, ?_, hword⟩
  · rw [Capture.text, take_append_drop]
    exact ha
  · rw [← Nat.zero_add a.length]
    exact hstart

end ContractAudit.Text.Pattern

namespace ContractAudit.Source
open Text List Match
variable {l w t : List Char} {i j : Nat}

/-! ### Scans go forward -/

theorem le_of_findChar {p : Char → Bool} (h : findChar t p i = some j) : i ≤ j := by
  obtain ⟨k, -, rfl⟩ := Option.map_eq_some_iff.mp h
  exact Nat.le_add_left i k

theorem closeFrom_bounds {opener closer : Char} {depth n e : Nat}
    (h : closeFrom opener closer depth n l = some e) : n ≤ e ∧ e < n + l.length := by
  induction l generalizing depth n with
  | nil => cases h
  | cons a l ih =>
    have hgo {d : Nat} (h : closeFrom opener closer d (n + 1) l = some e) : n ≤ e ∧ e < n + (a :: l).length := by
      have := ih h
      rw [length_cons]
      omega
    rw [closeFrom] at h
    split at h
    · exact hgo h
    split at h
    · split at h
      · cases h
        simp
      · exact hgo h
    · exact hgo h

theorem blockEnd_bounds (h : i < t.length) : i ≤ blockEnd t i ∧ blockEnd t i < t.length := by
  cases ho : t[i]?.bind closer? with
  | none =>
    rw [Seam.blockEnd_of_none ho]
    exact ⟨Nat.le_refl i, h⟩
  | some c =>
    obtain ⟨o, ho, hc⟩ := Option.bind_eq_some_iff.mp ho
    rw [Seam.blockEnd_of_some ho hc]
    cases hclose : closeFrom o c 0 i (t.drop i) with
    | none =>
      rw [Option.getD_none]
      omega
    | some e =>
      have := closeFrom_bounds hclose
      rw [length_drop] at this
      rw [Option.getD_some]
      omega

theorem angleFrom_bounds {last : Option Char} {depth n e : Nat}
    (h : angleFrom last depth n l = some e) : n ≤ e + 1 ∧ e < n + l.length := by
  induction l generalizing last depth n with
  | nil => cases h
  | cons a l ih =>
    have hgo {r : Option Char} {d : Nat} (h : angleFrom r d (n + 1) l = some e) :
        n ≤ e + 1 ∧ e < n + (a :: l).length := by
      have := ih h
      rw [length_cons]
      omega
    rw [angleFrom] at h
    split at h
    · exact hgo h
    split at h
    · split at h
      · cases h
        simp
      · exact hgo h
    split at h
    · cases h
      rw [length_cons]
      omega
    · exact hgo h

theorem angleEnd_bounds (h : t[i]? = some '<') : i ≤ angleEnd t i ∧ angleEnd t i < t.length := by
  have hi := (List.getElem?_eq_some_iff.mp h).1
  rw [Seam.angleEnd_of_getElem? h]
  cases hangle : angleFrom (some '<') 1 (i + 1) (t.drop (i + 1)) with
  | none =>
    rw [Option.getD_none]
    omega
  | some e =>
    have := angleFrom_bounds hangle
    rw [length_drop] at this
    rw [Option.getD_some]
    omega

theorem afterTypeParams_bounds (h : i ≤ t.length) : i ≤ afterTypeParams t i ∧ afterTypeParams t i ≤ t.length := by
  have hblanks : ((t.drop i).takeWhile isBlank).length ≤ t.length - i := by
    rw [← length_drop]
    exact (takeWhile_sublist isBlank).length_le
  simp only [afterTypeParams]
  split
  · next hopen =>
    have := angleEnd_bounds (beq_iff_eq.mp hopen)
    omega
  · omega

/-! ### Functions -/

def bodyBrace? (masked : List Char) (x : Match) : Option Nat := do
  let paren ← findChar masked (· == '(') (afterTypeParams masked x.finish)
  let brace ← findChar masked (fun c => c == '{' || c == ';') (blockEnd masked paren + 1)
  if masked[brace]? == some '{' then some brace else none

structure Sheet.FunctionAt (d : Sheet) (impls : List ImplBlock) (modules : List Module) (x : Match)
    (brace : Nat) (f : Function) : Prop where
  opens : bodyBrace? d.masked x = some brace
  offset : f.offset = x.start
  startLine : f.startLine = d.lineOf x.start
  bodyStartLine : f.bodyStartLine = d.lineOf brace
  endLine : f.endLine = d.lineOf (blockEnd d.masked brace)
  container : f.container = containerOf impls modules x.start (d.lineOf x.start)
  body : f.body = String.ofList (between d.masked brace (blockEnd d.masked brace + 1))

section Items
variable {d : Sheet} {attributes : List AttributeSpan} {impls : List ImplBlock} {modules : List Module} {x : Match}

theorem functionAt_of_function? {f : Function} (h : d.function? attributes impls modules x = some f) :
    ∃ brace, d.FunctionAt impls modules x brace f := by
  unfold Sheet.function? at h
  obtain ⟨paren, hparen, h⟩ := Option.bind_eq_some_iff.mp h
  obtain ⟨brace, hbrace, h⟩ := Option.bind_eq_some_iff.mp h
  split at h
  · cases h
  next hopen =>
  obtain ⟨name, -, h⟩ := Option.bind_eq_some_iff.mp h
  cases h
  refine ⟨brace, ?_, rfl, rfl, rfl, rfl, rfl, rfl⟩
  simp only [bne_iff_ne, ne_eq, not_not] at hopen
  simp only [bodyBrace?, hparen, hbrace, hopen, Option.bind_eq_bind, Option.bind_some, beq_self_eq_true, if_true]

theorem bodyBrace?_bounds {brace : Nat} (hx : x.finish ≤ t.length) (h : bodyBrace? t x = some brace) :
    x.finish < brace ∧ brace < t.length ∧ t[brace]? = some '{' := by
  obtain ⟨paren, hparen, h⟩ := Option.bind_eq_some_iff.mp h
  obtain ⟨brace, hbrace, h⟩ := Option.bind_eq_some_iff.mp h
  obtain ⟨hopen, hsome⟩ := Option.ite_none_right_eq_some.mp h
  cases hsome
  have := afterTypeParams_bounds hx
  have := le_of_findChar hparen
  have := blockEnd_bounds (lt_of_findChar hparen)
  have := le_of_findChar hbrace
  exact ⟨by omega, lt_of_findChar hbrace, beq_iff_eq.mp hopen⟩

/-! ### Fields -/

theorem marks_fieldPattern (kind : Pattern → Bool) (h : kind .ident = true) : fieldPattern.marks kind 1 = true := by
  have happend (p q : Pattern) : (p ++ q).marks kind 1 = (q.marks kind 1 || (p.marks kind 1 && q.spares 1)) := rfl
  have hname : (Pattern.mark 1 .ident).marks kind 1 = true := h
  simp only [fieldPattern, happend, hname]
  rfl

theorem exists_name_of_field? {f : Field} {w : List Char} (h : d.field? i w = some f) :
    ∃ a b, w = a ++ (f.name.toList ++ b) ∧ f.line = d.lineOf (i + a.length) ∧ IsWord f.name.toList := by
  unfold Sheet.field? at h
  split at h
  · cases h
  split at h
  next attributes tail hlead =>
  obtain ⟨q, hq⟩ : trimStart tail <:+ w := by
    have htail := leadingAttributes_suffix w
    rw [hlead] at htail
    exact (dropWhile_suffix isBlank).trans htail
  obtain ⟨r, hr⟩ := exists_trimEnd_append (trimStart tail)
  simp only at h
  split at h
  · cases h
  next m hm =>
  obtain ⟨y, a, b, hy, htext, hstart, hword⟩ := Pattern.exists_parts_of_capture marks_fieldPattern hm
  simp only [hy, Option.some.injEq] at h
  have hlength : w.length - (trimStart tail).length = q.length := by
    rw [← hq, length_append, Nat.add_sub_cancel]
  subst h
  refine ⟨q ++ a, b ++ r, ?_, ?_, by simpa using hword⟩
  · rw [← hq, hr, htext]
    simp
  · rw [hlength, hstart, length_append, Nat.add_assoc]

theorem exists_parts_of_mem_chunksFrom {isSep : Char → Bool} {last : Option Char} {depth : Int} {u w l : List Char}
    {c : Nat × List Char} (h : c ∈ chunksFrom isSep last depth u.length w (u.length + w.length) l) :
    ∃ a b, u ++ (w.reverse ++ l) = a ++ (c.2 ++ b) ∧ c.1 = a.length ∧ u.length ≤ a.length := by
  induction l generalizing last depth u w with
  | nil =>
    obtain rfl := mem_singleton.mp h
    exact ⟨u, [], rfl, rfl, Nat.le_refl _⟩
  | cons e l ih =>
    have hgo {last : Option Char} {depth : Int}
        (h : c ∈ chunksFrom isSep last depth u.length (e :: w) (u.length + w.length + 1) l) :
        ∃ a b, u ++ (w.reverse ++ e :: l) = a ++ (c.2 ++ b) ∧ c.1 = a.length ∧ u.length ≤ a.length := by
      obtain ⟨a, b, hab, hc⟩ := ih (w := e :: w) h
      exact ⟨a, b, by simpa using hab, hc⟩
    rw [chunksFrom] at h
    split at h
    · exact hgo h
    split at h
    · rcases mem_cons.mp h with rfl | h
      · exact ⟨u, e :: l, rfl, rfl, Nat.le_refl _⟩
      · -- the next chunk begins after the separator
        have hlength : (u ++ (w.reverse ++ [e])).length = u.length + w.length + 1 := by simp; omega
        rw [← hlength] at h
        obtain ⟨a, b, hab, hc, hle⟩ := ih (w := []) h
        refine ⟨a, b, by simpa using hab, hc, ?_⟩
        rw [hlength] at hle
        omega
    · exact hgo h

theorem exists_name_of_mem_fields {f : Field} (hi : i ≤ d.masked.length) (h : f ∈ d.fields i j) :
    ∃ a b, d.masked = a ++ (f.name.toList ++ b) ∧ f.line = d.lineOf a.length ∧ i ≤ a.length ∧ a.length < j ∧
      IsWord f.name.toList := by
  rw [Sheet.fields_eq] at h
  obtain ⟨c, hc, hf⟩ := mem_filterMap.mp h
  have hlength : (d.masked.take i).length = i := by rw [length_take, Nat.min_eq_left hi]
  have hbetween : (between d.masked i j).length ≤ j - i := length_take_le _ _
  have hmasked : d.masked = d.masked.take i ++ (between d.masked i j ++ (d.masked.drop i).drop (j - i)) := by
    rw [between, take_append_drop, take_append_drop]
  generalize between d.masked i j = body at hc hbetween hmasked
  generalize d.masked.take i = u at hlength hmasked
  generalize (d.masked.drop i).drop (j - i) = v at hmasked
  subst hlength
  obtain ⟨a, b, hab, hstart, hle⟩ := exists_parts_of_mem_chunksFrom (w := []) hc
  obtain ⟨a', b', hchunk, hline, hword⟩ := exists_name_of_field? hf
  rw [reverse_nil, nil_append, hchunk] at hab
  have hsize := congrArg List.length hab
  have hname := length_pos_iff.mpr hword.1
  simp only [length_append] at hsize
  refine ⟨a ++ a', b' ++ (b ++ v), ?_, ?_, ?_, ?_, hword⟩
  · rw [hmasked, ← append_assoc, hab]
    simp
  · rw [hline, hstart, length_append]
  · rw [length_append]
    omega
  · rw [length_append]
    omega

/-! ### Structs -/

/-- What a struct with a given head has from the places of the text: it ends at `stop`, and its fields
    are declared between a brace and that place. -/
structure Sheet.StructAt (d : Sheet) (x : Match) (stop : Nat) (s : Struct) : Prop where
  name : s.name = x.groupText 1
  startLine : s.startLine = d.lineOf x.start
  endLine : s.endLine = d.lineOf stop
  finish_le : x.finish ≤ stop
  stop_le : stop ≤ d.masked.length
  stop_eq_iff : stop = d.masked.length ↔ afterTypeParams d.masked x.finish = d.masked.length
  fields : s.fields = [] ∨ ∃ brace, x.finish ≤ brace ∧ brace < d.masked.length ∧
    s.fields = d.fields (brace + 1) stop

theorem structAt_struct (attributes : List AttributeSpan) (hx : x.finish ≤ d.masked.length) :
    ∃ stop, d.StructAt x stop (d.struct attributes x) := by
  obtain ⟨hle, hle'⟩ := afterTypeParams_bounds hx
  simp only [Sheet.struct]
  generalize hpos : afterTypeParams d.masked x.finish = pos at hle hle'
  -- without braces the struct ends at a semicolon, or else where the scan for it began
  have hplain : ∃ stop, d.StructAt x stop
      { name := x.groupText 1
        startLine := d.lineOf x.start
        endLine := d.lineOf ((findChar d.masked (· == ';') pos).getD pos)
        attributes := attributesBefore d.masked attributes x.start } := by
    refine ⟨(findChar d.masked (· == ';') pos).getD pos, rfl, rfl, rfl, ?_, ?_, ?_, .inl rfl⟩
    all_goals
      cases hsemicolon : findChar d.masked (· == ';') pos with
      | none =>
        rw [Option.getD_none]
        omega
      | some k =>
        have := le_of_findChar hsemicolon
        have := lt_of_findChar hsemicolon
        rw [Option.getD_some]
        omega
  split
  · next p hp =>
    have hp' := le_of_findChar hp
    have hlt := lt_of_findChar hp
    split
    · obtain ⟨hend, hend'⟩ := blockEnd_bounds hlt
      exact ⟨blockEnd d.masked p, rfl, rfl, rfl, by omega, by omega, by omega, .inr ⟨p, by omega, hlt, rfl⟩⟩
    · exact hplain
  · exact hplain

end Items

/-! ### The lines of a model -/

def Model.HasLines (m : Model) (first last : Nat) : Prop := 1 ≤ first ∧ first ≤ last ∧ last ≤ m.lines.length

section Lines
variable {text : String} {s : Struct}

theorem hasLines_of_lt (hij : i ≤ j) (hj : j < (mask text.toList).length) :
    (Model.ofText text).HasLines ((Sheet.ofText text.toList).lineOf i) ((Sheet.ofText text.toList).lineOf j) := by
  refine ⟨?_, lineOf_mono _ hij, ?_⟩
  · rw [lineOf_ofText, lineOf_lineStarts]
    omega
  · rw [length_lines_ofText]
    exact lineOf_le_length hj

/-- Where the text ends there is no line any more if it ends with a newline. -/
theorem lineOf_end (text : String) : (Sheet.ofText text.toList).lineOf (mask text.toList).length =
    (Model.ofText text).lines.length + if text.toList.getLast? = some '\n' then 1 else 0 := by
  rw [length_lines_ofText, lineOf_ofText, lineOf_lineStarts, take_length, length_fileLines]
  simp only [(blanksOut_mask text.toList).getLast?_newline]
  split <;> rfl

theorem exists_line_of_isWord {u w v : List Char} (hmask : mask text.toList = u ++ (w ++ v)) (hw : IsWord w) :
    ∃ l, (Model.ofText text).line? ((Sheet.ofText text.toList).lineOf u.length) = some l ∧ w <:+: l.code.toList := by
  have hblank {c : Char} (hc : isBlank c = true) : c ∉ w := by
    intro hmem
    have hword := all_eq_true.mp hw.2 c hmem
    rw [isWordChar_of_isBlank hc] at hword
    cases hword
  have hlt : u.length < (mask text.toList).length := by
    have := length_pos_iff.mpr hw.1
    rw [hmask, length_append, length_append]
    omega
  obtain ⟨b, raw, -, hbegins, hle, hline⟩ := exists_line_of_lt hlt
  refine ⟨_, hline, ?_⟩
  rw [String.toList_ofList]
  refine infix_dropReturns (hblank (c := '\r') (by decide)) ?_
  have hstart : w <+: lineFrom (mask text.toList) u.length := by
    rw [lineFrom, hmask, drop_left, takeWhile_append_of_pos fun c hc => by
      simpa using ne_of_mem_of_not_mem hc (hblank (c := '\n') (by decide))]
    exact prefix_append w _
  rw [← show _ = lineFrom (mask text.toList) u.length from hbegins.drop_lineFrom hle (Nat.le_of_lt hlt)] at hstart
  exact hstart.isInfix.trans (drop_suffix _ _).isInfix

theorem lines_of_mem_functions {f : Function} (h : f ∈ (Model.ofText text).functions) :
    (Model.ofText text).HasLines f.startLine f.endLine ∧ f.startLine ≤ f.bodyStartLine ∧
      f.bodyStartLine ≤ f.endLine := by
  obtain ⟨x, hx, hf⟩ := mem_filterMap.mp h
  obtain ⟨brace, hat⟩ := functionAt_of_function? hf
  obtain ⟨hstart, hfinish⟩ := Pattern.finish_bounds_of_mem_findAll hx
  obtain ⟨hle, hlt, -⟩ := bodyBrace?_bounds hfinish hat.opens
  obtain ⟨hend, hend'⟩ := blockEnd_bounds hlt
  rw [hat.startLine, hat.bodyStartLine, hat.endLine]
  exact ⟨hasLines_of_lt (by omega) hend', lineOf_mono _ (by omega), lineOf_mono _ hend⟩

theorem hasLines_of_mem_modules {m : Module} (h : m ∈ (Model.ofText text).modules) :
    (Model.ofText text).HasLines m.startLine m.endLine := by
  obtain ⟨x, hx, rfl⟩ := mem_map.mp h
  obtain ⟨u, w, v, -, hstart, -, hpath⟩ := Pattern.exists_parts_of_mem_findAll hx
  obtain ⟨-, hfinish⟩ := Pattern.finish_bounds_of_mem_findAll hx
  have hlt := Pattern.start_lt_finish hstart hpath
  have hend := blockEnd_bounds (t := (Sheet.ofText text.toList).masked) (i := x.finish - 1) (by omega)
  exact hasLines_of_lt (by omega) hend.2

theorem structAt_of_mem_structs (h : s ∈ (Model.ofText text).structs) :
    ∃ x ∈ structHead.findAll (mask text.toList), ∃ stop, (Sheet.ofText text.toList).StructAt x stop s := by
  obtain ⟨x, hx, rfl⟩ := mem_map.mp h
  exact ⟨x, hx, structAt_struct _ (Pattern.finish_bounds_of_mem_findAll hx).2⟩

/-- The text ends before a struct does: after the head there is white space only, or a list of type
    parameters that is not closed, and the last character is a newline. -/
def BreaksOff (text : String) (head : Match) : Prop :=
  text.toList.getLast? = some '\n' ∧ afterTypeParams (mask text.toList) head.finish = (mask text.toList).length

/-- The lines of a struct with the given head: it ends on a line of the text, or after the last one
    where the text breaks off. -/
structure StructLines (text : String) (head : Match) (s : Struct) : Prop where
  name : s.name.toList <:+ (mask text.toList).take head.finish
  whole : ¬ BreaksOff text head → (Model.ofText text).HasLines s.startLine s.endLine
  broken : BreaksOff text head → (Model.ofText text).HasLines s.startLine (s.endLine - 1) ∧
    s.endLine = (Model.ofText text).lines.length + 1

theorem structLines_of_structAt {head : Match} {stop : Nat} (hhead : head ∈ structHead.findAll (mask text.toList))
    (hat : (Sheet.ofText text.toList).StructAt head stop s) : StructLines text head s := by
  have hlt : head.start < (mask text.toList).length :=
    (Pattern.matchAt_of_mem_findAt (Pattern.findAll_eq _ _ ▸ hhead)).1
  obtain ⟨hfirst, -, hfirst'⟩ := hasLines_of_lt (Nat.le_refl head.start) hlt
  have hend := lineOf_end text
  refine ⟨?name, fun hwhole => ?whole, fun hbroken => ?broken⟩
  case name =>
    obtain ⟨u, w, v, hmask, -, hstop, hpath⟩ := Pattern.exists_parts_of_mem_findAll hhead
    have hlength : head.finish = (u ++ w).length := by rw [finish, hstop]; rfl
    rw [hmask, ← append_assoc, hlength, take_left, hat.name, groupText, String.toList_ofList]
    exact Pattern.group_suffix_of_path hstop hpath
  case whole =>
    rw [hat.startLine, hat.endLine]
    by_cases hstop : stop = (mask text.toList).length
    · rw [if_neg fun hnewline => hwhole ⟨hnewline, hat.stop_eq_iff.mp hstop⟩, Nat.add_zero] at hend
      rw [hstop, hend]
      exact ⟨hfirst, hfirst', Nat.le_refl _⟩
    · have hstart := (Pattern.finish_bounds_of_mem_findAll hhead).1
      exact hasLines_of_lt (hstart.trans hat.finish_le) (Nat.lt_of_le_of_ne hat.stop_le hstop)
  case broken =>
    have hstop : stop = (mask text.toList).length := hat.stop_eq_iff.mpr hbroken.2
    rw [hat.startLine, hat.endLine, hstop, hend, if_pos hbroken.1]
    exact ⟨⟨hfirst, hfirst', Nat.le_refl _⟩, rfl⟩

theorem forall₂_structLines (text : String) :
    Forall₂ (StructLines text) (structHead.findAll (mask text.toList)) (Model.ofText text).structs := by
  refine forall₂_map_right_iff.mpr (forall₂_same.mpr fun head hhead => ?_)
  have hfinish : head.finish ≤ (Sheet.ofText text.toList).masked.length :=
    (Pattern.finish_bounds_of_mem_findAll hhead).2
  obtain ⟨stop, hat⟩ := structAt_struct (attributeSpans (mask text.toList)) hfinish
  exact structLines_of_structAt hhead hat

theorem line_of_mem_fields {f : Field} (hs : s ∈ (Model.ofText text).structs) (hf : f ∈ s.fields) :
    s.startLine ≤ f.line ∧ f.line ≤ s.endLine ∧
      ∃ l, (Model.ofText text).line? f.line = some l ∧ f.name.toList <:+: l.code.toList := by
  obtain ⟨x, hx, stop, hat⟩ := structAt_of_mem_structs hs
  obtain ⟨hstart, -⟩ := Pattern.finish_bounds_of_mem_findAll hx
  rcases hat.fields with hnil | ⟨brace, hle, hlt, hfields⟩
  · rw [hnil] at hf
    cases hf
  · rw [hfields] at hf
    obtain ⟨a, b, hmask, hline, hfirst, hlast, hword⟩ := exists_name_of_mem_fields hlt hf
    rw [hat.startLine, hat.endLine, hline]
    exact ⟨lineOf_mono _ (by omega), lineOf_mono _ (by omega), exists_line_of_isWord hmask hword⟩

/-- Every item of a model has lines of the text, in order: a function begins, opens its body and ends,
    and the name of a field stands on the line that the field gives, between the first and the last
    line of its struct. The exception is a struct before whose end the text breaks off: it ends one line
    after the last. -/
theorem parsed_lines_valid (text : String) :
    (∀ f ∈ (Model.ofText text).functions, (Model.ofText text).HasLines f.startLine f.endLine ∧
      f.startLine ≤ f.bodyStartLine ∧ f.bodyStartLine ≤ f.endLine) ∧
    (∀ m ∈ (Model.ofText text).modules, (Model.ofText text).HasLines m.startLine m.endLine) ∧
    List.Forall₂ (StructLines text) (structHead.findAll (mask text.toList)) (Model.ofText text).structs ∧
    ∀ s ∈ (Model.ofText text).structs, ∀ f ∈ s.fields, s.startLine ≤ f.line ∧ f.line ≤ s.endLine ∧
      ∃ l, (Model.ofText text).line? f.line = some l ∧ f.name.toList <:+: l.code.toList :=
  ⟨fun _ hf => lines_of_mem_functions hf, fun _ hm => hasLines_of_mem_modules hm, forall₂_structLines text,
    fun _ hs _ hf => line_of_mem_fields hs hf⟩

/-- A struct that the text breaks off ends after the last line. -/
theorem struct_ends_after_last_line : ∃ s ∈ (Model.ofText "struct A\n").structs,
    s.startLine = 1 ∧ s.endLine = 2 ∧ (Model.ofText "struct A\n").lines.length = 1 := by
  decide +kernel

end Lines

end ContractAudit.Source

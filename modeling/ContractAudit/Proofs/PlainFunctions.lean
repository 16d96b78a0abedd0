import ContractAudit.Proofs.PlainHeads
import ContractAudit.Proofs.SeamFields

/-! # The functions of a plain program

In a text that is put together from parts, the scans for lines, brackets and separators end where the parts
do. -/

namespace ContractAudit.Source.Plain
open Text Pattern List Item FunctionItem
variable {t g : List Char} {f : FunctionItem}
variable {s a : List Char}

section Scans
variable {u v x : List Char}
variable {d : Char} {last : Option Char}
variable {p : Char → Bool} {o c : Char} {depth n : Nat}

theorem lineOf_append (u v : List Char) : lineOf (lineStarts (u ++ v)) u.length = lineAfter u := by
  rw [lineOf_lineStarts, take_left]
  rfl

theorem between_eq {t w : List Char} {i j : Nat} (ht : t = u ++ (w ++ v)) (hi : i = u.length)
    (hj : j = i + w.length) : between t i j = w := by
  rw [between, ht, hi, hj, hi, drop_left, Nat.add_sub_cancel_left, take_left]

theorem getElem?_append_cons (u v : List Char) (d : Char) : (u ++ d :: v)[u.length]? = some d := by
  rw [getElem?_append_right (Nat.le_refl _), Nat.sub_self]
  rfl

/-- The search for a character passes what it is not looking for. -/
theorem findChar_append (hx : ∀ c ∈ x, p c = false) (hd : p d = true) :
    findChar (u ++ (x ++ d :: v)) p u.length = some (u ++ x).length := by
  have hindex : (x ++ d :: v).findIdx? p = some x.length := by
    rw [findIdx?_append, findIdx?_eq_none_iff.mpr hx, findIdx?_cons, if_pos hd]
    simp
  rw [findChar, drop_left, hindex, length_append, Nat.add_comm]
  rfl

theorem findChar_self (hd : p d = true) : findChar (u ++ d :: v) p u.length = some u.length := by
  have h := findChar_append (u := u) (x := []) (v := v) (fun _ h => absurd h not_mem_nil) hd
  rwa [append_nil] at h

theorem afterTypeParams_append (hx : x.all isBlank = true) (hblank : isBlank d = false)
    (hd : d ≠ '<') : afterTypeParams (u ++ (x ++ d :: v)) u.length = (u ++ x).length := by
  have hblanks : (x ++ d :: v).takeWhile isBlank = x := by
    rw [takeWhile_append_of_pos (all_eq_true.mp hx), takeWhile_cons_of_neg (by simp [hblank]), append_nil]
  rw [afterTypeParams, drop_left, hblanks, ← length_append, ← append_assoc,
    getElem?_append_cons, if_neg (by simpa using hd)]

theorem closeFrom_of_not_mem (ho : o ∉ x) (hc : c ∉ x) :
    closeFrom o c depth n (x ++ v) = closeFrom o c depth (n + x.length) v := by
  induction x generalizing n with
  | nil => rfl
  | cons a x ih =>
    rw [mem_cons, not_or] at ho hc
    rw [cons_append, closeFrom, if_neg (by simpa using Ne.symm ho.1), if_neg (by simpa using Ne.symm hc.1),
      ih ho.2 hc.2, length_cons, Nat.add_right_comm, Nat.add_assoc]

/-- The search for a closing brace comes out of a text as deep as the braces in it lead. -/
theorem closeFrom_of_bracesAfter? {e : Nat} (h : bracesAfter? depth x = some e) :
    closeFrom '{' '}' (depth + 1) n (x ++ v) = closeFrom '{' '}' (e + 1) (n + x.length) v := by
  induction x generalizing depth n with
  | nil =>
    cases h
    rfl
  | cons a x ih =>
    rw [bracesAfter?] at h
    rw [cons_append, closeFrom, length_cons, ← Nat.add_assoc, Nat.add_right_comm n]
    split at h
    · next hopen => rw [if_pos hopen, ih h]
    · next hopen =>
      rw [if_neg hopen]
      split at h
      · next hclose =>
        split at h
        · cases h
        · next hdepth =>
          rw [if_pos hclose, if_neg (by omega), Nat.add_sub_cancel, ← ih h]
          congr 1
          omega
      · next hclose => rw [if_neg hclose, ih h]

/-- A bracket closes behind what is balanced in it. -/
theorem blockEnd_append (hoc : closer? o = some c)
    (hx : ∀ n, closeFrom o c 1 n (x ++ c :: v) = closeFrom o c 1 (n + x.length) (c :: v)) :
    blockEnd (u ++ o :: (x ++ c :: v)) u.length = (u ++ o :: x).length := by
  have hne : c ≠ o := by
    rintro rfl
    unfold closer? at hoc
    split at hoc <;> simp_all
  have hclose (n : Nat) : closeFrom o c 1 n (c :: v) = some n := by
    rw [closeFrom, if_neg (by simpa using hne), if_pos (by simp), if_pos (Nat.le_refl 1)]
  rw [Seam.blockEnd_of_some (getElem?_append_cons u _ o) hoc, drop_left, closeFrom, if_pos (by simp),
    hx, hclose, Option.getD_some, length_append, length_cons]
  omega

/-- Some chunks with their offsets, if each is followed by a separator. -/
def chunksAt (n : Nat) : List (List Char) → List (Nat × List Char)
  | [] => []
  | x :: xs => (n, x) :: chunksAt (n + x.length + 1) xs

theorem bracketStep_eq (h : last ≠ some '-') (a : Char) :
    depthStep last a = bracketStep a ∧ (isBracket last a = false → bracketStep a = 0) := by
  have hlast : (last != some '-') = true := bne_iff_ne.mpr h
  have hchars : "([\x7b<)]\x7d".toList = ['(', '[', '{', '<', ')', ']', '}'] := rfl
  rw [depthStep, isBracket, bracketStep, hlast, hchars]
  simp only [Bool.and_true, Bool.or_eq_true, Bool.or_eq_false_iff, beq_iff_eq, beq_eq_false_iff_ne,
    contains_eq_mem, mem_cons, not_mem_nil, or_false, decide_eq_true_eq, decide_eq_false_iff_not]
  grind

/-- Text without an arrow and without a comma outside of brackets goes into one chunk. -/
theorem chunksFrom_of_bracketsAfter? {depth e : Int} (h : bracketsAfter? depth x = some e) (hx : '-' ∉ x)
    (hlast : last ≠ some '-') (start n : Nat) (acc v : List Char) :
    ∃ last', last' ≠ some '-' ∧ chunksFrom (· == ',') last depth start acc n (x ++ v) =
      chunksFrom (· == ',') last' e start (x.reverse ++ acc) (n + x.length) v := by
  induction x generalizing last depth n acc with
  | nil =>
    cases h
    exact ⟨last, hlast, rfl⟩
  | cons a x ih =>
    rw [mem_cons, not_or] at hx
    rw [bracketsAfter?] at h
    split at h
    · cases h
    next hsep =>
    have hnext : some a ≠ some '-' := by simpa using Ne.symm hx.1
    obtain ⟨last', hlast', hrest⟩ := ih h hx.2 hnext (n + 1) (a :: acc)
    obtain ⟨hstep, hnone⟩ := bracketStep_eq hlast a
    refine ⟨last', hlast', ?_⟩
    rw [cons_append, chunksFrom, length_cons, reverse_cons, append_assoc,
      singleton_append, Nat.add_comm x.length, ← Nat.add_assoc, ← hrest]
    split
    · rw [hstep]
    · next hbracket =>
      rw [hnone (by simpa using hbracket), Int.add_zero]

/-- Balanced texts with commas between them are the chunks. -/
theorem chunksFrom_intercalate {xs : List (List Char)} (hne : xs ≠ [])
    (hxs : ∀ x ∈ xs, bracketsAfter? 0 x = some 0 ∧ '-' ∉ x) (hlast : last ≠ some '-')
    (n : Nat) : chunksFrom (· == ',') last 0 n [] n ([','].intercalate xs) = chunksAt n xs := by
  induction xs generalizing last n with
  | nil => exact absurd rfl hne
  | cons x xs ih =>
    obtain ⟨hbrackets, hdash⟩ := hxs x (.head _)
    cases xs with
    | nil =>
      obtain ⟨last', -, h⟩ := chunksFrom_of_bracketsAfter? hbrackets hdash hlast n n [] []
      rw [append_nil] at h
      rw [intercalate_singleton, h, append_nil, chunksFrom, reverse_reverse]
      rfl
    | cons y xs =>
      obtain ⟨last', -, h⟩ := chunksFrom_of_bracketsAfter? hbrackets hdash hlast n n []
        (',' :: [','].intercalate (y :: xs))
      rw [intercalate_cons_cons, append_assoc, singleton_append, h, chunksFrom, if_neg, if_pos (by simp),
        append_nil, reverse_reverse, ih (by simp) (fun z hz => hxs z (.tail _ hz)) (by simp)]
      · rfl
      · simp [isBracket]

end Scans

/-- The sheet of a text that masking leaves as it is. -/
def sheet (t : List Char) : Sheet := ⟨t, t, lineStarts t⟩

theorem sheet_program (q : Program) : Sheet.ofText q.text = sheet q.text := by
  rw [Sheet.ofText, mask_of_clean (clean_program q)]
  rfl

theorem lineOf_sheet {u v : List Char} (ht : t = u ++ v) : (sheet t).lineOf u.length = lineAfter u := by
  rw [ht]
  exact lineOf_append u v

theorem words_append_of_blank (hg : g.all isBlank = true) (s : List Char) : words (s ++ g) = words s := by
  induction g generalizing s with
  | nil => rw [append_nil]
  | cons c g ih =>
    rw [all_cons, Bool.and_eq_true] at hg
    rw [words_append_blank hg.1, ← nil_append g, ih hg.2]
    exact append_nil _

theorem words_of_blank_append (hg : g.all isBlank = true) (s : List Char) : words (g ++ s) = words s := by
  induction g with
  | nil => rfl
  | cons c g ih =>
    rw [all_cons, Bool.and_eq_true] at hg
    exact (words_append_blank hg.1 [] (g ++ s)).trans (ih hg.2)

theorem collapse_of_blank (hg : g.all isBlank = true) : collapse g = [] := by
  rw [collapse, ← nil_append g, words_append_of_blank hg]
  rfl

theorem dropArrow_of_not_mem (h : '-' ∉ s) : dropArrow s = s := by
  induction s with
  | nil => rfl
  | cons c s ih =>
    rw [mem_cons, not_or] at h
    rw [dropArrow, ih h.2]
    rintro r rfl -
    exact h.1 rfl

theorem search_word_eq_none {kw : String} (hw : IsWord kw.toList) (h : Lacks kw.toList s) :
    (word kw).search s = none :=
  search_eq_none fun _ _ hs => fails_word hw (hs ▸ h)

theorem collapse_result (g : Gap) : collapse (dropArrow (beforeWhere g.text)) = [] := by
  have hword : IsWord "where".toList := ⟨by decide, by decide⟩
  have hlacks : Lacks "where".toList g.text := by
    have := (divisible_lacks hword).gap g (divisible_lacks hword).nil
    rwa [append_nil] at this
  have hdash : '-' ∉ g.text := by
    intro hmem
    exact absurd (all_eq_true.mp g.blank _ hmem) (by decide)
  rw [beforeWhere, search_word_eq_none hword hlacks, dropArrow_of_not_mem hdash, collapse_of_blank g.blank]

variable (f)

theorem lead_function : (function f).lead = visibilityText f.visibility ++ ("fn".toList ++ f.gap.text) :=
  append_assoc ..

/-- The lead of a function begins with `pub` if it is visible. -/
theorem matchStart_pubStart : (pubStart.matchStart (function f).lead).isSome = f.visibility.isSome := by
  rw [lead_function]
  cases f.visibility with
  | none =>
    have hfails : pubStart.Fails [] ("fn".toList ++ f.gap.text) := by
      refine Fails.seq ?_ _
      rintro m c n ⟨c₁, m₁, hblanks, hlit⟩
      obtain ⟨w, r, hw, hall, rfl⟩ := path_many_one hblanks
      obtain ⟨r, rfl, -⟩ := path_lit hlit
      cases w with
      | nil => cases hw
      | cons d w =>
        obtain ⟨rfl, -⟩ := List.cons.inj hw
        cases hall
    exact congrArg Option.isSome hfails.matchAt
  | some g =>
    obtain ⟨d, s, hg, hd, -⟩ := g.exists_cons
    have hblanks : blanks.Takes [] [] ("pub".toList ++ (g.text ++ ("fn".toList ++ f.gap.text))) [] [] :=
      takes_many_one rfl rfl
    have hedge : wordEdge.Takes ([] ++ ([] ++ "pub".toList)) [] (g.text ++ ("fn".toList ++ f.gap.text)) [] [] := by
      refine takes_here ?_
      rw [hg]
      show (isWordChar 'b' != isWordChar d) = true
      rw [isWordChar_of_isBlank hd]
      decide
    have htakes := Takes.seq (x := []) (hblanks.seq (takes_lit "pub")) hedge
    have hmatch := htakes.matchAt
    rw [visibilityText, append_assoc]
    exact congrArg Option.isSome hmatch

theorem occursIn_unsafe : (word "unsafe").occursIn (function f).lead = false := by
  have hword : IsWord "unsafe".toList := ⟨by decide, by decide⟩
  have hlacks : Lacks "unsafe".toList (function f).lead := by
    have hfn := (divisible_lacks hword).space f.gap (a := "fn".toList) (b := [])
      (lacks_of_ne (by decide) (by decide)) (divisible_lacks hword).nil
    rw [append_nil] at hfn
    rw [lead_function]
    exact (divisible_lacks hword).visibility (lacks_of_ne (by decide) (by decide)) f.visibility hfn
  rw [occursIn, search_word_eq_none hword hlacks]
  rfl

variable {f}

/-- The brackets of a function are found where its parts end. -/
theorem brackets_of_function {v : List Char}
    (ht : t = a ++ '(' :: (f.params.text ++ ')' :: (f.beforeBody.text ++ '{' :: (f.body.text ++ '}' :: v)))) :
    findChar t (· == '(') (afterTypeParams t a.length) = some a.length ∧
    blockEnd t a.length = (a ++ '(' :: f.params.text).length ∧
    findChar t (fun c => c == '{' || c == ';') ((a ++ '(' :: f.params.text).length + 1) =
      some (a ++ f.signature).length ∧ t[(a ++ f.signature).length]? = some '{' ∧
    blockEnd t (a ++ f.signature).length = (a ++ f.signature ++ '{' :: f.body.text).length := by
  have hgap : ∀ c ∈ f.beforeBody.text, (c == '{' || c == ';') = false := by
    intro c hc
    have hblank := all_eq_true.mp f.beforeBody.blank c hc
    rw [Bool.or_eq_false_iff, beq_eq_false_iff_ne, beq_eq_false_iff_ne]
    constructor <;> rintro rfl <;> exact absurd hblank (by decide)
  have hparen : t = a ++ '(' :: f.params.text ++ [')'] ++ (f.beforeBody.text ++ '{' :: (f.body.text ++ '}' :: v)) := by
    rw [ht]
    simp
  have hbrace : t = a ++ f.signature ++ '{' :: (f.body.text ++ '}' :: v) := by
    rw [ht, signature]
    simp
  have hend : a ++ '(' :: f.params.text ++ [')'] ++ f.beforeBody.text = a ++ f.signature := by
    simp [signature]
  refine ⟨?_, ?_, ?_, ?_, ?_⟩
  · rw [ht]
    have hafter := afterTypeParams_append (u := a) (x := []) (d := '(')
      (v := f.params.text ++ ')' :: (f.beforeBody.text ++ '{' :: (f.body.text ++ '}' :: v))) rfl (by decide) (by decide)
    rw [nil_append, append_nil] at hafter
    rw [hafter]
    exact findChar_self rfl
  · rw [ht]
    exact blockEnd_append rfl fun n => closeFrom_of_not_mem (not_mem_of_avoids f.params.flat (by simp))
      (not_mem_of_avoids f.params.flat (by simp))
  · have hlength : (a ++ '(' :: f.params.text).length + 1 = (a ++ '(' :: f.params.text ++ [')']).length := by
      simp only [length_append, length_singleton]
    rw [hlength, hparen, findChar_append hgap rfl, hend]
  · rw [hbrace]
    exact getElem?_append_cons ..
  · rw [hbrace]
    exact blockEnd_append rfl fun n => closeFrom_of_bracesAfter? f.body.balanced

/-- What stands between the brackets is what the function has there. -/
theorem between_of_function {v : List Char}
    (ht : t = a ++ '(' :: (f.params.text ++ ')' :: (f.beforeBody.text ++ '{' :: (f.body.text ++ '}' :: v)))) :
    between t (a.length + 1) (a ++ '(' :: f.params.text).length = f.params.text ∧
    between t ((a ++ '(' :: f.params.text).length + 1) (a ++ f.signature).length = f.beforeBody.text ∧
    between t (a ++ f.signature).length ((a ++ f.signature ++ '{' :: f.body.text).length + 1) =
      '{' :: f.body.text ++ ['}'] := by
  refine ⟨between_eq (u := a ++ ['(']) (v := ')' :: (f.beforeBody.text ++ '{' :: (f.body.text ++ '}' :: v))) ?_ ?_ ?_,
    between_eq (u := a ++ '(' :: f.params.text ++ [')']) (v := '{' :: (f.body.text ++ '}' :: v)) ?_ ?_ ?_,
    between_eq (u := a ++ f.signature) (v := v) ?_ rfl ?_⟩
  all_goals simp [ht, signature]
  all_goals omega

/-- The function that is parsed from its head is the one that was written. -/
theorem function?_headMatch {u v : List Char}
    (ht : t = u ++ ((function f).lead ++ f.name.text ++ ((function f).rest ++ '}' :: v))) :
    (sheet t).function? [] [] [] (headMatch t (u, .function f)) = some (f.parsed u) := by
  have hmatch := headMatch_eq (y := (u, .function f)) ht
  have hfront : t = u ++ ((function f).lead ++ f.name.text) ++ '(' :: (f.params.text ++
      ')' :: (f.beforeBody.text ++ '{' :: (f.body.text ++ '}' :: v))) := by
    rw [ht, rest, signature]
    simp
  obtain ⟨hparen, hclose, hbrace, hopens, hstop⟩ := brackets_of_function hfront
  obtain ⟨hparams, hbefore, hbody⟩ := between_of_function hfront
  have hfinish : (headMatch t (u, .function f)).finish = (u ++ ((function f).lead ++ f.name.text)).length := by
    rw [hmatch]
    rfl
  have hname : (headMatch t (u, .function f)).capture? 1 = some ⟨(u ++ (function f).lead).length,
      f.name.text ++ ((function f).rest ++ '}' :: v), f.name.text.length⟩ := by
    rw [hmatch]
    rfl
  have hstart : (headMatch t (u, .function f)).start = u.length := rfl
  have hlead : between t u.length (u ++ (function f).lead).length = (function f).lead :=
    between_eq (u := u) (by rw [ht, append_assoc _ f.name.text]) rfl (length_append ..)
  unfold Sheet.function?
  simp only [show (sheet t).masked = t from rfl, hfinish, hparen, hclose, hbrace, hopens, hstop, hname, hstart,
    hlead, hparams, hbefore, hbody, matchStart_pubStart, occursIn_unsafe, collapse_result, Capture.text, take_left,
    Option.bind_eq_bind, Option.bind_some, bne_self_eq_false, Bool.false_eq_true, if_false]
  rw [lineOf_sheet ht, lineOf_sheet (u := u ++ ((function f).lead ++ f.name.text) ++ f.signature)
      (v := '{' :: (f.body.text ++ '}' :: v)),
    lineOf_sheet (u := u ++ ((function f).lead ++ f.name.text) ++ f.signature ++ '{' :: f.body.text)
      (v := '}' :: v), ← append_assoc u]
  · rfl
  all_goals simp [ht, rest]

end ContractAudit.Source.Plain

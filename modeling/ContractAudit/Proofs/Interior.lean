import ContractAudit.Proofs.Lexemes

/-! # The insides of comments and literals

A relation says which lexeme can stand between a character and the rest of a text. -/

namespace ContractAudit.Source
open Text List Lexeme
variable (depth : Nat)
variable {stop x marks : List Char}

variable {last : Option Char} {c d : Char} {s r w : List Char} {l : Lexeme}

theorem blockCommentRest_ne_nil (h : s ≠ []) : blockCommentRest depth s ≠ [] := by
  fun_cases blockCommentRest depth s <;> simp_all

theorem blockCommentRest_cons_cons (hopen : c = '/' → d = '*' → False) (hclose : c = '*' → d = '/' → False) :
    blockCommentRest depth (c :: d :: s) = c :: blockCommentRest depth (d :: s) := by
  rw [blockCommentRest]
  · exact hopen
  · exact hclose

theorem blockCommentRest_ne_singleton (c d e : Char) (s : List Char) : blockCommentRest depth (c :: d :: s) ≠ [e] := by
  generalize ht : c :: d :: s = t
  fun_cases blockCommentRest depth t <;> simp_all [blockCommentRest_ne_nil]

theorem blockCommentRest_closed {depth : Nat} (h : blockCommentRest depth (w ++ r) = w) (hr : r ≠ []) :
    (∃ interior, w = interior ++ ['*', '/']) ∧ ∀ r', blockCommentRest depth (w ++ r') = w := by
  fun_induction blockCommentRest depth w with
  | case1 => exact absurd h (blockCommentRest_ne_nil _ hr)
  | case2 depth c =>
    obtain ⟨d, r, rfl⟩ := exists_cons_of_ne_nil hr
    exact absurd h (blockCommentRest_ne_singleton depth c d c r)
  | case3 depth s ih =>
    simp only [cons_append, blockCommentRest, List.cons.injEq, true_and] at h ⊢
    obtain ⟨⟨interior, hi⟩, hrest⟩ := ih h
    exact ⟨⟨'/' :: '*' :: interior, by rw [hi]; rfl⟩, hrest⟩
  | case4 depth s hdepth =>
    simp only [cons_append, blockCommentRest, hdepth, if_true, List.cons.injEq, true_and] at h ⊢
    exact ⟨⟨[], by rw [← h]; rfl⟩, fun _ => h⟩
  | case5 depth s hdepth ih =>
    simp only [cons_append, blockCommentRest, hdepth, if_false, List.cons.injEq, true_and] at h ⊢
    obtain ⟨⟨interior, hi⟩, hrest⟩ := ih h
    exact ⟨⟨'*' :: '/' :: interior, by rw [hi]; rfl⟩, hrest⟩
  | case6 depth c d s hopen hclose ih =>
    simp only [cons_append, blockCommentRest_cons_cons _ hopen hclose, List.cons.injEq, true_and] at h ih ⊢
    obtain ⟨⟨interior, hi⟩, hrest⟩ := ih h
    exact ⟨⟨c :: interior, by rw [hi]; rfl⟩, hrest⟩

theorem stringBody_cons (hc : c ≠ '\\') : stringBody (c :: s) = if c == '"' then [] else c :: stringBody s := by
  rw [stringBody]
  · exact fun h _ => hc h
  · exact fun _ _ h _ => hc h

theorem stringBody_closed (h : stringBody (w ++ '"' :: r) = w) (r' : List Char) : stringBody (w ++ '"' :: r') = w := by
  fun_induction stringBody w with
  | case1 => simp [stringBody]
  | case2 => simp [stringBody] at h
  | case3 c s ih =>
    simp only [cons_append, stringBody, List.cons.injEq, true_and] at h ⊢
    exact ih h
  | case4 c s _ _ hc =>
    rw [beq_iff_eq.mp hc] at h
    simp [stringBody] at h
  | case5 c s hend hescape hc ih =>
    have hslash : c ≠ '\\' := by
      intro e
      cases s with
      | nil => exact hend e rfl
      | cons d s => exact hescape d s e rfl
    simp only [cons_append, stringBody_cons hslash, hc, Bool.false_eq_true, if_false, List.cons.injEq, true_and] at h ⊢
    exact ih h

theorem before_of_prefix (h : stop <+: s) : before stop s = [] := by
  cases s with
  | nil => rfl
  | cons c s =>
    have hbegins := isPrefixOf_iff_prefix.mpr h
    rw [before, if_pos hbegins]

theorem before_closed (h : before stop (w ++ (stop ++ r)) = w) (r' : List Char) :
    before stop (w ++ (stop ++ r')) = w := by
  induction w with
  | nil => exact before_of_prefix (prefix_append ..)
  | cons c w ih =>
    rw [cons_append, before] at h
    split at h
    · cases h
    · next hstop =>
      have hstop' : ¬stop.isPrefixOf (c :: (w ++ (stop ++ r'))) = true := by
        intro hp
        replace hp := isPrefixOf_iff_prefix.mp hp
        -- the test looks no further than the mark itself
        have hshort : stop <+: c :: (w ++ stop) := by
          refine prefix_of_prefix_length_le hp ⟨r', by simp⟩ ?_
          simp only [length_cons, length_append]
          omega
        exact hstop <| isPrefixOf_iff_prefix.mpr (hshort.trans ⟨r, by simp⟩)
      rw [cons_append, before, if_neg hstop', ih (List.cons.inj h).2]

theorem blockCommentRest_cons (h : c ≠ '/') (h' : c ≠ '*') (s : List Char) :
    blockCommentRest depth (c :: s) = c :: blockCommentRest depth s := by
  cases s with
  | nil => rfl
  | cons d s => exact blockCommentRest_cons_cons depth (fun e => absurd e h) fun e => absurd e h'

theorem blockCommentRest_append_of_free (hw : ∀ c ∈ w, c ≠ '*' ∧ c ≠ '/') (r : List Char) :
    blockCommentRest depth (w ++ r) = w ++ blockCommentRest depth r := by
  induction w with
  | nil => rfl
  | cons c w ih =>
    have hc := hw c (mem_cons_self ..)
    rw [cons_append, blockCommentRest_cons depth hc.2 hc.1, ih fun c h => hw c (mem_cons_of_mem _ h), cons_append]

theorem stringBody_of_free (hw : ∀ c ∈ w, c ≠ '"' ∧ c ≠ '\\') (hr : r = [] ∨ ['"'] <+: r) :
    stringBody (w ++ r) = w := by
  induction w with
  | nil => rcases hr with rfl | ⟨r', rfl⟩ <;> simp [stringBody]
  | cons c w ih =>
    have hc := hw c (mem_cons_self ..)
    rw [cons_append, stringBody_cons hc.2, ih fun c h => hw c (mem_cons_of_mem _ h)]
    simp [hc.1]

theorem before_of_free {hashes : Nat} (hw : ∀ c ∈ w, c ≠ '"') (hr : r = [] ∨ rawStop hashes <+: r) :
    before (rawStop hashes) (w ++ r) = w := by
  induction w with
  | nil =>
    rcases hr with rfl | hr
    · rfl
    · exact before_of_prefix hr
  | cons c w ih =>
    have hc := hw c (mem_cons_self ..)
    have hstop : ¬(rawStop hashes).isPrefixOf (c :: (w ++ r)) = true := by
      intro h
      replace h := isPrefixOf_iff_prefix.mp h
      rw [rawStop, cons_prefix_cons] at h
      exact hc h.1.symm
    rw [cons_append, before, if_neg hstop, ih fun c h => hw c (mem_cons_of_mem _ h)]

/-- The body `x` of a literal stands before the text `r`: closed by a mark, whatever follows, or open up to
    the end of the text. -/
inductive Delimits (body : List Char → List Char) (mark x : List Char) : List Char → List Char → Prop where
  | closed (r : List Char) (hx : ∀ r, body (x ++ (mark ++ r)) = x) : Delimits body mark x mark r
  | opened (hx : body x = x) : Delimits body mark x [] []

namespace Delimits
variable {body : List Char → List Char} {mark closing : List Char}

theorem body_eq (h : Delimits body mark x closing r) :
    body (x ++ (closing ++ r)) = x ∧ (closing ++ r).take mark.length = closing := by
  cases h with
  | closed _ hx => exact ⟨hx r, take_left⟩
  | opened hx => exact ⟨by simpa using hx, take_nil⟩

theorem of_append (hs : ∃ r, s = body s ++ r ∧ (r = [] ∨ mark <+: r))
    (hclosed : ∀ {w r}, body (w ++ (mark ++ r)) = w → ∀ r', body (w ++ (mark ++ r')) = w)
    (h : body s ++ ((s.drop (body s).length).take mark.length ++ r) = s) :
    Delimits body mark (body s) ((s.drop (body s).length).take mark.length) r := by
  obtain ⟨r₀, hs, hr₀⟩ := hs
  generalize hx : body s = x at hs h ⊢
  subst hs
  rw [drop_left] at h ⊢
  rcases hr₀ with rfl | ⟨r₁, rfl⟩
  · rw [take_nil, nil_append, append_cancel_left_eq] at h
    rw [h, take_nil]
    exact .opened (by simpa using hx)
  · rw [take_left]
    exact .closed r (hclosed hx)

theorem of_free {y : List Char} (h : Delimits body mark x closing r)
    (hy : ∀ r, r = [] ∨ mark <+: r → body (y ++ r) = y) : Delimits body mark y closing r := by
  cases h with
  | closed => exact .closed r fun r => hy _ (.inr (prefix_append ..))
  | opened => exact .opened (by simpa using hy [] (.inl rfl))

theorem of_ne_nil (h : Delimits body mark x closing r) (hr : r ≠ []) (r' : List Char) :
    Delimits body mark x closing r' := by
  cases h with
  | closed _ hx => exact .closed r' hx
  | opened => exact absurd rfl hr

end Delimits

/-- A block comment is closed if a text that follows it is no part of it. -/
def Lexeme.isClosed (l : Lexeme) : Bool := blockCommentRest 1 (l.body.drop 2 ++ [' ']) == l.body.drop 2

/-- The lexeme can stand between the character `last` and the rest of the text. What is not closed runs
    to the end of the text. -/
inductive Fits (last : Option Char) : Lexeme → List Char → Prop where
  | lineComment {x r : List Char} (hx : ∀ c ∈ x, c ≠ '\n') (hr : r = [] ∨ ∃ r', r = '\n' :: r') :
    Fits last ⟨.lineComment, [], '/' :: '/' :: x, []⟩ r
  | closedComment {x : List Char} (r : List Char)
      (hx : ∀ r, blockCommentRest 1 (x ++ '*' :: '/' :: r) = x ++ ['*', '/']) :
    Fits last ⟨.blockComment, [], '/' :: '*' :: (x ++ ['*', '/']), []⟩ r
  | openComment {x : List Char} (hx : blockCommentRest 1 x = x) (hopen : blockCommentRest 1 (x ++ [' ']) ≠ x) :
    Fits last ⟨.blockComment, [], '/' :: '*' :: x, []⟩ []
  | rawString {opening x closing r : List Char} {hashes : Nat} (hlast : rawAllowed last = true)
      (hopening : IsRawOpening opening hashes) (hx : Delimits (before (rawStop hashes)) (rawStop hashes) x closing r) :
    Fits last ⟨.rawString, opening, x, closing⟩ r
  | string {x closing r : List Char} (hx : Delimits stringBody ['"'] x closing r) :
    Fits last ⟨.string, ['"'], x, closing⟩ r
  | character {b : List Char} (r : List Char) (hbody : CharacterBody b) :
    Fits last ⟨.character, ['\''], b, ['\'']⟩ r
  | code {c : Char} {r : List Char} (hline : ¬(c = '/' ∧ r.head? = some '/')) (hblock : ¬(c = '/' ∧ r.head? = some '*'))
      (hraw : rawAllowed last = true → rawOpening? (c :: r) = none) (hquote : c ≠ '"')
      (hcharacter : c = '\'' → characterBody? r = none) :
    Fits last ⟨.code, [c], [], []⟩ r

theorem Fits.reads (h : Fits last l r) : Reads last (l.text ++ r) l := by
  cases h with
  | @lineComment x _ hx hr =>
    have htake : (x ++ r).takeWhile (· != '\n') = x := by
      rw [takeWhile_append_of_pos (by simpa using hx)]
      rcases hr with rfl | ⟨r', rfl⟩ <;> simp
    simpa [text, htake] using @Reads.lineComment last (x ++ r)
  | @closedComment x _ hx =>
    simpa [text, hx] using @Reads.blockComment last (x ++ '*' :: '/' :: r)
  | @openComment x hx => simpa [text, hx] using @Reads.blockComment last x
  | @rawString opening x closing _ _ hlast hopening hx =>
    simpa [text, hx.body_eq] using Reads.rawString (x ++ (closing ++ r)) hlast hopening
  | @string x closing _ hx =>
    have hclosing : (closing ++ r).take 1 = closing := hx.body_eq.2
    simpa [text, hx.body_eq.1, hclosing] using @Reads.string last (x ++ (closing ++ r))
  | character _ hbody => simpa [text] using Reads.character r hbody
  | code hline hblock hraw hquote hcharacter => exact .code hline hblock hraw hquote hcharacter

theorem Reads.fits (h : Reads last (l.text ++ r) l) : Fits last l r := by
  generalize ht : l.text ++ r = t at h
  cases h with
  | lineComment s =>
    have hs : s.takeWhile (· != '\n') ++ r = s := by simpa [text] using ht
    refine .lineComment (fun c hc => by simpa using all_eq_true.mp all_takeWhile c hc) ?_
    have hr : r = s.dropWhile (· != '\n') := append_cancel_left (hs.trans takeWhile_append_dropWhile.symm)
    cases r with
    | nil => exact Or.inl rfl
    | cons c r' =>
      have hc := head?_dropWhile_not (· != '\n') s
      rw [← hr] at hc
      exact Or.inr ⟨r', by simpa using hc⟩
  | blockComment s =>
    have hs : blockCommentRest 1 s ++ r = s := by simpa [text] using ht
    generalize hw : blockCommentRest 1 s = w at hs
    rw [← hs] at hw
    by_cases hclosed : blockCommentRest 1 (w ++ [' ']) = w
    · obtain ⟨⟨x, rfl⟩, hclosed⟩ := blockCommentRest_closed hclosed (cons_ne_nil _ _)
      exact .closedComment r fun r' => by simpa using hclosed r'
    · have hr : r = [] := Decidable.byContradiction fun hr => hclosed ((blockCommentRest_closed hw hr).2 [' '])
      subst hr
      exact .openComment (by simpa using hw) hclosed
  | rawString s hlast hopening =>
    exact .rawString hlast hopening (.of_append (before_append _ s) before_closed (by simpa [text] using ht))
  | string s => exact .string (.of_append (stringBody_append s) stringBody_closed (by simpa [text] using ht))
  | character s hbody => exact .character r hbody
  | code hline hblock hraw hquote hcharacter =>
    simp only [text, append_nil, singleton_append, List.cons.injEq, true_and] at ht
    subst ht
    exact .code hline hblock hraw hquote hcharacter

/-- The mark that a comment begins with, as a part of its body. -/
def Lexeme.lead (l : Lexeme) : List Char :=
  if l.kind = .lineComment ∨ l.kind = .blockComment then l.body.take 2 else []

/-- The mark that a closed block comment ends with, as a part of its body. -/
def Lexeme.trail (l : Lexeme) : List Char :=
  if l.kind = .blockComment ∧ l.isClosed = true then ['*', '/'] else []

/-- What stands strictly inside the lexeme: between its marks, or up to the end of the text. -/
def Lexeme.interior (l : Lexeme) : List Char :=
  (l.body.drop l.lead.length).take (l.body.length - l.lead.length - l.trail.length)

/-- The lexeme with another interior between the same marks. -/
def Lexeme.rewrite (l : Lexeme) (x : List Char) : Lexeme := { l with body := l.lead ++ x ++ l.trail }

/-- The characters that could end a comment or a literal of this kind, or open another comment in it. -/
def LexemeKind.marks? : LexemeKind → Option (List Char)
  | .lineComment => some []
  | .blockComment => some ['*', '/']
  | .string => some ['"', '\\']
  | .rawString => some ['"']
  | .code | .character => none

theorem rewrite_lineComment (x y : List Char) :
    rewrite ⟨.lineComment, [], '/' :: '/' :: x, []⟩ y = ⟨.lineComment, [], '/' :: '/' :: y, []⟩ := by
  simp [rewrite, lead, trail]

theorem rewrite_closedComment (hx : ∀ r, blockCommentRest 1 (x ++ '*' :: '/' :: r) = x ++ ['*', '/'])
    (y : List Char) : rewrite ⟨.blockComment, [], '/' :: '*' :: (x ++ ['*', '/']), []⟩ y =
      ⟨.blockComment, [], '/' :: '*' :: (y ++ ['*', '/']), []⟩ := by
  simp [rewrite, lead, trail, isClosed, hx]

theorem rewrite_openComment (hopen : blockCommentRest 1 (x ++ [' ']) ≠ x) (y : List Char) :
    rewrite ⟨.blockComment, [], '/' :: '*' :: x, []⟩ y = ⟨.blockComment, [], '/' :: '*' :: y, []⟩ := by
  simp [rewrite, lead, trail, isClosed, hopen]

theorem rewrite_literal (hline : l.kind ≠ .lineComment) (hblock : l.kind ≠ .blockComment) (y : List Char) :
    l.rewrite y = { l with body := y } := by
  simp [rewrite, lead, trail, hline, hblock]

theorem Fits.rewrite_interior (h : Fits last l r) : l.rewrite l.interior = l := by
  cases h with
  | closedComment _ hx => simp [rewrite, Lexeme.interior, lead, trail, isClosed, hx]
  | openComment hx hopen => simp [rewrite, Lexeme.interior, lead, trail, isClosed, hopen]
  | _ => simp [rewrite, Lexeme.interior, lead, trail]

/-- A rewritten lexeme stands in the place of the old one. -/
theorem Fits.rewrite (h : Fits last l r) (hmarks : l.kind.marks? = some marks)
    (hlines : x.map (· == '\n') = l.interior.map (· == '\n')) (hfree : ∀ c ∈ x, c ∉ marks) :
    Fits last (l.rewrite x) r := by
  cases h with
  | @lineComment y _ hy hr =>
    rw [rewrite_lineComment]
    refine .lineComment (fun c hc e => ?_) hr
    have hmem : true ∈ x.map (· == '\n') := mem_map.mpr ⟨c, hc, beq_iff_eq.mpr e⟩
    rw [hlines] at hmem
    obtain ⟨d, hd, hnewline⟩ := mem_map.mp hmem
    exact hy d (by simpa [Lexeme.interior, lead, trail] using hd) (beq_iff_eq.mp hnewline)
  | closedComment _ hy =>
    cases hmarks
    rw [rewrite_closedComment hy]
    refine .closedComment r fun r => ?_
    rw [blockCommentRest_append_of_free 1 (by simpa using hfree)]
    simp [blockCommentRest]
  | openComment _ hopen =>
    cases hmarks
    rw [rewrite_openComment hopen]
    have hrest := blockCommentRest_append_of_free (w := x) 1 (by simpa using hfree)
    exact .openComment (by simpa [blockCommentRest] using hrest []) (by simp [hrest, blockCommentRest])
  | rawString hlast hopening hy =>
    cases hmarks
    rw [rewrite_literal (by simp) (by simp)]
    exact .rawString hlast hopening (hy.of_free fun r => before_of_free (by simpa using hfree))
  | string hy =>
    cases hmarks
    rw [rewrite_literal (by simp) (by simp)]
    exact .string (hy.of_free fun r => stringBody_of_free (by simpa using hfree))
  | character | code => cases hmarks

theorem Fits.masked_rewrite (h : Fits last l r)
    (hlines : x.map (· == '\n') = l.interior.map (· == '\n')) : (l.rewrite x).masked = l.masked := by
  -- what a blank stands for shows only whether it is a newline
  have hblank : ∀ y : List Char,
      y.map blankOut = (y.map (· == '\n')).map fun newline => if newline then '\n' else ' ' := by
    intro y
    rw [map_map]
    refine map_congr_left fun c _ => ?_
    unfold blankOut
    split
    · next hc => simp [beq_iff_eq.mp hc]
    · next hc => simpa using hc
  calc (l.rewrite x).masked
    _ = (l.rewrite l.interior).masked := by
      simp only [Lexeme.masked, Lexeme.rewrite, map_append, hblank x, hlines, ← hblank]
    _ = l.masked := by rw [h.rewrite_interior]

theorem lexemesFrom_newline (last : Option Char) (s : List Char) :
    lexemesFrom last ('\n' :: s) = ⟨.code, ['\n'], [], []⟩ :: lexemesFrom (some '\n') s := by
  have hfits : Fits last ⟨.code, ['\n'], [], []⟩ s := by
    refine .code (by simp) (by simp) (fun _ => ?_) (by simp) (by simp)
    simp [rawOpening?]
  exact lexemesFrom_of_reads hfits.reads

/-- The scan goes on behind a rewritten lexeme as it did behind the old one. -/
theorem Fits.lexemesFrom_rewrite (h : Fits last l r) (hmarks : l.kind.marks? = some marks) (x : List Char) :
    lexemesFrom ((l.rewrite x).text.getLast?.or last) r = lexemesFrom (l.text.getLast?.or last) r := by
  have hend : ∀ a mark : List Char, mark ≠ [] → (a ++ mark).getLast? = mark.getLast? := by
    intro a mark hmark
    rw [getLast?_append, getLast?_eq_some_getLast hmark]
    rfl
  cases h with
  | lineComment _ hr =>
    rcases hr with rfl | ⟨r', rfl⟩
    · simp [lexemesFrom]
    · rw [lexemesFrom_newline, lexemesFrom_newline]
  | closedComment _ hy =>
    have htext : ∀ y : List Char, text ⟨.blockComment, [], '/' :: '*' :: (y ++ ['*', '/']), []⟩ =
        '/' :: '*' :: y ++ ['*', '/'] := by simp [text]
    rw [rewrite_closedComment hy, htext, htext, hend _ _ (by simp), hend _ _ (by simp)]
  | rawString _ _ hy | string hy =>
    rw [rewrite_literal (by simp) (by simp), text, text]
    cases hy with
    | closed => rw [hend _ _ (by simp [rawStop]), hend _ _ (by simp [rawStop])]
    | opened => simp [lexemesFrom]
  | openComment => simp [lexemesFrom]
  | character | code => cases hmarks

end ContractAudit.Source

import ContractAudit.Proofs.Interior
import ContractAudit.Proofs.Seam

/-! # Masking line by line

The scan looks ahead within a line only. So the text from a line on is masked by a function of its own,
which keeps a blank at the start of the line as a blank. -/

namespace ContractAudit.Source
open Text List
variable {o x : List Char} {c : Char}
variable {l : Lexeme} {t r : List Char} {g : List Char → List Char} {n : Nat}

variable {last last' : Option Char} {pre s y : List Char}

/-! ### The character before -/

theorem reads_of_rawAllowed (h : rawAllowed last = rawAllowed last') (hr : Reads last s l) : Reads last' s l := by
  cases hr with
  | lineComment => exact .lineComment _
  | blockComment => exact .blockComment _
  | rawString s hlast hopening => exact .rawString s (h ▸ hlast) hopening
  | string => exact .string _
  | character s hbody => exact .character s hbody
  | code hline hblock hraw hquote hcharacter => exact .code hline hblock (h ▸ hraw) hquote hcharacter

theorem lexemesFrom_of_rawAllowed (h : rawAllowed last = rawAllowed last') (s : List Char) :
    lexemesFrom last s = lexemesFrom last' s := by
  cases s with
  | nil => rw [lexemesFrom, lexemesFrom]
  | cons c s =>
    have hreads := reads_lexeme last c s
    obtain ⟨r, hr⟩ := hreads.text_prefix
    rw [← hr] at hreads ⊢
    have hlast : ∀ o : Option Char, (lexeme last c s).text.getLast?.or o = (lexeme last c s).text.getLast? := by
      intro o
      rw [getLast?_eq_some_getLast hreads.text_ne_nil]
      rfl
    rw [lexemesFrom_of_reads hreads, lexemesFrom_of_reads (reads_of_rawAllowed h hreads), hlast, hlast]

def maskFrom (last : Option Char) (s : List Char) : List Char :=
  (lexemesFrom last s).flatMap Lexeme.masked

theorem maskFrom_of_fits (h : Fits last l s) :
    maskFrom last (l.text ++ s) = l.masked ++ maskFrom (l.text.getLast?.or last) s := by
  rw [maskFrom, lexemesFrom_of_reads h.reads, flatMap_cons]
  rfl

theorem length_masked (l : Lexeme) : l.masked.length = l.text.length := by
  simp [Lexeme.masked, Lexeme.text]

/-! ### Scans that are open at the start of a line -/

theorem prefix_of_newline_not_mem (ho : '\n' ∉ o) (h : o <+: y ++ '\n' :: s) : o <+: y := by
  by_cases hlength : o.length ≤ y.length
  · exact prefix_of_prefix_length_le h (prefix_append ..) hlength
  · have hline : y ++ ['\n'] <+: o := by
      refine prefix_of_prefix_length_le ⟨s, by simp⟩ h ?_
      rw [length_append, length_singleton]
      omega
    exact absurd (hline.subset (by simp)) ho

theorem eq_cons_cons_of_append {d : Char} (h : y ++ ['\n'] = c :: d :: t)
    (hc : c ≠ '\n') (hd : d ≠ '\n') : ∃ y', y = c :: d :: y' ∧ t = y' ++ ['\n'] := by
  obtain ⟨y, rfl, hy⟩ := (append_eq_cons_iff.mp h).resolve_left fun h => hc (List.cons.inj h.2).1.symm
  obtain ⟨y, rfl, rfl⟩ := (append_eq_cons_iff.mp hy.symm).resolve_left fun h => hd (List.cons.inj h.2).1.symm
  exact ⟨y, rfl, rfl⟩

theorem blockCommentRest_append {depth : Nat} (h : blockCommentRest depth (y ++ ['\n']) = y ++ ['\n']) :
    ∃ depth', ∀ s, blockCommentRest depth (y ++ '\n' :: s) = y ++ '\n' :: blockCommentRest depth' s := by
  generalize ht : y ++ ['\n'] = t at h
  fun_induction blockCommentRest depth t generalizing y with
  | case1 => simp at ht
  | case2 depth c =>
    obtain ⟨rfl, rfl⟩ : y = [] ∧ '\n' = c := by simpa [append_eq_cons_iff] using ht
    exact ⟨depth, blockCommentRest_cons depth (by decide) (by decide)⟩
  | case3 depth t ih =>
    obtain ⟨y, rfl, rfl⟩ := eq_cons_cons_of_append ht (by decide) (by decide)
    obtain ⟨depth', hrest⟩ := ih rfl (List.cons.inj (List.cons.inj h).2).2
    exact ⟨depth', fun s => by rw [cons_append, cons_append, blockCommentRest, hrest]; rfl⟩
  | case4 depth t hdepth =>
    obtain ⟨y, rfl, rfl⟩ := eq_cons_cons_of_append ht (by decide) (by decide)
    simp at h
  | case5 depth t hdepth ih =>
    obtain ⟨y, rfl, rfl⟩ := eq_cons_cons_of_append ht (by decide) (by decide)
    obtain ⟨depth', hrest⟩ := ih rfl (List.cons.inj (List.cons.inj h).2).2
    refine ⟨depth', fun s => ?_⟩
    rw [cons_append, cons_append, blockCommentRest, if_neg hdepth, hrest]
    rfl
  | case6 depth c d t hopen hclose ih =>
    obtain ⟨y, rfl, hy⟩ : ∃ y', y = c :: y' ∧ d :: t = y' ++ ['\n'] := by
      rcases append_eq_cons_iff.mp ht with ⟨-, he⟩ | hy
      · simp at he
      · exact hy
    obtain ⟨depth', hrest⟩ := ih hy.symm (List.cons.inj h).2
    refine ⟨depth', fun s => ?_⟩
    obtain ⟨r, hr⟩ : ∃ r, y ++ '\n' :: s = d :: r := by
      refine ⟨t ++ s, ?_⟩
      rw [← cons_append, hy]
      simp
    have hs := hrest s
    rw [hr] at hs
    rw [cons_append, hr, blockCommentRest_cons_cons depth hopen hclose, hs]
    rfl

theorem stringBody_append_newline (h : stringBody (y ++ ['\n']) = y ++ ['\n']) (s : List Char) :
    stringBody (y ++ '\n' :: s) = y ++ '\n' :: stringBody s := by
  generalize ht : y ++ ['\n'] = t at h
  fun_induction stringBody t generalizing y with
  | case1 => simp at ht
  | case2 => simp [append_eq_cons_iff] at ht
  | case3 c t ih =>
    obtain ⟨y, rfl, hy⟩ := (append_eq_cons_iff.mp ht).resolve_left (by simp)
    rcases append_eq_cons_iff.mp hy.symm with ⟨rfl, he⟩ | ⟨y, rfl, rfl⟩
    · obtain ⟨rfl, rfl⟩ := List.cons.inj he
      rw [singleton_append, stringBody]
      rfl
    · have hrest := ih rfl (List.cons.inj (List.cons.inj h).2).2
      rw [cons_append, cons_append, stringBody, hrest]
      rfl
  | case4 c t hend hescape hc => cases h
  | case5 c t hend hescape hc ih =>
    rcases append_eq_cons_iff.mp ht with ⟨rfl, he⟩ | ⟨y, rfl, rfl⟩
    · obtain ⟨rfl, rfl⟩ := List.cons.inj he
      exact stringBody_cons (by decide)
    · have hslash : c ≠ '\\' := by
        intro e
        cases hy : y ++ ['\n'] with
        | nil => exact hend e hy
        | cons d t => exact hescape d t e hy
      have hrest := ih rfl (List.cons.inj h).2
      rw [cons_append, stringBody_cons hslash, if_neg hc, hrest]
      rfl

theorem before_append_newline {stop : List Char} (hstop : '\n' ∉ stop) (hne : stop ≠ [])
    (h : before stop (y ++ ['\n']) = y ++ ['\n']) (s : List Char) :
    before stop (y ++ '\n' :: s) = y ++ '\n' :: before stop s := by
  induction y with
  | nil =>
    rw [nil_append, before, if_neg]
    · rfl
    · intro hp
      have hp := prefix_of_newline_not_mem (y := []) hstop <| isPrefixOf_iff_prefix.mp hp
      exact hne (prefix_nil.mp hp)
  | cons c y ih =>
    rw [cons_append, before] at h
    split at h
    · cases h
    · next hnot =>
      have hrest := ih (List.cons.inj h).2
      rw [cons_append, before, if_neg, hrest]
      · rfl
      · intro hp
        have hp := prefix_of_newline_not_mem (y := c :: y) hstop <| isPrefixOf_iff_prefix.mp hp
        exact hnot <| isPrefixOf_iff_prefix.mpr (hp.trans (prefix_append ..))

/-! ### The mask of the text from a line on -/

/-- A blank at the start of the text becomes a blank, and nothing else changes. -/
def KeepsBlank (f : List Char → List Char) : Prop :=
  ∀ b s, b = ' ' ∨ b = '\t' → ∃ b', (b' = ' ' ∨ b' = '\t') ∧ f (b :: s) = b' :: f s

theorem keepsBlank_maskFrom (h : rawAllowed last = true) : KeepsBlank (maskFrom last) := by
  intro b s hb
  refine ⟨b, hb, ?_⟩
  have hfits : Fits last ⟨.code, [b], [], []⟩ s := by
    refine .code ?_ ?_ (fun _ => ?_) ?_ ?_ <;> rcases hb with rfl | rfl <;> simp [rawOpening?]
  have hraw : rawAllowed (some b) = rawAllowed last := by
    rw [h]
    rcases hb with rfl | rfl <;> decide
  have hrest : maskFrom (some b) s = maskFrom last s := by
    rw [maskFrom, maskFrom, lexemesFrom_of_rawAllowed hraw]
  exact (maskFrom_of_fits hfits).trans (congrArg (b :: ·) hrest)

/-- The mask of what follows an open lexeme, which begins with `o ++ x`: the scan `g` reads on in it,
    and a mark of length `n` closes it. -/
def openMask (o x : List Char) (g : List Char → List Char) (n : Nat) (s : List Char) : List Char :=
  (g s).map blankOut ++ (s.drop (g s).length).take n
    ++ maskFrom (o ++ (x ++ g s) ++ (s.drop (g s).length).take n).getLast? ((s.drop (g s).length).drop n)

theorem rawAllowed_getLast?_insert {b : Char} (hb : b = ' ' ∨ b = '\t') (y z : List Char) :
    rawAllowed (y ++ '\n' :: b :: z).getLast? = rawAllowed (y ++ '\n' :: z).getLast? := by
  cases z with
  | nil =>
    rw [getLast?_append, getLast?_append]
    show rawAllowed (some b) = rawAllowed (some '\n')
    rcases hb with rfl | rfl <;> decide
  | cons c z => simp [getLast?_append]

theorem keepsBlank_openMask {y : List Char}
    (hx : o ++ x = y ++ ['\n']) (hg : ∀ b s, b = ' ' ∨ b = '\t' → g (b :: s) = b :: g s) :
    KeepsBlank (openMask o x g n) := by
  intro b s hb
  refine ⟨' ', .inl rfl, ?_⟩
  have hblank : blankOut b = ' ' := by rcases hb with rfl | rfl <;> rfl
  have hline (z t : List Char) : o ++ (x ++ z) ++ t = y ++ '\n' :: (z ++ t) := by
    rw [← append_assoc o, hx]
    simp
  have hraw (t : List Char) : rawAllowed (o ++ (x ++ b :: g s) ++ t).getLast? =
      rawAllowed (o ++ (x ++ g s) ++ t).getLast? := by
    rw [hline, hline]
    exact rawAllowed_getLast?_insert hb y (g s ++ t)
  simp only [openMask, hg b s hb, map_cons, hblank, length_cons, drop_succ_cons,
    cons_append, maskFrom, lexemesFrom_of_rawAllowed (hraw _)]

theorem maskFrom_open {kind : LexemeKind} (hg : g s <+: s)
    (h : Reads last (o ++ x ++ s) ⟨kind, o, x ++ g s, (s.drop (g s).length).take n⟩) :
    maskFrom last (o ++ x ++ s) = (o ++ x.map blankOut) ++ openMask o x g n s := by
  obtain ⟨r, hr⟩ := hg
  have hdrop : (g s ++ r).drop (g s).length = r := drop_left
  rw [hr] at hdrop
  rw [hdrop] at h
  have htext : o ++ x ++ s = Lexeme.text ⟨kind, o, x ++ g s, r.take n⟩ ++ r.drop n := by
    rw [Lexeme.text, append_assoc _ (r.take n), take_append_drop]
    simp only [append_assoc, hr]
  have hlast : (Lexeme.text ⟨kind, o, x ++ g s, r.take n⟩).getLast?.or last =
      (Lexeme.text ⟨kind, o, x ++ g s, r.take n⟩).getLast? := by
    rw [getLast?_eq_some_getLast h.text_ne_nil]
    rfl
  rw [htext] at h ⊢
  rw [maskFrom, lexemesFrom_of_reads h, hlast, flatMap_cons, openMask, hdrop, Lexeme.masked,
    Lexeme.text, maskFrom, map_append]
  simp only [append_assoc]

theorem newline_not_mem_of_isRawOpening {hashes : Nat} (h : IsRawOpening o hashes) : '\n' ∉ o := by
  rcases h with rfl | rfl <;> simp

theorem newline_not_mem_of_characterBody {b : List Char} (h : CharacterBody b) : '\n' ∉ b := by
  have hhex {c : Char} (hc : isHexDigit c = true) : '\n' ≠ c := by
    rintro rfl
    exact absurd hc (by decide)
  cases h with
  | plain h => simpa using h.2.2.symm
  | escaped h => simpa using h.symm
  | hex ha hb => simp [hhex ha, hhex hb]
  | unicode h _ => simpa using fun hmem => hhex (h _ hmem) rfl

/-- Code that is read up to a newline is read whatever stands in the next line. -/
theorem fits_code_append (hy : c :: r = y ++ ['\n'])
    (h : Fits last ⟨.code, [c], [], []⟩ r) (s : List Char) : Fits last ⟨.code, [c], [], []⟩ (r ++ s) := by
  cases h with
  | code hline hblock hraw hquote hcharacter =>
    have hhead {a : Char} (hc : c = '/') : (r ++ s).head? = some a → r.head? = some a := by
      cases r with
      | nil =>
        obtain ⟨-, rfl⟩ : y = [] ∧ '\n' = c := by simpa [append_eq_cons_iff] using hy.symm
        cases hc
      | cons d r => exact id
    refine .code (fun h => hline ⟨h.1, hhead h.1 h.2⟩) (fun h => hblock ⟨h.1, hhead h.1 h.2⟩)
      (fun hlast => ?_) hquote fun hc => ?_
    · rw [Option.eq_none_iff_forall_ne_some]
      rintro ⟨o, hashes⟩ ho
      obtain ⟨hopening, hp⟩ := rawOpening?_eq_some.mp ho
      rw [← cons_append, hy, append_assoc, singleton_append] at hp
      have hp := prefix_of_newline_not_mem (newline_not_mem_of_isRawOpening hopening) hp
      have hraw := hraw hlast
      rw [hy, rawOpening?_eq_some.mpr ⟨hopening, hp.trans (prefix_append ..)⟩] at hraw
      cases hraw
    · obtain ⟨y, rfl, rfl⟩ := (append_eq_cons_iff.mp hy.symm).resolve_left (by rintro ⟨-, h⟩; simp [hc] at h)
      rw [Option.eq_none_iff_forall_ne_some]
      intro b hb
      obtain ⟨hbody, hp⟩ := characterBody?_eq_some.mp hb
      rw [append_assoc, singleton_append] at hp
      have hmem : '\n' ∉ b ++ ['\''] := by simpa using newline_not_mem_of_characterBody hbody
      have hp := prefix_of_newline_not_mem hmem hp
      have hchar := hcharacter hc
      rw [characterBody?_eq_some.mpr ⟨hbody, hp.trans (prefix_append ..)⟩] at hchar
      cases hchar

theorem exists_fits (last : Option Char) (ht : t ≠ []) : ∃ l r, t = l.text ++ r ∧ Fits last l r := by
  obtain ⟨c, t, rfl⟩ := exists_cons_of_ne_nil ht
  have hreads := reads_lexeme last c t
  obtain ⟨r, hr⟩ := hreads.text_prefix
  exact ⟨_, r, hr.symm, Reads.fits (by rwa [hr])⟩

theorem eq_concat_of_append_newline (hx : o ++ x = y ++ ['\n']) (hne : x ≠ []) : ∃ z, x = z ++ ['\n'] := by
  rcases eq_nil_or_concat x with h | ⟨z, c, rfl⟩
  · exact absurd h hne
  · rw [concat_eq_append, ← append_assoc] at hx
    obtain rfl : c = '\n' := singleton_inj.mp (append_inj' hx rfl).2
    exact ⟨z, concat_eq_append⟩

theorem eq_concat_of_newline_not_mem (hx : o ++ x = y ++ ['\n']) (ho : '\n' ∉ o) : ∃ z, x = z ++ ['\n'] := by
  refine eq_concat_of_append_newline hx ?_
  rintro rfl
  rw [append_nil] at hx
  exact ho (by rw [hx]; simp)

/-- What is masked in `pre`, and what masks the text after it, do not depend on that text. -/
def MaskSplits (last : Option Char) (pre : List Char) : Prop :=
  ∃ a f, a.length = pre.length ∧ KeepsBlank f ∧ ∀ s, maskFrom last (pre ++ s) = a ++ f s

theorem MaskSplits.lexeme (h : MaskSplits (l.text.getLast?.or last) r) (hfits : ∀ s, Fits last l (r ++ s)) :
    MaskSplits last (l.text ++ r) := by
  obtain ⟨a, f, ha, hf, hmask⟩ := h
  refine ⟨l.masked ++ a, f, by rw [length_append, length_masked, ha, length_append], hf, fun s => ?_⟩
  rw [append_assoc, maskFrom_of_fits (hfits s), hmask, append_assoc]

/-- A lexeme that is still open at the end of the line. -/
theorem maskSplits_open (kind : LexemeKind) (g : List Char → List Char) (n : Nat)
    (hx : o ++ x = y ++ ['\n']) (hg : ∀ b s, b = ' ' ∨ b = '\t' → g (b :: s) = b :: g s)
    (hstart : ∀ s, g s <+: s)
    (h : ∀ s, Reads last (o ++ x ++ s) ⟨kind, o, x ++ g s, (s.drop (g s).length).take n⟩) :
    MaskSplits last (o ++ x) :=
  ⟨o ++ x.map blankOut, openMask o x g n, by simp, keepsBlank_openMask hx hg,
    fun s => maskFrom_open (hstart s) (h s)⟩

theorem maskSplits_comment (hy : ['/', '*'] ++ x = y ++ ['\n']) (hx : blockCommentRest 1 x = x) :
    MaskSplits last ('/' :: '*' :: x) := by
  obtain ⟨z, rfl⟩ := eq_concat_of_newline_not_mem hy (by decide)
  obtain ⟨depth, hrest⟩ := blockCommentRest_append hx
  have hbody := blockCommentRest_prefix depth
  refine maskSplits_open .blockComment (o := []) (x := '/' :: '*' :: (z ++ ['\n'])) (blockCommentRest depth) 0
    hy (fun b s hb => ?_) hbody fun s => ?_
  · rcases hb with rfl | rfl <;> exact blockCommentRest_cons depth (by decide) (by decide) s
  · simpa [hrest] using @Reads.blockComment last (z ++ '\n' :: s)

theorem maskSplits_rawString {hashes : Nat} (hlast : rawAllowed last = true) (ho : IsRawOpening o hashes)
    (hy : o ++ x = y ++ ['\n']) (hx : before (rawStop hashes) x = x) : MaskSplits last (o ++ x) := by
  obtain ⟨z, rfl⟩ := eq_concat_of_newline_not_mem hy (newline_not_mem_of_isRawOpening ho)
  have hstop : '\n' ∉ rawStop hashes := by simp [rawStop]
  have hrest := before_append_newline hstop (cons_ne_nil _ _) hx
  refine maskSplits_open .rawString (before (rawStop hashes)) (rawStop hashes).length hy
    (fun b s hb => ?_) (fun s => ?_) fun s => ?_
  · rw [before, if_neg]
    rcases hb with rfl | rfl <;> simp [rawStop]
  · obtain ⟨r, hr, -⟩ := before_append (rawStop hashes) s
    exact ⟨r, hr.symm⟩
  · simpa [hrest] using Reads.rawString (z ++ '\n' :: s) hlast ho

theorem maskSplits_string (hy : ['"'] ++ x = y ++ ['\n']) (hx : stringBody x = x) :
    MaskSplits last (['"'] ++ x) := by
  obtain ⟨z, rfl⟩ := eq_concat_of_newline_not_mem hy (by decide)
  have hrest := stringBody_append_newline hx
  refine maskSplits_open .string stringBody 1 hy (fun b s hb => ?_) (fun s => ?_) fun s => ?_
  · rcases hb with rfl | rfl <;> exact stringBody_cons (by decide)
  · obtain ⟨r, hr, -⟩ := stringBody_append s
    exact ⟨r, hr.symm⟩
  · simpa [hrest] using @Reads.string last (z ++ '\n' :: s)

/-- One lexeme after another: each ends in the line whatever follows, or is open at its end. -/
theorem maskSplits_of_line (h : pre = [] ∧ rawAllowed last = true ∨ ∃ y, pre = y ++ ['\n']) :
    MaskSplits last pre := by
  induction hn : pre.length using Nat.strong_induction_on generalizing pre last with
  | _ n ih =>
    rcases h with ⟨rfl, hlast⟩ | ⟨y, hy⟩
    · exact ⟨[], maskFrom last, rfl, keepsBlank_maskFrom hlast, fun s => rfl⟩
    obtain ⟨l, r, rfl, hfits⟩ := exists_fits last (t := pre) (by simp [hy])
    have hrest : MaskSplits (l.text.getLast?.or last) r := by
      have hpos : 0 < l.text.length := length_pos_iff.mpr hfits.reads.text_ne_nil
      rw [length_append] at hn
      refine ih r.length (by omega) ?_ rfl
      by_cases hr : r = []
      · rw [hr, append_nil] at hy
        exact .inl ⟨hr, by rw [hy, getLast?_concat, Option.some_or]; decide⟩
      · exact .inr (eq_concat_of_append_newline hy hr)
    cases hfits with
    | @lineComment x _ hx hr =>
      rcases hr with rfl | ⟨r, rfl⟩
      · -- a comment that ends with the text has no newline
        have hmem : '\n' ∈ Lexeme.text ⟨.lineComment, [], '/' :: '/' :: x, []⟩ ++ [] := by simp [hy]
        exact absurd rfl (hx '\n' (by simpa [Lexeme.text] using hmem))
      · exact hrest.lexeme fun s => .lineComment hx (.inr ⟨r ++ s, rfl⟩)
    | closedComment r hx => exact hrest.lexeme fun s => .closedComment _ hx
    | openComment hx =>
      simp only [Lexeme.text, nil_append, append_nil] at hy ⊢
      exact maskSplits_comment hy hx
    | rawString hlast hopening hx =>
      rcases hx with ⟨_, hx⟩ | hx
      · exact hrest.lexeme fun s => .rawString hlast hopening (.closed _ hx)
      · simp only [Lexeme.text, append_nil] at hy ⊢
        exact maskSplits_rawString hlast hopening hy hx
    | string hx =>
      rcases hx with ⟨_, hx⟩ | hx
      · exact hrest.lexeme fun s => .string (.closed _ hx)
      · simp only [Lexeme.text, append_nil] at hy ⊢
        exact maskSplits_string hy hx
    | character r hbody => exact hrest.lexeme fun s => .character _ hbody
    | code hline hblock hraw hquote hcharacter =>
      exact hrest.lexeme (fits_code_append hy (.code hline hblock hraw hquote hcharacter))

theorem Seam.exists_mask (s : Seam) : ∃ x : Seam, x.pre.length = s.pre.length ∧
    x.post.length = s.post.length ∧ mask s.text = x.text ∧ mask s.wide = x.wide := by
  obtain ⟨a, f, hlength, hf, hmask⟩ : MaskSplits none s.pre :=
    maskSplits_of_line (s.pre_eq.imp (fun h => ⟨h, rfl⟩) id)
  have hmask (t : List Char) : mask (s.pre ++ t) = a ++ f t := hmask t
  obtain ⟨b, hb, hblank⟩ := hf s.blank s.post s.indents
  have hends : a.map (· == '\n') = s.pre.map (· == '\n') := by
    have h := (blanksOut_mask (s.pre ++ s.post)).map_newline
    rw [hmask, map_append, map_append] at h
    exact (append_inj h (by simp [hlength])).1
  let x : Seam := {
    pre := a
    blank := b
    post := f s.post
    indents := hb
    ends c hc := by
      have h := congrArg List.getLast? hends
      rw [getLast?_map, getLast?_map, hc] at h
      cases hp : s.pre.getLast? with
      | none => simp [hp] at h
      | some d => simpa [hp, s.ends d hp] using h }
  refine ⟨x, hlength, ?_, hmask s.post, (hmask _).trans (congrArg (a ++ ·) hblank)⟩
  have h := (blanksOut_mask (s.pre ++ s.post)).length_eq
  rw [hmask, length_append, length_append, hlength] at h
  exact Nat.add_left_cancel h

end ContractAudit.Source

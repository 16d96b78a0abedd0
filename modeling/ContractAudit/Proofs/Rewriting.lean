import ContractAudit.Proofs.Interior

/-! # Masking and the insides of comments and literals

Whatever stands before the opening mark of a comment or a literal still stands there after the inside has
been rewritten. -/

namespace ContractAudit.Source
open Text List Lexeme
variable {y marks x t : List Char} {pre post : List Lexeme}
variable {opening y' a b z t' : List Char} {hashes : Nat} {ls : List Lexeme}

variable {last : Option Char} {s r w : List Char} {l : Lexeme}

/-! ### The lexemes before -/

/-- An apostrophe that begins no character literal. -/
def apostrophe : Lexeme := ⟨.code, ['\''], [], []⟩

def backslash : Lexeme := ⟨.code, ['\\'], [], []⟩

/-- A character literal would begin at the end of these lexemes if an apostrophe stood one place further. -/
def Dangles (before : List Lexeme) : Prop := [apostrophe] <:+ before ∨ [apostrophe, backslash] <:+ before

theorem IsRawOpening.exists_concat (h : IsRawOpening opening hashes) :
    ∃ a, opening = a ++ ['"'] ∧ ∀ c ∈ a, c ≠ '/' ∧ c ≠ '"' := by
  rcases h with rfl | rfl <;> exact ⟨_, rfl, by simp⟩

theorem rawOpening?_none_of_prefix (h : rawOpening? (w ++ y) = none) (hw : '/' ∈ w ∨ '"' ∈ w)
    (y' : List Char) : rawOpening? (w ++ y') = none := by
  rw [Option.eq_none_iff_forall_ne_some] at h ⊢
  rintro ⟨opening, hashes⟩ hopening
  obtain ⟨hshape, hprefix⟩ := rawOpening?_eq_some.mp hopening
  have hout : ¬opening <+: w := fun hin =>
    h _ (rawOpening?_eq_some.mpr ⟨hshape, hin.trans (prefix_append ..)⟩)
  have hin := prefix_or_prefix_of_prefix hprefix (prefix_append w y') |>.resolve_left hout
  -- the opening goes on behind `w`, so `w` holds no more than its letters and hash marks
  obtain ⟨a, rfl, ha⟩ := hshape.exists_concat
  rcases prefix_concat_iff.mp hin with rfl | hin
  · exact hout prefix_rfl
  · rcases hw with hw | hw
    · exact (ha _ (hin.subset hw)).1 rfl
    · exact (ha _ (hin.subset hw)).2 rfl

theorem characterBody?_none_of_prefix (h : characterBody? (w ++ y) = none) (hw : '/' ∈ w ∨ '"' ∈ w)
    (hy : ∀ m, w = [m] ∨ w = ['\\', m] → y'.head? ≠ some '\'') : characterBody? (w ++ y') = none := by
  rw [Option.eq_none_iff_forall_ne_some] at h ⊢
  intro b hb
  obtain ⟨hbody, hprefix⟩ := characterBody?_eq_some.mp hb
  have hout : ¬b ++ ['\''] <+: w := fun hin =>
    h _ (characterBody?_eq_some.mpr ⟨hbody, hin.trans (prefix_append ..)⟩)
  have hin := prefix_or_prefix_of_prefix hprefix (prefix_append w y') |>.resolve_left hout
  rcases prefix_concat_iff.mp hin with rfl | hin
  · exact hout prefix_rfl
  have hquote : w = b → y'.head? = some '\'' := by
    rintro rfl
    obtain ⟨t, rfl⟩ := (prefix_append_right_inj w).mp hprefix
    rfl
  cases hbody with
  | @plain c =>
    rcases prefix_cons_iff.mp hin with rfl | ⟨t, rfl, ht⟩
    · simp at hw
    · obtain rfl := prefix_nil.mp ht
      exact hy c (Or.inl rfl) (hquote rfl)
  | @escaped c =>
    rcases prefix_concat_iff.mp (show w <+: ['\\'] ++ [c] from hin) with rfl | hin
    · exact hy c (Or.inr rfl) (hquote rfl)
    · have hmem : '/' ∈ ['\\'] ∨ '"' ∈ ['\\'] := hw.imp (hin.subset ·) (hin.subset ·)
      simp at hmem
  | hex | unicode =>
    have hmem := hw.imp (hin.subset ·) (hin.subset ·)
    have hdigits : isHexDigit '/' = false ∧ isHexDigit '"' = false := by decide
    grind

/-- What stands before a mark does not depend on what stands behind it, unless an apostrophe and at most a
    backslash stand before it and another apostrophe behind it. -/
theorem Fits.of_prefix (h : Fits last l (w ++ y)) (hw : '/' ∈ w ∨ '"' ∈ w)
    (hy : l = apostrophe → ∀ m, w = [m] ∨ w = ['\\', m] → y'.head? ≠ some '\'') : Fits last l (w ++ y') := by
  have hne : w ≠ [] := by rintro rfl; simp at hw
  obtain ⟨d, v, rfl⟩ := exists_cons_of_ne_nil hne
  generalize hr : d :: v ++ y = r at h
  cases h with
  | lineComment hx hnewline =>
    refine .lineComment hx (Or.inr ?_)
    rcases hnewline with rfl | ⟨r', rfl⟩
    · cases hr
    · exact ⟨v ++ y', by rw [← (List.cons.inj hr).1]; rfl⟩
  | closedComment _ hx => exact .closedComment _ hx
  | openComment => cases hr
  | rawString hlast hopening hx => exact .rawString hlast hopening (hx.of_ne_nil (hr ▸ cons_ne_nil _ _) _)
  | string hx => exact .string (hx.of_ne_nil (hr ▸ cons_ne_nil _ _) _)
  | character _ hbody => exact .character _ hbody
  | code hline hblock hraw hquote hcharacter =>
    subst hr
    refine .code hline hblock (fun hlast => ?_) hquote (fun e => ?_)
    · exact rawOpening?_none_of_prefix (hraw hlast) (hw.imp (.tail _) (.tail _)) y'
    · exact characterBody?_none_of_prefix (hcharacter e) hw (hy (by rw [e]; rfl))

theorem IsRawOpening.exists_cons_cons (h : IsRawOpening opening hashes) :
    ∃ a b v, opening = a :: b :: v ∧ a ≠ '\\' := by
  rcases h with rfl | rfl
  · cases hashes with
    | zero => exact ⟨'r', '"', [], rfl, by simp⟩
    | succ n => exact ⟨'r', '#', _, rfl, by simp⟩
  · exact ⟨'b', 'r', _, rfl, by simp⟩

theorem Fits.opening_lead (h : Fits last l r) (hmarks : l.kind.marks? = some marks) :
    (l.kind = .string ∧ l.opening ++ l.lead = ['"']) ∨ ∃ a b v, l.opening ++ l.lead = a :: b :: v ∧ a ≠ '\\' := by
  cases h with
  | lineComment => exact Or.inr ⟨'/', '/', [], by simp [lead], by simp⟩
  | closedComment | openComment => exact Or.inr ⟨'/', '*', [], by simp [lead], by simp⟩
  | rawString _ hopening => exact Or.inr (by simpa [lead] using hopening.exists_cons_cons)
  | string => exact Or.inl ⟨rfl, by simp [lead]⟩
  | character | code => cases hmarks

theorem Fits.kind_of_character {q : List Char} {m : Char} (h : Fits last l r) (hmarks : l.kind.marks? = some marks)
    (hq : q ++ (l.opening ++ l.lead) = [m] ∨ q ++ (l.opening ++ l.lead) = ['\\', m]) :
    l.kind = .string ∧ (q = [] ∨ q = ['\\']) := by
  rcases h.opening_lead hmarks with ⟨hkind, hw⟩ | ⟨a, b, v, hw, ha⟩
  · refine ⟨hkind, hq.imp (fun hq => ?_) (fun hq => ?_)⟩
    · have hq : q ++ ['"'] = [] ++ [m] := hw ▸ hq
      exact (append_inj' hq rfl).1
    · have hq : q ++ ['"'] = ['\\'] ++ [m] := hw ▸ hq
      exact (append_inj' hq rfl).1
  · rw [hw] at hq
    rcases q with _ | ⟨c, q⟩
    · rcases hq with hq | hq
      · cases hq
      · exact absurd (List.cons.inj hq).1 ha
    · have hlength := hq.imp (congrArg List.length) (congrArg List.length)
      simp only [length_append, length_cons, length_nil] at hlength
      omega

theorem Fits.mark_mem (h : Fits last l r) (hmarks : l.kind.marks? = some marks) :
    '/' ∈ l.opening ++ l.lead ∨ '"' ∈ l.opening ++ l.lead := by
  cases h with
  | lineComment | closedComment | openComment => simp [lead]
  | rawString _ hopening =>
    obtain ⟨a, rfl, -⟩ := hopening.exists_concat
    simp
  | string => simp
  | character | code => cases hmarks

theorem Fits.head?_string (h : Fits last l r) (hkind : l.kind = .string) (hx : x.head? ≠ some '\'') :
    (x ++ (l.trail ++ l.closing ++ r)).head? ≠ some '\'' := by
  cases x with
  | cons c x => exact hx
  | nil =>
    cases h with
    | string hy => cases hy <;> simp [trail]
    | _ => cases hkind

theorem exists_fits_of_lexemesFrom (h : lexemesFrom last s = pre ++ l :: post) :
    ∃ last', Fits last' l (post.flatMap text) := by
  induction pre generalizing last s with
  | nil =>
    obtain ⟨r, rfl, hreads, hpost⟩ := exists_reads_of_lexemesFrom h
    rw [← hpost, flatMap_text_lexemesFrom]
    exact ⟨last, hreads.fits⟩
  | cons p pre ih =>
    obtain ⟨r, rfl, -, hrest⟩ := exists_reads_of_lexemesFrom h
    exact ih hrest

theorem eq_nil_of_flatMap_text (h : lexemesFrom last s = pre ++ ls) (hpre : pre.flatMap text = []) : pre = [] := by
  cases pre with
  | nil => rfl
  | cons p pre =>
    obtain ⟨r, rfl, hreads, -⟩ := exists_reads_of_lexemesFrom h
    exact absurd (append_eq_nil_iff.mp hpre).1 hreads.text_ne_nil

theorem eq_backslash_of_flatMap_text (h : lexemesFrom last s = pre ++ ls)
    (hpre : pre.flatMap text = ['\\']) : pre = [backslash] := by
  cases pre with
  | nil => cases hpre
  | cons p pre =>
    obtain ⟨r, rfl, hreads, hrest⟩ := exists_reads_of_lexemesFrom h
    rw [flatMap_cons, append_eq_singleton_iff] at hpre
    rcases hpre with ⟨hp, -⟩ | ⟨hp, hpre⟩
    · exact absurd hp hreads.text_ne_nil
    · rw [eq_nil_of_flatMap_text hrest hpre]
      cases hreads.fits with
      | rawString _ hopening => rcases hopening with rfl | rfl <;> simp [text] at hp
      | code =>
        obtain rfl : _ = '\\' := by simpa [text] using hp
        rfl
      | _ => simp [text] at hp

theorem flatMap_text_rewrite (pre : List Lexeme) (l : Lexeme) (post : List Lexeme) (x : List Char) :
    (pre ++ l.rewrite x :: post).flatMap text =
      pre.flatMap text ++ (l.opening ++ l.lead) ++ (x ++ (l.trail ++ l.closing ++ post.flatMap text)) := by
  simp [text, rewrite]

/-- The scan reads a text with a rewritten comment or literal as the same lexemes, with that one rewritten. -/
theorem lexemesFrom_rewritten (h : lexemesFrom last s = pre ++ l :: post)
    (hmarks : l.kind.marks? = some marks) (hlines : x.map (· == '\n') = l.interior.map (· == '\n'))
    (hfree : ∀ c ∈ x, c ∉ marks) (hdangles : l.kind = .string → Dangles pre → x.head? ≠ some '\'') :
    lexemesFrom last ((pre ++ l.rewrite x :: post).flatMap text) = pre ++ l.rewrite x :: post := by
  induction pre generalizing last s with
  | nil =>
    obtain ⟨r, rfl, hreads, rfl⟩ := exists_reads_of_lexemesFrom h
    have hfits := hreads.fits
    rw [nil_append, flatMap_cons, flatMap_text_lexemesFrom,
      lexemesFrom_of_reads (hfits.rewrite hmarks hlines hfree).reads, hfits.lexemesFrom_rewrite hmarks]
  | cons p pre ih =>
    obtain ⟨r, rfl, hreads, hrest⟩ := exists_reads_of_lexemesFrom (cons_append ▸ h)
    have hsuffix : Dangles pre → Dangles (p :: pre) := Or.imp (·.trans (suffix_cons ..)) (·.trans (suffix_cons ..))
    have ih := ih hrest fun hkind hpre => hdangles hkind (hsuffix hpre)
    obtain ⟨last', hfits⟩ := exists_fits_of_lexemesFrom hrest
    -- up to the opening mark of `l` both texts are the same
    have htext := flatMap_text_rewrite pre l post
    have hr : r = (pre ++ l.rewrite l.interior :: post).flatMap text := by
      rw [hfits.rewrite_interior, ← hrest, flatMap_text_lexemesFrom]
    have hp : Fits last p r := hreads.fits
    have hp' : Fits last p ((pre ++ l.rewrite x :: post).flatMap text) := by
      rw [hr, htext] at hp
      rw [htext]
      refine hp.of_prefix ?_ fun e m hm => ?_
      · exact (hfits.mark_mem hmarks).imp (mem_append_right _) (mem_append_right _)
      · obtain ⟨hkind, hpre⟩ := hfits.kind_of_character hmarks hm
        refine hfits.head?_string hkind (hdangles hkind ?_)
        rcases hpre with hpre | hpre
        · rw [e, eq_nil_of_flatMap_text hrest hpre]
          exact Or.inl suffix_rfl
        · rw [e, eq_backslash_of_flatMap_text hrest hpre]
          exact Or.inr suffix_rfl
    rw [cons_append, flatMap_cons, lexemesFrom_of_reads hp'.reads, ih]

/-! ### Texts that differ inside one lexeme -/

/-- Where the interior of the lexeme `l` begins that follows the lexemes `pre`. -/
def interiorStart (pre : List Lexeme) (l : Lexeme) : Nat :=
  (pre.flatMap text).length + (l.opening ++ l.lead).length

/-- The place is strictly inside the lexeme `l` that follows the lexemes `pre`. -/
def Inside (pre : List Lexeme) (l : Lexeme) (j : Nat) : Prop :=
  interiorStart pre l ≤ j ∧ j < interiorStart pre l + l.interior.length

/-- Two texts with the same length and the same newlines that differ at most inside a lexeme of the
    first, where the second has no character of `marks`. -/
structure DiffersInside (pre : List Lexeme) (l : Lexeme) (marks t t' : List Char) : Prop where
  length : t'.length = t.length
  outside : ∀ j : Nat, ¬Inside pre l j → t'[j]? = t[j]?
  newlines : ∀ j : Nat, t'[j]? = some '\n' ↔ t[j]? = some '\n'
  free : ∀ j : Nat, Inside pre l j → ∀ c, t'[j]? = some c → c ∉ marks

theorem getElem?_sides (hx : x.length = b.length) {j : Nat}
    (hj : ¬(a.length ≤ j ∧ j < a.length + b.length)) : (a ++ (x ++ z))[j]? = (a ++ (b ++ z))[j]? := by
  by_cases hleft : j < a.length
  · rw [getElem?_append_left hleft, getElem?_append_left hleft]
  · rw [getElem?_append_right (by omega), getElem?_append_right (by omega),
      getElem?_append_right (by omega), getElem?_append_right (by omega), hx]

theorem exists_middle (hlength : t.length = (a ++ (b ++ z)).length)
    (hout : ∀ j : Nat, ¬(a.length ≤ j ∧ j < a.length + b.length) → t[j]? = (a ++ (b ++ z))[j]?) :
    ∃ x, t = a ++ (x ++ z) ∧ x.length = b.length := by
  have hx : ((t.drop a.length).take b.length).length = b.length := by
    simp only [length_append, length_take, length_drop] at hlength ⊢
    omega
  refine ⟨(t.drop a.length).take b.length, ext_getElem? fun j => ?_, hx⟩
  by_cases hin : a.length ≤ j ∧ j < a.length + b.length
  · rw [getElem?_append_right hin.1, getElem?_append_left (by omega), getElem?_take_of_lt (by omega),
      getElem?_drop, Nat.add_sub_cancel' hin.1]
  · rw [hout j hin, getElem?_sides hx hin]

theorem DiffersInside.map_newline (h : DiffersInside pre l marks t t') : t'.map (· == '\n') = t.map (· == '\n') := by
  refine ext_getElem (by simpa using h.length) fun j hj hj' => ?_
  rw [length_map] at hj hj'
  have hnewlines := h.newlines j
  rw [getElem?_eq_getElem hj, getElem?_eq_getElem hj', Option.some.injEq, Option.some.injEq] at hnewlines
  rw [getElem_map, getElem_map, Bool.eq_iff_iff, beq_iff_eq, beq_iff_eq, hnewlines]

section
variable (ht : lexemes t = pre ++ l :: post)
include ht

theorem exists_cut : ∃ a z, a.length = interiorStart pre l ∧ t = a ++ (l.interior ++ z) ∧
      ∀ x, (pre ++ l.rewrite x :: post).flatMap text = a ++ (x ++ z) := by
  obtain ⟨last, hfits⟩ := exists_fits_of_lexemesFrom ht
  refine ⟨_, _, ?_, ?_, flatMap_text_rewrite pre l post⟩
  · rw [length_append, interiorStart]
  · rw [← flatMap_text_rewrite, hfits.rewrite_interior, ← ht, lexemes, flatMap_text_lexemesFrom]

theorem differsInside_iff : DiffersInside pre l marks t t' ↔ ∃ x, t' = (pre ++ l.rewrite x :: post).flatMap text ∧
      x.map (· == '\n') = l.interior.map (· == '\n') ∧ ∀ c ∈ x, c ∉ marks := by
  obtain ⟨a, z, hstart, rfl, htext⟩ := exists_cut ht
  constructor
  · intro h
    obtain ⟨x, rfl, hx⟩ : ∃ x, t' = a ++ (x ++ z) ∧ x.length = l.interior.length :=
      exists_middle h.length fun j hj => h.outside j (by rwa [Inside, ← hstart])
    refine ⟨x, (htext x).symm, by simpa using h.map_newline, fun c hc => ?_⟩
    obtain ⟨k, hk, rfl⟩ := mem_iff_getElem.mp hc
    refine h.free (a.length + k) (by rw [Inside, ← hstart]; omega) _ ?_
    rw [getElem?_append_right (by omega), getElem?_append_left (by omega), Nat.add_sub_cancel_left,
      getElem?_eq_getElem hk]
  · rintro ⟨x, rfl, hlines, hfree⟩
    have hx : x.length = l.interior.length := by simpa using congrArg List.length hlines
    rw [htext]
    refine ⟨by simp [hx], fun j hj => ?_, fun j => ?_, fun j hj c hc => ?_⟩
    · rw [Inside, ← hstart] at hj
      exact getElem?_sides hx hj
    · have hmap : (a ++ (x ++ z)).map (· == '\n') = (a ++ (l.interior ++ z)).map (· == '\n') := by simp [hlines]
      have hnewline : ∀ w : List Char, w[j]? = some '\n' ↔ (w.map (· == '\n'))[j]? = some true := by simp
      rw [hnewline, hnewline, hmap]
    · rw [Inside, ← hstart] at hj
      rw [getElem?_append_right hj.1, getElem?_append_left (by omega)] at hc
      exact hfree c (mem_of_getElem? hc)

theorem getElem?_interiorStart {c : Char}
    (hx : x.head? = some c) : ((pre ++ l.rewrite x :: post).flatMap text)[interiorStart pre l]? = some c := by
  obtain ⟨a, z, hstart, -, htext⟩ := exists_cut ht
  obtain ⟨v, rfl⟩ := head?_eq_some_iff.mp hx
  rw [htext, ← hstart, getElem?_append_right (Nat.le_refl _), Nat.sub_self]
  rfl

end

/-- Comments and string literals cannot influence masking: a text that differs from another only
    strictly inside a comment or literal, and has no mark there that could end it, is masked alike. An
    apostrophe that would become a character literal with the quotation mark behind it is the only
    exception. -/
theorem maskText_interior_irrelevant {t t' : String} {pre post : List Lexeme} {l : Lexeme} {marks : List Char}
    (hlexemes : lexemes t.toList = pre ++ l :: post) (hmarks : l.kind.marks? = some marks)
    (hinside : DiffersInside pre l marks t.toList t'.toList)
    (hdangles : l.kind = .string → Dangles pre → t'.toList[interiorStart pre l]? ≠ some '\'') :
    maskText t' = maskText t := by
  obtain ⟨x, ht', hlines, hfree⟩ := (differsInside_iff hlexemes).mp hinside
  obtain ⟨last, hfits⟩ := exists_fits_of_lexemesFrom hlexemes
  have hlexemes' : lexemes t'.toList = pre ++ l.rewrite x :: post := by
    rw [ht'] at hdangles ⊢
    refine lexemesFrom_rewritten hlexemes hmarks hlines hfree fun hkind hpre hx => ?_
    exact hdangles hkind hpre (getElem?_interiorStart hlexemes hx)
  rw [maskText, maskText, mask, mask, hlexemes', hlexemes, List.flatMap_append, List.flatMap_append, List.flatMap_cons,
    List.flatMap_cons, hfits.masked_rewrite hlines]

def quoted (body : String) : Lexeme := ⟨.string, ['"'], body.toList, ['"']⟩

theorem lexemes_dangling : lexemes "'\"/*\\\"\n\" //".toList = [apostrophe] ++ quoted "/*\\\"\n" ::
    [⟨.code, [' '], [], []⟩, ⟨.lineComment, [], ['/', '/'], []⟩] := by
  decide +kernel

/-- The string has marks of a comment and an escaped quotation mark in one text, apostrophes in the other. -/
theorem maskText_interior_irrelevant_dangling :
    lexemes "'\"/*\\\"\n\" //".toList = [apostrophe] ++ quoted "/*\\\"\n" ::
      [⟨.code, [' '], [], []⟩, ⟨.lineComment, [], ['/', '/'], []⟩] ∧
    DiffersInside [apostrophe] (quoted "/*\\\"\n") ['"', '\\'] "'\"/*\\\"\n\" //".toList "'\" 'a'\n\" //".toList ∧
      Dangles [apostrophe] ∧ maskText "'\" 'a'\n\" //" = maskText "'\"/*\\\"\n\" //" := by
  have hinside : DiffersInside [apostrophe] (quoted "/*\\\"\n") ['"', '\\'] "'\"/*\\\"\n\" //".toList
      "'\" 'a'\n\" //".toList :=
    (differsInside_iff lexemes_dangling).mpr
      ⟨[' ', '\'', 'a', '\'', '\n'], by decide +kernel, by decide +kernel, by simp⟩
  exact ⟨lexemes_dangling, hinside, Or.inl List.suffix_rfl,
    maskText_interior_irrelevant lexemes_dangling rfl hinside fun _ _ => by decide⟩

theorem lexemes_quoted : lexemes "'\"x\"".toList = [apostrophe] ++ quoted "x" :: [] := by
  decide +kernel

/-- The exception is needed: an apostrophe inside the string takes the quotation mark before it into a
    character literal. -/
theorem interior_relevant_after_apostrophe :
    lexemes "'\"x\"".toList = [apostrophe] ++ quoted "x" :: [] ∧ (quoted "x").kind.marks? = some ['"', '\\'] ∧
      DiffersInside [apostrophe] (quoted "x") ['"', '\\'] "'\"x\"".toList "'\"'\"".toList ∧
      maskText "'\"'\"" ≠ maskText "'\"x\"" :=
  ⟨lexemes_quoted, rfl,
    (differsInside_iff lexemes_quoted).mpr ⟨['\''], by decide +kernel, by decide +kernel, by simp⟩,
    by decide +kernel⟩

end ContractAudit.Source

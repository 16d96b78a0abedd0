import Mathlib.Data.List.Forall2
import ContractAudit.Source.Lexeme

/-! # What the scan reads

A relation says what the scan can read at the start of a text, one case for each kind of lexeme, so that
nothing else has to look into the scan. -/

namespace ContractAudit.Source
open Text List Lexeme

variable {last : Option Char} {c : Char} {s r : List Char} {l : Lexeme}

theorem blockCommentRest_prefix (depth : Nat) (s : List Char) : blockCommentRest depth s <+: s := by
  fun_induction blockCommentRest depth s with
  | case1 => exact prefix_rfl
  | case2 => exact prefix_rfl
  | case3 _ s ih => exact cons_prefix_cons.mpr ⟨rfl, cons_prefix_cons.mpr ⟨rfl, ih⟩⟩
  | case4 _ s _ => exact ⟨s, rfl⟩
  | case5 _ s _ ih => exact cons_prefix_cons.mpr ⟨rfl, cons_prefix_cons.mpr ⟨rfl, ih⟩⟩
  | case6 _ _ _ _ _ _ ih => exact cons_prefix_cons.mpr ⟨rfl, ih⟩

theorem stringBody_append (s : List Char) : ∃ r, s = stringBody s ++ r ∧ (r = [] ∨ ['"'] <+: r) := by
  fun_induction stringBody s with
  | case1 => exact ⟨[], rfl, Or.inl rfl⟩
  | case2 => exact ⟨[], rfl, Or.inl rfl⟩
  | case3 c s ih =>
    obtain ⟨r, hs, hr⟩ := ih
    exact ⟨r, by rw [cons_append, cons_append, ← hs], hr⟩
  | case4 c s _ _ hc =>
    rw [beq_iff_eq.mp hc]
    exact ⟨'"' :: s, rfl, Or.inr (prefix_append ..)⟩
  | case5 c s _ _ _ ih =>
    obtain ⟨r, hs, hr⟩ := ih
    exact ⟨r, by rw [cons_append, ← hs], hr⟩

theorem before_append (stop s : List Char) : ∃ r, s = before stop s ++ r ∧ (r = [] ∨ stop <+: r) := by
  induction s with
  | nil => exact ⟨[], rfl, Or.inl rfl⟩
  | cons c s ih =>
    rw [before]
    split
    · next h => exact ⟨c :: s, rfl, Or.inr <| isPrefixOf_iff_prefix.mp h⟩
    · obtain ⟨r, hs, hr⟩ := ih
      exact ⟨r, by rw [cons_append, ← hs], hr⟩

/-- What closes a raw string that opens with a number of hash marks. -/
def rawStop (hashes : Nat) : List Char := '"' :: replicate hashes '#'

/-- A raw string opens with `r` or `br`, hash marks and a quotation mark. -/
def IsRawOpening (opening : List Char) (hashes : Nat) : Prop :=
  opening = 'r' :: replicate hashes '#' ++ ['"'] ∨ opening = 'b' :: 'r' :: replicate hashes '#' ++ ['"']

theorem takeWhile_hash (s : List Char) :
    s.takeWhile (· == '#') = replicate (s.takeWhile (· == '#')).length '#' := by
  rw [eq_replicate_iff]
  exact ⟨rfl, fun c hc => beq_iff_eq.mp (all_eq_true.mp all_takeWhile c hc)⟩

theorem takeWhile_hash_prefix {t : List Char} (h : s.drop (s.takeWhile (· == '#')).length = '"' :: t) :
    s.takeWhile (· == '#') ++ ['"'] <+: s := by
  refine ⟨t, ?_⟩
  have hwhole := prefix_iff_eq_append.mp <| takeWhile_prefix (l := s) (· == '#')
  rw [append_assoc, singleton_append, ← h, hwhole]

theorem rawOpening?_eq_some {opening : List Char} {hashes : Nat} :
    rawOpening? s = some (opening, hashes) ↔ IsRawOpening opening hashes ∧ opening <+: s := by
  constructor
  · intro h
    unfold rawOpening? at h
    split at h
    next lead r hlead =>
    dsimp only at h
    split at h
    · next t ht =>
      simp only [Option.some.injEq, Prod.mk.injEq] at h
      obtain ⟨rfl, rfl⟩ := h
      have hr := takeWhile_hash_prefix ht
      split at hlead
      · cases hlead
        refine ⟨Or.inr ?_, ?_⟩
        · rw [← takeWhile_hash]
          rfl
        · rw [append_assoc]
          exact (prefix_append_right_inj ['b', 'r']).mpr hr
      · cases hlead
        refine ⟨Or.inl ?_, ?_⟩
        · rw [← takeWhile_hash]
          rfl
        · rw [append_assoc]
          exact (prefix_append_right_inj ['r']).mpr hr
      · cases hlead
        cases ht
    · cases h
  · rintro ⟨rfl | rfl, t, rfl⟩
    · simp [rawOpening?]
    · simp [rawOpening?]

/-- What can stand between the quotes of a character literal. -/
inductive CharacterBody : List Char → Prop where
  | plain {c : Char} (h : c ≠ '\\' ∧ c ≠ '\'' ∧ c ≠ '\n') : CharacterBody [c]
  | escaped {c : Char} (h : c ≠ '\n') : CharacterBody ['\\', c]
  | hex {a b : Char} (ha : isHexDigit a = true) (hb : isHexDigit b = true) : CharacterBody ['\\', 'x', a, b]
  | unicode {digits : List Char} (h : ∀ c ∈ digits, isHexDigit c = true)
      (hlength : 1 ≤ digits.length ∧ digits.length ≤ 6) :
    CharacterBody ('\\' :: 'u' :: '{' :: digits ++ ['}'])

theorem escapeBody?_eq_some {b : List Char} (h : escapeBody? s = some b) :
    CharacterBody ('\\' :: b) ∧ b ++ ['\''] <+: s := by
  unfold escapeBody? at h
  split at h
  · next a b t =>
    split at h
    · next hdigits =>
      obtain ⟨ha, hb⟩ := Bool.and_eq_true_iff.mp hdigits
      cases h
      exact ⟨.hex ha hb, t, rfl⟩
    · cases h
  · next r =>
    simp only [Option.ite_none_right_eq_some, Bool.and_eq_true, decide_eq_true_eq] at h
    obtain ⟨⟨hlength, hend⟩, h⟩ := h
    cases h
    refine ⟨.unicode (fun c hc => all_eq_true.mp all_takeWhile c hc) hlength, ?_⟩
    obtain ⟨t, ht⟩ := isPrefixOf_iff_prefix.mp hend
    refine ⟨t, ?_⟩
    have hr := prefix_iff_eq_append.mp <| takeWhile_prefix (l := r) isHexDigit
    rw [← ht] at hr
    simpa using hr
  · cases h

theorem characterBody?_eq_some {b : List Char} : characterBody? s = some b ↔ CharacterBody b ∧ b ++ ['\''] <+: s := by
  constructor
  · intro h
    unfold characterBody? at h
    split at h
    · next t =>
      split at h
      · next e he =>
        cases h
        obtain ⟨hbody, hprefix⟩ := escapeBody?_eq_some he
        exact ⟨hbody, cons_prefix_cons.mpr ⟨rfl, hprefix⟩⟩
      · split at h
        · next c t _ =>
          split at h
          · cases h
          · next hc =>
            cases h
            exact ⟨.escaped (by simpa using hc), t, rfl⟩
        · cases h
    · next c t hslash =>
      split at h
      · cases h
      · next hc =>
        cases h
        simp only [Bool.or_eq_true, beq_iff_eq, not_or] at hc
        exact ⟨.plain ⟨hslash, hc⟩, t, rfl⟩
    · cases h
  · rintro ⟨hbody, t, rfl⟩
    cases hbody with
    | plain h => simp [characterBody?, h]
    | @escaped c h =>
      have hnone : escapeBody? (c :: '\'' :: t) = none := by
        unfold escapeBody?
        split
        · next heq =>
          simp only [List.cons.injEq] at heq
          simp [← heq.2.1, isHexDigit]
        · next heq => simp at heq
        · rfl
      simp [characterBody?, hnone, h]
    | hex ha hb => simp [characterBody?, escapeBody?, ha, hb]
    | @unicode digits h hlength =>
      have hdigits : (digits ++ '}' :: '\'' :: t).takeWhile isHexDigit = digits := by
        rw [takeWhile_append_of_pos h]
        simp [isHexDigit]
      simp [characterBody?, escapeBody?, hdigits, hlength]

/-- The lexeme can be read at the start of the text, after the character `last`. -/
inductive Reads (last : Option Char) : List Char → Lexeme → Prop where
  | lineComment (s : List Char) :
    Reads last ('/' :: '/' :: s) ⟨.lineComment, [], '/' :: '/' :: s.takeWhile (· != '\n'), []⟩
  | blockComment (s : List Char) :
    Reads last ('/' :: '*' :: s) ⟨.blockComment, [], '/' :: '*' :: blockCommentRest 1 s, []⟩
  | rawString {opening : List Char} {hashes : Nat} (s : List Char) (hlast : rawAllowed last = true)
      (hopening : IsRawOpening opening hashes) :
    Reads last (opening ++ s) ⟨.rawString, opening, before (rawStop hashes) s,
      (s.drop (before (rawStop hashes) s).length).take (rawStop hashes).length⟩
  | string (s : List Char) :
    Reads last ('"' :: s) ⟨.string, ['"'], stringBody s, (s.drop (stringBody s).length).take 1⟩
  | character {b : List Char} (s : List Char) (hbody : CharacterBody b) :
    Reads last ('\'' :: b ++ '\'' :: s) ⟨.character, ['\''], b, ['\'']⟩
  | code {c : Char} {s : List Char} (hline : ¬(c = '/' ∧ s.head? = some '/')) (hblock : ¬(c = '/' ∧ s.head? = some '*'))
      (hraw : rawAllowed last = true → rawOpening? (c :: s) = none) (hquote : c ≠ '"')
      (hcharacter : c = '\'' → characterBody? s = none) :
    Reads last (c :: s) ⟨.code, [c], [], []⟩

theorem reads_lexeme (last : Option Char) (c : Char) (s : List Char) : Reads last (c :: s) (lexeme last c s) := by
  unfold lexeme
  split
  · next h =>
    simp only [Bool.and_eq_true, beq_iff_eq] at h
    obtain ⟨rfl, hs⟩ := h
    obtain ⟨s, rfl⟩ := head?_eq_some_iff.mp hs
    exact .lineComment s
  split
  · next h =>
    simp only [Bool.and_eq_true, beq_iff_eq] at h
    obtain ⟨rfl, hs⟩ := h
    obtain ⟨s, rfl⟩ := head?_eq_some_iff.mp hs
    exact .blockComment s
  next hline hblock =>
  split
  · next l hl =>
    unfold rawString? at hl
    split at hl
    · next hlast =>
      obtain ⟨⟨opening, hashes⟩, hopening, rfl⟩ := Option.map_eq_some_iff.mp hl
      obtain ⟨hopening, t, ht⟩ := rawOpening?_eq_some.mp hopening
      rw [← ht]
      simpa [rawStop] using Reads.rawString t hlast hopening
    · cases hl
  next hraw =>
  split
  · next hc =>
    rw [beq_iff_eq.mp hc]
    exact .string s
  next hquote =>
  have code : (c = '\'' → characterBody? s = none) → Reads last (c :: s) ⟨.code, [c], [], []⟩ := by
    refine .code (by simpa using hline) (by simpa using hblock) (fun hlast => ?_) (by simpa using hquote)
    simpa [rawString?, hlast] using hraw
  split
  · next hc =>
    rw [beq_iff_eq.mp hc] at code ⊢
    split
    · next b hb =>
      obtain ⟨hbody, t, ht⟩ := characterBody?_eq_some.mp hb
      rw [← ht]
      simpa using Reads.character t hbody
    · next hb => exact code fun _ => hb
  · next hc => exact code fun e => absurd (beq_iff_eq.mpr e) hc

theorem Reads.eq_lexeme (h : Reads last (c :: s) l) : lexeme last c s = l := by
  generalize ht : c :: s = t at h
  cases h with
  | lineComment s =>
    cases ht
    simp [lexeme]
  | blockComment s =>
    cases ht
    simp [lexeme]
  | rawString s hlast hopening =>
    have hraw := rawOpening?_eq_some.mpr ⟨hopening, s, rfl⟩
    have hc : c = 'r' ∨ c = 'b' := by
      rcases hopening with rfl | rfl
      · exact Or.inl (List.cons.inj ht).1
      · exact Or.inr (List.cons.inj ht).1
    have hslash : c ≠ '/' := by rintro rfl; simp at hc
    simp [lexeme, rawString?, hlast, hraw, hslash, ht, rawStop]
  | string s =>
    cases ht
    have hraw : rawOpening? ('"' :: s) = none := by simp [rawOpening?]
    simp [lexeme, rawString?, hraw]
  | @character b s hbody =>
    cases ht
    have hraw : rawOpening? ('\'' :: (b ++ '\'' :: s)) = none := by simp [rawOpening?]
    have hb : characterBody? (b ++ '\'' :: s) = some b := characterBody?_eq_some.mpr ⟨hbody, s, by simp⟩
    simp [lexeme, rawString?, hraw, hb]
  | code hline hblock hraw hquote hcharacter =>
    cases ht
    have hraw : rawString? last (c :: s) = none := by
      unfold rawString?
      split
      · next hlast => rw [hraw hlast, Option.map_none]
      · rfl
    by_cases hc : c = '\''
    · subst hc
      simp [lexeme, hraw, hcharacter rfl]
    · simp [lexeme, hline, hblock, hraw, hquote, hc]

theorem Reads.text_ne_nil (h : Reads last s l) : l.text ≠ [] := by
  cases h with
  | rawString s _ hopening => rcases hopening with rfl | rfl <;> simp [text]
  | _ => simp [text]

theorem append_take_prefix {b : List Char} (h : b <+: s) (n : Nat) : b ++ (s.drop b.length).take n <+: s := by
  obtain ⟨r, rfl⟩ := h
  rw [drop_left, prefix_append_right_inj]
  exact take_prefix n r

theorem Reads.text_prefix (h : Reads last s l) : l.text <+: s := by
  cases h with
  | lineComment s => simpa [text] using takeWhile_prefix _
  | blockComment s => simpa [text] using blockCommentRest_prefix 1 s
  | @rawString _ hashes s =>
    obtain ⟨r, hs, -⟩ := before_append (rawStop hashes) s
    simpa [text] using append_take_prefix ⟨r, hs.symm⟩ (rawStop hashes).length
  | string s =>
    obtain ⟨r, hs, -⟩ := stringBody_append s
    simpa [text] using append_take_prefix ⟨r, hs.symm⟩ 1
  | character s => simp [text]
  | code => simp [text]

theorem lexemesFrom_of_reads (h : Reads last (l.text ++ r) l) :
    lexemesFrom last (l.text ++ r) = l :: lexemesFrom (l.text.getLast?.or last) r := by
  cases ht : l.text with
  | nil => exact absurd ht h.text_ne_nil
  | cons c w =>
    rw [ht, cons_append] at h
    rw [cons_append, lexemesFrom]
    simp [h.eq_lexeme, ht]

theorem exists_reads_of_lexemesFrom {ls : List Lexeme} (h : lexemesFrom last s = l :: ls) :
    ∃ r, s = l.text ++ r ∧ Reads last s l ∧ lexemesFrom (l.text.getLast?.or last) r = ls := by
  cases s with
  | nil => simp [lexemesFrom] at h
  | cons c s =>
    have hreads := reads_lexeme last c s
    obtain ⟨r, hr⟩ := hreads.text_prefix
    rw [← hr] at hreads h ⊢
    rw [lexemesFrom_of_reads hreads, List.cons.injEq] at h
    obtain ⟨rfl, rfl⟩ := h
    exact ⟨r, rfl, hreads, rfl⟩

theorem flatMap_text_lexemesFrom (last : Option Char) (s : List Char) : (lexemesFrom last s).flatMap text = s := by
  generalize hls : lexemesFrom last s = ls
  induction ls generalizing last s with
  | nil =>
    cases s with
    | nil => rfl
    | cons c s => simp [lexemesFrom] at hls
  | cons l ls ih =>
    obtain ⟨r, rfl, -, hr⟩ := exists_reads_of_lexemesFrom hls
    rw [flatMap_cons, ih _ _ hr]

/-- The second text is the first one with blanks in place of some characters, none of them a newline. -/
def BlanksOut (s m : List Char) : Prop := Forall₂ (fun c d => d = c ∨ d = ' ' ∧ c ≠ '\n') s m

namespace BlanksOut
variable {m : List Char}

theorem refl (s : List Char) : BlanksOut s s := forall₂_same.mpr fun _ _ => .inl rfl

theorem append {s' m' : List Char} (h : BlanksOut s m) (h' : BlanksOut s' m') : BlanksOut (s ++ s') (m ++ m') :=
  rel_append h h'

theorem blankOut (s : List Char) : BlanksOut s (s.map blankOut) := by
  refine forall₂_map_right_iff.mpr (forall₂_same.mpr fun c _ => ?_)
  unfold Source.blankOut
  split
  · exact .inl rfl
  · next hc => exact .inr ⟨rfl, by simpa using hc⟩

theorem length_eq (h : BlanksOut s m) : m.length = s.length := (Forall₂.length_eq h).symm

theorem newline_iff {c d : Char} (h : d = c ∨ d = ' ' ∧ c ≠ '\n') : d = '\n' ↔ c = '\n' := by
  rcases h with rfl | ⟨rfl, hc⟩
  · exact Iff.rfl
  · simp [hc]

theorem map_newline (h : BlanksOut s m) : m.map (· == '\n') = s.map (· == '\n') := by
  induction h with
  | nil => rfl
  | @cons c d _ _ hc _ ih =>
    have hhead : (d == '\n') = (c == '\n') := Bool.eq_iff_iff.mpr (by simpa using newline_iff hc)
    rw [map_cons, map_cons, ih, hhead]

theorem count_newline (h : BlanksOut s m) : m.count '\n' = s.count '\n' := by
  have hcount := congrArg (countP id) h.map_newline
  rw [countP_map, countP_map] at hcount
  exact hcount

end BlanksOut

theorem Lexeme.blanksOut_masked (l : Lexeme) : BlanksOut l.text l.masked :=
  ((BlanksOut.refl _).append (.blankOut _)).append (.refl _)

theorem blanksOut_mask (s : List Char) : BlanksOut s (mask s) := by
  have hall : ∀ ls : List Lexeme, BlanksOut (ls.flatMap Lexeme.text) (ls.flatMap Lexeme.masked) := by
    intro ls
    induction ls with
    | nil => exact .nil
    | cons l ls ih =>
      rw [flatMap_cons, flatMap_cons]
      exact l.blanksOut_masked.append ih
  have h := hall (lexemes s)
  rwa [lexemes, flatMap_text_lexemesFrom] at h

end ContractAudit.Source

import ContractAudit.Proofs.Checked
import ContractAudit.Proofs.PanicReading
import ContractAudit.Proofs.WordPlaces

/-! # How exits of programs are classified

An exit is classified unless it tells of a number with too many digits. -/

namespace ContractAudit.Text
open Pattern List Panic Decimal

/-! ### Letters in any case -/

theorem isWordChar_of_smallLetter {c : Char} (h : isWordChar (smallLetter c) = true)
    (hlow : (smallLetter c).toNat ≤ 0x17f) : isWordChar c = true := by
  have hascii : ∀ n < 128, isWordChar (Char.ofNat n).toLower = true → isWordChar (Char.ofNat n) = true := by
    decide +kernel
  have hruns : (lowerRuns.all fun r => decide (0x17f < r.first + r.shift) ||
      alphanumericRanges.any fun a => decide (a.1 ≤ r.first ∧ r.last ≤ a.2)) = true := by decide +kernel
  rcases smallLetter_cases c with ⟨hc, hlower⟩ | ⟨hc, ⟨hdot, -⟩ | hsame | ⟨r, hr, hfirst, hlast, hpartner⟩⟩
  · rw [hlower, ← Char.ofNat_toNat c] at h
    rw [← Char.ofNat_toNat c]
    exact hascii _ hc h
  · rw [← Char.ofNat_toNat c, hdot]
    decide +kernel
  · exact hsame ▸ h
  · rw [hpartner] at h hlow
    have hr := all_eq_true.mp hruns r hr
    rw [Bool.or_eq_true, decide_eq_true_eq] at hr
    rcases hr with hr | hr
    · rcases toNat_ofNat_cases (c.toNat + r.shift).toNat with heq | heq
      · omega
      · rw [heq] at h
        exact absurd h (by decide)
    · obtain ⟨a, ha, hwithin⟩ := any_eq_true.mp hr
      rw [decide_eq_true_eq] at hwithin
      have halpha : inRanges alphanumericRanges c = true := inRanges_iff.mpr ⟨a, ha, by omega, by omega⟩
      rw [isWordChar, isAlphanumeric, if_neg (Nat.not_lt.mpr hc), halpha, Bool.or_true]

theorem isWordChar_of_sameLetter {p c : Char} (hp : p.toNat < 128) (hsmall : smallLetter p = p)
    (hword : isWordChar p = true) (h : sameLetter p c = true) : isWordChar c = true := by
  have hshared : (sharedCapitals.all fun l => (l.all fun n => decide (128 ≤ n)) ||
      l.all fun n => isWordChar (Char.ofNat n) && decide (n ≤ 0x17f)) = true := by decide +kernel
  rw [sameLetter, hsmall, Bool.or_eq_true] at h
  rcases h with h | h
  · obtain rfl := eq_of_beq h
    exact isWordChar_of_smallLetter hword (by omega)
  · obtain ⟨l, hl, hletters⟩ := any_eq_true.mp h
    rw [Bool.and_eq_true, contains_iff_mem, contains_iff_mem] at hletters
    rcases Bool.or_eq_true _ _ ▸ all_eq_true.mp hshared l hl with hall | hall
    · exact absurd (of_decide_eq_true (all_eq_true.mp hall _ hletters.1)) (by omega)
    · have hc := all_eq_true.mp hall _ hletters.2
      rw [Char.ofNat_toNat, Bool.and_eq_true, decide_eq_true_eq] at hc
      exact isWordChar_of_smallLetter hc.1 hc.2

theorem isDecimalDigit_of_isBlank {c : Char} (h : isBlank c = true) : isDecimalDigit c = false := by
  have hapart : (blankRanges.all fun b => digitZeros.all fun z => decide (z + 9 < b.1) || decide (b.2 < z)) = true := by
    decide +kernel
  obtain ⟨b, hb, hlow, hhigh⟩ := inRanges_iff.mp h
  have hzero : ∀ z ∈ digitZeros, ¬ (z ≤ c.toNat ∧ c.toNat ≤ z + 9) := by
    intro z hz
    have hbz := all_eq_true.mp (all_eq_true.mp hapart b hb) z hz
    simp only [Bool.or_eq_true, decide_eq_true_eq] at hbz
    omega
  have hdigit : c.isDigit = false := by
    refine Bool.eq_false_iff.mpr fun hdigit => hzero 0x30 (.head _) ?_
    simpa [Char.isDigit, UInt32.le_iff_toNat_le] using hdigit
  have hnone : (digitZeros.find? fun z => decide (z ≤ c.toNat) && decide (c.toNat ≤ z + 9)) = none :=
    find?_eq_none.mpr fun z hz => by simpa using hzero z hz
  rw [isDecimalDigit, digitValue?, hdigit, if_neg Bool.false_ne_true, hnone]
  rfl

/-! ### A word in any case -/

/-- A text is spelled like another, whatever the case. -/
def SpelledLike (p w : List Char) : Prop := Forall₂ (fun a b => sameLetter a b = true) p w

def HasWordLike (p t : List Char) : Prop := ∃ w i, SpelledLike p w ∧ WordAt w t i

def IsSmallWord (p : List Char) : Prop :=
  p ≠ [] ∧ ∀ c ∈ p, c.toNat < 128 ∧ smallLetter c = c ∧ isWordChar c = true

variable {p w t u v : List Char} {m : Captures}

theorem SpelledLike.isWord (h : SpelledLike p w) (hp : IsSmallWord p) : IsWord w := by
  obtain ⟨hne, hletters⟩ := hp
  refine ⟨fun hw => hne ?_, ?_⟩
  · subst hw
    cases h
    rfl
  · clear hne
    induction h with
    | nil => rfl
    | cons hac _ ih =>
      obtain ⟨hlt, hsmall, hword⟩ := hletters _ (.head _)
      rw [all_cons, isWordChar_of_sameLetter hlt hsmall hword hac, ih fun c hc => hletters c (.tail _ hc)]
      rfl

namespace Pattern

def lettersOf (p : List Char) : Pattern := p.foldr (fun c q => one (sameLetter c) ++ q) empty

theorem path_lettersOf {d : Cursor} {n : Captures} (h : (lettersOf p).Path (.after u t) m d n) :
    ∃ w v, SpelledLike p w ∧ t = w ++ v ∧ d = .after (u ++ w) v := by
  induction p generalizing u t m with
  | nil => exact ⟨[], t, .nil, rfl, by rw [append_nil]; exact h.1⟩
  | cons c p ih =>
    obtain ⟨e, l, hc, hrest⟩ := h
    obtain ⟨a, r, rfl, ha, rfl⟩ := path_one hc
    obtain ⟨w, v, hw, rfl, rfl⟩ := ih hrest
    exact ⟨a :: w, v, .cons ha hw, rfl, by rw [append_assoc]; rfl⟩

theorem takes_lettersOf (h : SpelledLike p w) : (lettersOf p).Takes u w v m m := by
  induction h generalizing u with
  | nil => exact takes_empty
  | cons ha _ ih => exact (takes_one ha).seq ih

/-- A word in any case is looked for between its edges. -/
theorem occursIn_lettersOf (hp : IsSmallWord p) :
    (wordEdge ++ lettersOf p ++ wordEdge).occursIn t = true ↔ HasWordLike p t := by
  constructor
  · intro h
    refine Classical.byContradiction fun hno => ?_
    have hfails : ∀ u v, t = u ++ v → (wordEdge ++ lettersOf p ++ wordEdge).Fails u v := by
      rintro u v rfl m d n ⟨_, _, ⟨_, _, ⟨hedge, rfl, -⟩, hletters⟩, ⟨hedge', -, -⟩⟩
      obtain ⟨w, v, hw, rfl, rfl⟩ := path_lettersOf hletters
      have hword := hw.isWord hp
      simp only [Cursor.after, any_head?_of_isWord hword, bne_iff_ne, ne_eq, Bool.not_eq_true] at hedge
      simp only [Cursor.after, any_getLast?_of_isWord hword, Bool.true_bne, Bool.not_eq_true'] at hedge'
      exact hno ⟨w, u.length, hw, u, v, by simp, rfl, hedge, hedge'⟩
    rw [occursIn, search_eq_none hfails] at h
    cases h
  · rintro ⟨w, i, hw, u, v, rfl, -, hu, hv⟩
    have hword := hw.isWord hp
    have hedge : wordEdge.Takes (u ++ ([] ++ w)) [] v [] [] := takes_here (by
      rw [nil_append, any_getLast?_of_isWord hword, hv]
      rfl)
    have htakes := ((takes_wordEdge hu (any_head?_of_isWord hword v)).seq (takes_lettersOf hw)).seq hedge
    rw [append_assoc]
    refine isSome_search ?_
    have hmatch := htakes.matchAt
    rw [nil_append, append_nil] at hmatch
    rw [hmatch]
    rfl

end Pattern

/-! ### Lines of output -/

theorem isBlank_of_isLineBreak {c : Char} (h : isLineBreak c = true) : isBlank c = true := by
  have hbreaks : ∀ n ∈ [0xa, 0xb, 0xc, 0xd, 0x1c, 0x1d, 0x1e, 0x85, 0x2028, 0x2029],
      ∃ r ∈ blankRanges, r.1 ≤ n ∧ n ≤ r.2 := by decide
  exact inRanges_iff.mpr (hbreaks _ (contains_iff_mem.mp h))

theorem WordAt.exists_line {i : Nat} (hw : IsWord w) (h : WordAt w (u.reverse ++ t) i) :
    ∃ l ∈ linesFrom u t, ∃ j, WordAt w l j := by
  have hcut {c : Char} (hc : isLineBreak c = true) : isWordChar c = false :=
    isWordChar_of_isBlank (isBlank_of_isLineBreak hc)
  fun_induction linesFrom u t generalizing i with
  | case1 u hu =>
    obtain rfl := List.isEmpty_iff.mp hu
    exact absurd h (lacks_nil hw i)
  | case2 u =>
    rw [append_nil] at h
    exact ⟨u.reverse, .head _, i, h⟩
  | case3 u t ih =>
    rcases h.cut hw (by decide) with h | ⟨j, -, hj⟩
    · exact ⟨u.reverse, .head _, i, h⟩
    · obtain ⟨k, -, hk⟩ := WordAt.skip (a := ['\n']) hw (forall_mem_singleton.mpr (by decide)) hj
      obtain ⟨l, hl, hword⟩ := ih hk
      exact ⟨l, .tail _ hl, hword⟩
  | case4 u c t _ hc ih =>
    rcases h.cut hw (hcut hc) with h | ⟨j, -, hj⟩
    · exact ⟨u.reverse, .head _, i, h⟩
    · obtain ⟨l, hl, hword⟩ := ih hj
      exact ⟨l, .tail _ hl, hword⟩
  | case5 u c t _ hc ih => exact ih (by rwa [reverse_cons, append_assoc, singleton_append])

theorem WordAt.trimmed {i : Nat} (hw : IsWord w) (h : WordAt w t i) : ∃ j, WordAt w (trim t) j := by
  have hblank {s : List Char} (hs : s.all isBlank = true) : ∀ c ∈ s, isWordChar c = false :=
    fun c hc => isWordChar_of_isBlank (all_eq_true.mp hs c hc)
  rw [← takeWhile_append_dropWhile (p := isBlank) (l := t)] at h
  obtain ⟨j, -, hj⟩ := h.skip hw (hblank all_takeWhile)
  have hend : trimStart t = trim t ++ ((trimStart t).reverse.takeWhile isBlank).reverse := by
    rw [trim, trimEnd, ← reverse_append, takeWhile_append_dropWhile, reverse_reverse]
  rw [← trimStart, hend] at hj
  exact ⟨j, hj.leave hw (hblank (by rw [all_reverse]; exact all_takeWhile))⟩

end ContractAudit.Text

namespace ContractAudit.ProgramExit
open Text Text.Pattern List Panic Decimal

variable {e : ProgramExit} {u v t : List Char} {line : List Char} {lines : List (List Char)}

/-! ### The word for an invariant -/

def TellsInvariant (e : ProgramExit) : Prop := HasWordLike "invariant".toList e.output

theorem isSmallWord_invariant : IsSmallWord "invariant".toList := by
  have hall : ("invariant".toList.all fun c =>
      decide (c.toNat < 128 ∧ smallLetter c = c ∧ isWordChar c = true)) = true := by decide
  exact ⟨by decide, fun c hc => of_decide_eq_true (all_eq_true.mp hall c hc)⟩

theorem occursIn_invariantWord {t : List Char} : invariantWord.occursIn t = true ↔ HasWordLike "invariant".toList t :=
  occursIn_lettersOf isSmallWord_invariant

/-- If the output has the word, a trimmed line of it has it. -/
theorem isSome_invariantLine? : e.invariantLine?.isSome = true ↔ e.TellsInvariant := by
  rw [invariantLine?, TellsInvariant, ← occursIn_invariantWord]
  split
  · next h =>
    refine ⟨fun _ => h, fun _ => ?_⟩
    obtain ⟨w, i, hw, hword⟩ := occursIn_invariantWord.mp h
    have hwordlike := hw.isWord isSmallWord_invariant
    obtain ⟨l, hl, j, hj⟩ := WordAt.exists_line (u := []) hwordlike hword
    obtain ⟨k, hk⟩ := hj.trimmed hwordlike
    have hne : (!(trim l).isEmpty) = true := by
      cases htrim : trim l with
      | nil => exact absurd (htrim ▸ hk) (lacks_nil hwordlike k)
      | cons c r => rfl
    refine find?_isSome.mpr ⟨trim l, ?_, occursIn_invariantWord.mpr ⟨w, k, hw, hk⟩⟩
    exact mem_filter.mpr ⟨mem_map_of_mem hl, hne⟩
  · next h =>
    refine ⟨fun hsome => ?_, fun hsome => absurd hsome h⟩
    cases hsome

theorem ne_nil_of_invariantLine? (h : e.invariantLine? = some line) : line ≠ [] := by
  rw [invariantLine?] at h
  split at h
  · have hmem := (mem_filter.mp (mem_of_find?_eq_some h)).2
    rintro rfl
    cases hmem
  · cases h

/-! ### What was covered -/

def coverageMark : List Char := "coverage:".toList

/-- The lines from behind the mark of the first line that has it. -/
def coverageLines : List (List Char) → List (List Char)
  | [] => []
  | line :: lines =>
    if coverageMark.isPrefixOf line then line.drop coverageMark.length :: lines else coverageLines lines

variable (e)

/-- What is said about coverage: the first of the lines behind the mark that is not blank. -/
def coverageText : List Char :=
  ((coverageLines (splitOnChar '\n' e.stdout)).find? fun l => !l.all isBlank).getD []

theorem intercalate_cons_of_ne_nil {c : Char} (hne : lines ≠ []) :
    [c].intercalate (line :: lines) = line ++ c :: [c].intercalate lines := by
  obtain ⟨l, ls, rfl⟩ := exists_cons_of_ne_nil hne
  simp [List.intercalate]

theorem takeWhile_dropWhile_lines (hlines : ∀ l ∈ lines, '\n' ∉ l) :
    (((['\n'].intercalate lines).dropWhile isBlank).takeWhile (· != '\n')) =
      ((lines.find? fun l => !l.all isBlank).getD []).dropWhile isBlank := by
  induction lines with
  | nil => rfl
  | cons line lines ih =>
    have ih := ih fun l hl => hlines l (.tail _ hl)
    cases hblank : line.all isBlank with
    | true =>
      have hline := all_eq_true.mp hblank
      rw [find?_cons_of_neg (by simp [hblank]), ← ih]
      by_cases hne : lines = []
      · subst hne
        rw [intercalate_singleton, ← append_nil line, dropWhile_append_of_pos hline]
        rfl
      · rw [intercalate_cons_of_ne_nil hne, dropWhile_append_of_pos hline, dropWhile_cons_of_pos (by decide)]
    | false =>
      have hdrop : line.dropWhile isBlank ≠ [] := by
        intro hnil
        have hline := takeWhile_append_dropWhile (p := isBlank) (l := line)
        rw [hnil, append_nil] at hline
        rw [← hline, all_takeWhile] at hblank
        cases hblank
      have hplain : ∀ c ∈ line.dropWhile isBlank, (c != '\n') = true := fun c hc =>
        bne_iff_ne.mpr fun heq => hlines line (.head _) (heq ▸ (dropWhile_sublist _).subset hc)
      have hrest : ∃ rest, ['\n'].intercalate (line :: lines) = line ++ rest ∧ rest.takeWhile (· != '\n') = [] := by
        by_cases hne : lines = []
        · exact ⟨[], by simp [hne, List.intercalate], rfl⟩
        · exact ⟨_, intercalate_cons_of_ne_nil hne, rfl⟩
      obtain ⟨rest, hlast, hend⟩ := hrest
      rw [hlast, dropWhile_append, if_neg (by simpa using hdrop), takeWhile_append_of_pos hplain, hend,
        append_nil, find?_cons_of_pos (by simp [hblank]), Option.getD_some]

theorem takes_coverageLine {gap rest : List Char} (hu : u.getLast?.all (· == '\n') = true)
    (hgap : gap.all isBlank = true) (hstart : (line ++ rest).head?.any isBlank = false)
    (hline : line.all (· != '\n') = true) (hrest : rest.head?.any (· != '\n') = false) :
    coverageLine.Takes u (coverageMark ++ gap ++ line) rest []
      [(1, ⟨(u ++ (coverageMark ++ gap)).length, line ++ rest, line.length⟩)] := by
  have hend : rest.head?.all (· == '\n') = true := by
    cases h : rest.head? with
    | none => rfl
    | some c =>
      rw [h] at hrest
      simpa using hrest
  have htakes := ((((takes_here (f := fun a _ => a.all (· == '\n')) (u := u) (m := []) hu).seq
    (takes_lit "coverage:")).seq (takes_many_one hgap hstart)).seq ((takes_many_one hline hrest).mark 1)).seq
    (takes_here (f := fun _ b => b.all (· == '\n')) (v := rest) hend)
  simp only [nil_append, append_nil] at htakes
  exact ⟨fun k hk => htakes.run_eq k hk⟩

theorem matchAt_coverageLine (hu : u.getLast?.all (· == '\n') = true) :
    ∃ y, coverageLine.matchAt (.after u (coverageMark ++ t)) = some y ∧
      y.group 1 = (t.dropWhile isBlank).takeWhile (· != '\n') := by
  have htakes : coverageLine.Takes u
      (coverageMark ++ t.takeWhile isBlank ++ (t.dropWhile isBlank).takeWhile (· != '\n'))
      ((t.dropWhile isBlank).dropWhile (· != '\n')) [] _ := takes_coverageLine hu all_takeWhile
    (by rw [takeWhile_append_dropWhile]; exact any_head?_dropWhile isBlank t) all_takeWhile
    (any_head?_dropWhile (· != '\n') _)
  have htext : coverageMark ++ t.takeWhile isBlank ++ (t.dropWhile isBlank).takeWhile (· != '\n') ++
      (t.dropWhile isBlank).dropWhile (· != '\n') = coverageMark ++ t := by
    simp only [append_assoc, takeWhile_append_dropWhile]
  have hmatch := htakes.matchAt
  rw [htext] at hmatch
  refine ⟨_, hmatch, ?_⟩
  simp only [Match.group, Match.capture?, Capture.text, find?_cons_of_pos, beq_self_eq_true, Option.map_some,
    Option.getD_some, take_left]

theorem path_coverageLine {m n : Captures} {d : Cursor} (h : coverageLine.Path (.after u t) m d n) :
    u.getLast?.all (· == '\n') = true ∧ ∃ r, t = coverageMark ++ r := by
  obtain ⟨_, _, ⟨_, _, ⟨_, _, ⟨_, _, ⟨hstart, rfl, -⟩, hlit⟩, -⟩, -⟩, -⟩ := h
  obtain ⟨r, rfl, -⟩ := path_lit hlit
  exact ⟨hstart, r, rfl⟩

theorem fails_coverageLine {a b rest : List Char} (hline : '\n' ∉ line) (hmark : ¬ coverageMark <+: line)
    (hrest : rest.head?.all (· == '\n') = true) (hab : line = a ++ b) : coverageLine.Fails (u ++ a) (b ++ rest) := by
  intro m d n hpath
  obtain ⟨hstart, r, hr⟩ := path_coverageLine hpath
  cases hlast : a.getLast? with
  | some c =>
    rw [getLast?_append, hlast] at hstart
    obtain rfl : c = '\n' := by simpa using hstart
    exact hline (hab ▸ mem_append_left b (mem_of_getLast? hlast))
  | none =>
    obtain rfl := getLast?_eq_none_iff.mp hlast
    obtain rfl : line = b := hab
    rcases append_eq_append_iff.mp hr with ⟨y, hy, rfl⟩ | ⟨y, rfl, -⟩
    · cases y with
      | nil => exact hmark ⟨[], by rw [hy, append_nil, append_nil]⟩
      | cons c y =>
        obtain rfl : c = '\n' := by simpa using hrest
        have hmem : '\n' ∈ coverageMark := hy ▸ mem_append_right line (.head y)
        exact absurd hmem (by decide)
    · exact hmark (prefix_append coverageMark y)

theorem searchFrom_coverageLine (hne : lines ≠ []) (hlines : ∀ l ∈ lines, '\n' ∉ l)
    (hu : u.getLast?.all (· == '\n') = true) :
    ((coverageLine.searchFrom u.getLast? u.length (['\n'].intercalate lines)).map (·.group 1)).getD [] =
      (((coverageLines lines).find? fun l => !l.all isBlank).getD []).dropWhile isBlank := by
  induction lines generalizing u with
  | nil => exact absurd rfl hne
  | cons line lines ih =>
    have hline := hlines line (.head _)
    rw [coverageLines]
    split
    · next hmark =>
      obtain ⟨r, rfl⟩ := isPrefixOf_iff_prefix.mp hmark
      have htext : ['\n'].intercalate ((coverageMark ++ r) :: lines) =
          coverageMark ++ ['\n'].intercalate (r :: lines) := by
        by_cases hlast : lines = []
        · simp [hlast, List.intercalate]
        · rw [intercalate_cons_of_ne_nil hlast, intercalate_cons_of_ne_nil hlast, append_assoc]
      have hplain : ∀ l ∈ r :: lines, '\n' ∉ l := by
        intro l hl
        rcases mem_cons.mp hl with rfl | hl
        · exact fun hmem => hline (mem_append_right _ hmem)
        · exact hlines l (.tail _ hl)
      obtain ⟨y, hy, hgroup⟩ := matchAt_coverageLine (t := ['\n'].intercalate (r :: lines)) hu
      rw [htext, searchFrom_of_matchAt hy, Option.map_some, Option.getD_some, hgroup,
        takeWhile_dropWhile_lines hplain, drop_left]
    · next hmark =>
      replace hmark := mt isPrefixOf_iff_prefix.mpr hmark
      by_cases hlast : lines = []
      · subst hlast
        have hskip := searchFrom_skip (p := coverageLine) (u := u) (w := line) (v := []) fun a b hab _ =>
          fails_coverageLine hline hmark rfl hab
        have hnone : coverageLine.matchAt (.after (u ++ line) []) = none :=
          (show coverageLine.Fails (u ++ line) ([] ++ []) from
            fails_coverageLine hline hmark rfl (append_nil line).symm).matchAt
        have htext : ['\n'].intercalate [line] = line ++ [] := by simp [List.intercalate]
        rw [htext, hskip]
        show ((coverageLine.matchAt (.after (u ++ line) [])).map (·.group 1)).getD [] = []
        rw [hnone]
        rfl
      · have hfails : ∀ a b, line ++ ['\n'] = a ++ b → b ≠ [] →
            coverageLine.Fails (u ++ a) (b ++ ['\n'].intercalate lines) := by
          intro a b hab hb
          rcases eq_nil_or_concat b with rfl | ⟨y, c, rfl⟩
          · exact absurd rfl hb
          · rw [concat_eq_append, ← append_assoc] at hab
            obtain ⟨hy, hc⟩ := append_inj' hab rfl
            rw [concat_eq_append, ← hc, append_assoc]
            exact fails_coverageLine hline hmark rfl hy
        have hstart : (u ++ (line ++ ['\n'])).getLast?.all (· == '\n') = true := by simp
        rw [intercalate_cons_of_ne_nil hlast, append_cons, searchFrom_skip hfails]
        exact ih hlast (fun l hl => hlines l (.tail _ hl)) hstart

def readNumber (w : List Char) : Except TooManyDigits Int := do
  return ((← natOfDigits w : Nat) : Int)

/-- The numbers of a text, each written with digits next to which there are no more. -/
def readNumbers (t : List Char) : Except TooManyDigits (List Int) :=
  ((some1 digit).findAll t).mapM fun d => readNumber ((t.drop d.start).take (d.finish - d.start))

theorem coverage_eq : e.coverage = readNumbers (e.coverageText.dropWhile isBlank) := by
  have hsearch := searchFrom_coverageLine (u := []) (splitOnChar_ne_nil '\n' e.stdout)
    (fun l hl => not_mem_of_mem_splitOnChar hl) rfl
  rw [intercalate_splitOnChar, ← coverageText] at hsearch
  rw [← hsearch, coverage]
  show _ = readNumbers (((coverageLine.search e.stdout).map (·.group 1)).getD [])
  cases coverageLine.search e.stdout <;> rfl

theorem readNumber_cases (w : List Char) : maxDigits < w.length ∧ readNumber w = .error ⟨w.length⟩ ∨
      w.length ≤ maxDigits ∧ readNumber w = .ok (numberOf w) := by
  rw [readNumber, natOfDigits]
  split
  · next h => exact .inl ⟨h, rfl⟩
  · next h => exact .inr ⟨Nat.not_lt.mp h, rfl⟩

theorem readNumber_eq_ok {w : List Char} {n : Int} :
    readNumber w = .ok n ↔ w.length ≤ maxDigits ∧ (numberOf w : Int) = n := by
  rcases readNumber_cases w with ⟨hlong, h⟩ | ⟨hshort, h⟩
  · rw [h]
    exact ⟨fun h => (by cases h), fun h => absurd h.1 (Nat.not_le.mpr hlong)⟩
  · rw [h, Except.ok.injEq, and_iff_right hshort]

def HasLongNumber (t : List Char) : Prop := ∃ w, RunIn isDecimalDigit w t ∧ maxDigits < w.length

theorem readNumbers_eq_error {x : TooManyDigits} (h : readNumbers t = .error x) : HasLongNumber t := by
  obtain ⟨y, hy, hx⟩ := exists_of_mapM_eq_error h
  refine ⟨_, mem_findAll_some1_iff.mp ⟨y, hy, rfl⟩, ?_⟩
  rcases readNumber_cases ((t.drop y.start).take (y.finish - y.start)) with ⟨hlong, -⟩ | ⟨-, hok⟩
  · exact hlong
  · rw [hok] at hx
    cases hx

theorem readNumbers_eq_ok {ns : List Int} (h : readNumbers t = .ok ns) :
    ¬ HasLongNumber t ∧ ∀ n, n ∈ ns ↔ ∃ w, RunIn isDecimalDigit w t ∧ (numberOf w : Int) = n := by
  have hshort : ∀ w, RunIn isDecimalDigit w t → w.length ≤ maxDigits := by
    intro w hw
    obtain ⟨y, hy, rfl⟩ := mem_findAll_some1_iff.mpr hw
    obtain ⟨n, hn⟩ := exists_of_mapM_eq_ok h hy
    exact (readNumber_eq_ok.mp hn).1
  refine ⟨fun ⟨w, hw, hlong⟩ => absurd (hshort w hw) (Nat.not_le.mpr hlong), fun n => ?_⟩
  rw [mem_of_mapM_eq_ok h]
  constructor
  · rintro ⟨y, hy, hn⟩
    exact ⟨_, mem_findAll_some1_iff.mp ⟨y, hy, rfl⟩, (readNumber_eq_ok.mp hn).2⟩
  · rintro ⟨w, hw, rfl⟩
    have hlength := hshort w hw
    obtain ⟨y, hy, rfl⟩ := mem_findAll_some1_iff.mpr hw
    exact ⟨y, hy, readNumber_eq_ok.mpr ⟨hlength, rfl⟩⟩

theorem runIn_dropWhile_isBlank {w : List Char} :
    RunIn isDecimalDigit w (t.dropWhile isBlank) ↔ RunIn isDecimalDigit w t := by
  have hblank : ∀ c ∈ t.takeWhile isBlank, isDecimalDigit c = false := fun c hc =>
    isDecimalDigit_of_isBlank (all_eq_true.mp all_takeWhile c hc)
  rw [← runIn_append_of_none hblank, takeWhile_append_dropWhile]

/-! ### Classes -/

/-- A number that is too long to be read tells of the coverage, or of the line of the panic. -/
def TellsLongNumber : Prop :=
  HasLongNumber e.coverageText ∨ e.code ≠ 0 ∧ ∃ y, (placeFirst.search e.output <|>
    messageFirst.search e.output) = some y ∧ maxDigits < (y.group 2).length

def TellsPanic (p : Panic) : Prop := parse e.output = .ok (some p)

structure Classified (e : ProgramExit) (r : ExecutionResult) : Prop where
  ok_iff : r.status = .ok ↔ e.code = 0
  violation_iff : r.status = .violation ↔ e.code ≠ 0 ∧ ((∃ p, e.TellsPanic p) ∨ e.TellsInvariant)
  crash_iff : r.status = .crash ↔ e.code ≠ 0 ∧ ¬ ((∃ p, e.TellsPanic p) ∨ e.TellsInvariant)
  message_ne : e.code ≠ 0 → r.message ≠ ""
  location_iff : ∀ l, r.location = some l ↔ e.code ≠ 0 ∧ ∃ p, e.TellsPanic p ∧ p.location = l
  coverage_iff : ∀ n, n ∈ r.coverage ↔ ∃ w, RunIn isDecimalDigit w e.coverageText ∧ (numberOf w : Int) = n

theorem coverage_cases :
    HasLongNumber e.coverageText ∧ (∃ x, e.coverage = .error x) ∨ ¬ HasLongNumber e.coverageText ∧
      ∃ ns, e.coverage = .ok ns ∧
        ∀ n, n ∈ ns ↔ ∃ w, RunIn isDecimalDigit w e.coverageText ∧ (numberOf w : Int) = n := by
  rw [coverage_eq]
  simp only [HasLongNumber, ← runIn_dropWhile_isBlank (t := e.coverageText)]
  cases h : readNumbers (e.coverageText.dropWhile isBlank) with
  | error x => exact .inl ⟨readNumbers_eq_error h, x, rfl⟩
  | ok ns => exact .inr ⟨(readNumbers_eq_ok h).1, ns, rfl, (readNumbers_eq_ok h).2⟩

theorem crashMessage_ne : e.crashMessage ≠ "" := by
  have hended : e.ended.toList ≠ [] := by
    rw [ended]
    split
    · simp
    · simp
  intro h
  have htext := congrArg String.toList h
  rw [crashMessage] at htext
  split at htext
  · simp [hended] at htext
  · exact hended htext

variable {e}

theorem classify_of_coverage_eq_error {x : TooManyDigits} (h : e.coverage = .error x) : e.classify = .error x := by
  rw [classify, h]
  rfl

section
variable {ns : List Int} (hns : e.coverage = .ok ns)
include hns

theorem classify_of_code_eq_zero (hcode : e.code = 0) : e.classify = .ok { coverage := ns } := by
  simp only [classify, hns, bind, Except.bind, if_pos hcode]
  rfl

variable (hcode : e.code ≠ 0)
include hcode

theorem classify_of_parse_eq_error {x : TooManyDigits} (hparse : parse e.output = .error x) :
    e.classify = .error x := by
  simp only [classify, hns, bind, Except.bind, if_neg hcode, hparse]

theorem classify_of_panic {p : Panic} (hparse : parse e.output = .ok (some p)) : e.classify =
    .ok { status := .violation, message := if p.message.isEmpty then "panic" else p.message,
          location := some p.location, coverage := ns } := by
  simp only [classify, hns, bind, Except.bind, if_neg hcode, hparse]
  rfl

variable (hparse : parse e.output = .ok none)
include hparse

theorem classify_of_invariantLine (hline : e.invariantLine? = some line) :
    e.classify = .ok { status := .violation, message := String.ofList line, coverage := ns } := by
  simp only [classify, hns, bind, Except.bind, if_neg hcode, hparse, hline]
  rfl

theorem classify_of_neither (hline : e.invariantLine? = none) :
    e.classify = .ok { status := .crash, message := e.crashMessage, coverage := ns } := by
  simp only [classify, hns, bind, Except.bind, if_neg hcode, hparse, hline]
  rfl

end

theorem not_tellsPanic (hparse : parse e.output = .ok none) : ¬ ∃ p, e.TellsPanic p := by
  rintro ⟨p, hp⟩
  cases hparse.symm.trans hp

/-- Without a number that is too long, an exit with a code other than zero is a violation if it tells of a
    panic or an invariant, and a crash otherwise. -/
theorem exists_classified {ns : List Int} (hns : e.coverage = .ok ns) (hcode : e.code ≠ 0)
    (hcoverage : ∀ n, n ∈ ns ↔ ∃ w, RunIn isDecimalDigit w e.coverageText ∧ (numberOf w : Int) = n)
    {panic? : Option Panic} (hparse : parse e.output = .ok panic?) :
    ∃ r, e.classify = .ok r ∧ e.Classified r := by
  cases panic? with
  | some p =>
    have htells : e.TellsPanic p := hparse
    refine ⟨_, classify_of_panic hns hcode hparse, ?_⟩
    have hmessage : (if p.message.isEmpty then "panic" else p.message) ≠ "" := by
      split
      · decide
      · next hempty => simpa using hempty
    exact
      { ok_iff := by simp [hcode]
        violation_iff := by simpa [hcode] using .inl ⟨p, htells⟩
        crash_iff := by simpa using fun _ hnot => absurd htells (hnot p)
        message_ne := fun _ => hmessage
        location_iff := fun l => ⟨fun h => ⟨hcode, p, htells, Option.some.inj h⟩, fun ⟨_, q, hq, hl⟩ => by
          cases htells.symm.trans hq
          rw [hl]⟩
        coverage_iff := hcoverage }
  | none =>
    have hno := not_tellsPanic hparse
    cases hline : e.invariantLine? with
    | some line =>
      have htells : e.TellsInvariant := isSome_invariantLine?.mp (by rw [hline]; rfl)
      have hmessage : String.ofList line ≠ "" := by simpa using ne_nil_of_invariantLine? hline
      refine ⟨_, classify_of_invariantLine hns hcode hparse hline, ?_⟩
      exact
        { ok_iff := by simp [hcode]
          violation_iff := by simp [hcode, htells]
          crash_iff := by simp [htells]
          message_ne := fun _ => hmessage
          location_iff := by simpa using fun _ _ p hp _ => hno ⟨p, hp⟩
          coverage_iff := hcoverage }
    | none =>
      have hneither : ¬ e.TellsInvariant := fun h => by
        have hsome := isSome_invariantLine?.mpr h
        rw [hline] at hsome
        cases hsome
      refine ⟨_, classify_of_neither hns hcode hparse hline, ?_⟩
      exact
        { ok_iff := by simp [hcode]
          violation_iff := by simp [hno, hneither]
          crash_iff := by simp [hcode, hno, hneither]
          message_ne := fun _ => crashMessage_ne e
          location_iff := by simpa using fun _ _ p hp _ => hno ⟨p, hp⟩
          coverage_iff := hcoverage }

/-- An exit is classified exactly if it does not tell of a number that is too long to be read. -/
theorem exit_classified (e : ProgramExit) :
    e.TellsLongNumber ∧ (∃ x, e.classify = .error x) ∨
      ¬ e.TellsLongNumber ∧ ∃ r, e.classify = .ok r ∧ e.Classified r := by
  rcases coverage_cases e with ⟨hlong, x, hx⟩ | ⟨hshort, ns, hns, hcoverage⟩
  · exact .inl ⟨.inl hlong, x, classify_of_coverage_eq_error hx⟩
  · by_cases hcode : e.code = 0
    · refine .inr ⟨?_, _, classify_of_code_eq_zero hns hcode, ?_⟩
      · rintro (hlong | ⟨hne, -⟩)
        · exact hshort hlong
        · exact hne hcode
      · exact
          { ok_iff := by simp [hcode]
            violation_iff := by simp [hcode]
            crash_iff := by simp [hcode]
            message_ne := fun hne => absurd hcode hne
            location_iff := by simp [hcode]
            coverage_iff := hcoverage }
    · cases hparse : Panic.parse e.output with
      | error x =>
        exact .inl ⟨.inr ⟨hcode, Panic.parse_eq_error_iff.mp ⟨x, hparse⟩⟩, x,
          classify_of_parse_eq_error hns hcode hparse⟩
      | ok panic? =>
        refine .inr ⟨?_, exists_classified hns hcode hcoverage hparse⟩
        rintro (hlong | ⟨-, hlong⟩)
        · exact hshort hlong
        · obtain ⟨x, hx⟩ := Panic.parse_eq_error_iff.mpr hlong
          cases hparse.symm.trans hx

theorem coverageText_longSeven : coverageText { code := 0, stdout := coverageMark ++ longSeven } = longSeven := by
  have hline : '\n' ∉ coverageMark ++ longSeven := by
    rw [mem_append]
    rintro (h | h)
    · exact absurd h (by decide)
    · exact absurd (all_eq_true.mp all_longSeven _ h) (by decide)
  have hblank : longSeven.all isBlank = false := by
    rw [longSeven, all_append, Bool.and_eq_false_iff]
    exact .inr (by decide)
  have hmark : coverageMark.isPrefixOf (coverageMark ++ longSeven) = true :=
    isPrefixOf_iff_prefix.mpr (prefix_append ..)
  rw [coverageText, splitOnChar_of_not_mem hline, coverageLines, if_pos hmark, drop_left,
    find?_cons_of_pos (by rw [hblank]; rfl), Option.getD_some]

/-- An exit is not classified for one digit too many, and what is covered is read from the line behind one
    that says nothing. -/
theorem exit_unclassified_and_coverage_filled :
    (∃ x, classify { code := 0, stdout := coverageMark ++ longSeven } = .error x) ∧
      classify { code := 0, stdout := "coverage:\n7".toList } = .ok { coverage := [7] } := by
  refine ⟨?_, rfl⟩
  have hrun : RunIn isDecimalDigit longSeven longSeven :=
    ⟨[], [], by simp, by simp [longSeven], all_longSeven, rfl, rfl⟩
  have hlong : HasLongNumber (coverageText { code := 0, stdout := coverageMark ++ longSeven }) :=
    ⟨longSeven, by rw [coverageText_longSeven]; exact hrun, by rw [length_longSeven]; exact Nat.lt_succ_self _⟩
  rcases coverage_cases { code := 0, stdout := coverageMark ++ longSeven } with ⟨-, x, hx⟩ | ⟨hshort, -⟩
  · exact ⟨x, classify_of_coverage_eq_error hx⟩
  · exact absurd hlong hshort

end ContractAudit.ProgramExit

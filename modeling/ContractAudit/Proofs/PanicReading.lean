import ContractAudit.Fuzz.Execution
import ContractAudit.Proofs.PatternChoice

/-! # Panics are read back

In the first form path and numbers end at their colons, and the last newline before the message is the one
that the form has, as the message is not blank. -/

namespace ContractAudit.Text
open List Decimal Match

def numberOf (ds : List Char) : Nat := digitsToNat (ds.map fun c => (digitValue? c).getD 0)

/-- The number seven, written with one digit more than is read. -/
def longSeven : List Char := replicate maxDigits '0' ++ ['7']

theorem length_longSeven : longSeven.length = maxDigits + 1 := by simp [longSeven]

theorem all_longSeven : longSeven.all isDecimalDigit = true := by
  rw [longSeven, all_append, all_replicate]
  decide

end ContractAudit.Text

namespace ContractAudit.Panic
open Text Text.Pattern List Decimal Match
variable {n : Captures} {d : Cursor}

/-! ### Places -/

structure Place where
  path : List Char
  line : List Char
  column : List Char
  path_ne : path ≠ []
  path_plain : ∀ c ∈ path, isBlank c = false ∧ c ≠ ':' ∧ c ≠ '\''
  line_ne : line ≠ []
  line_digits : line.all isDecimalDigit = true
  column_ne : column ≠ []
  column_digits : column.all isDecimalDigit = true

namespace Place

def text (p : Place) : List Char := p.path ++ [':'] ++ p.line ++ [':'] ++ p.column

def location (p : Place) : Location := .ofLines (String.ofList p.path) (some (numberOf p.line)) none none

def extend (p : Place) {ds : List Char} (h : ds.all isDecimalDigit = true) : Place :=
  { p with
    column := p.column ++ ds
    column_ne := by simp [p.column_ne]
    column_digits := by rw [all_append, p.column_digits, h]; rfl }

theorem text_extend (p : Place) {ds : List Char} (h : ds.all isDecimalDigit = true) :
    (p.extend h).text = p.text ++ ds := by simp [text, extend]

theorem exists_text_eq_cons (p : Place) : ∃ c r, p.text = c :: r ∧ c ≠ '\'' := by
  obtain ⟨c, path, hpath⟩ := exists_cons_of_ne_nil p.path_ne
  refine ⟨c, path ++ [':'] ++ p.line ++ [':'] ++ p.column, ?_, (p.path_plain c (hpath ▸ .head path)).2.2⟩
  rw [text, hpath]
  rfl

end Place

variable {p : Place} {u v t w message before after : List Char} {m : Captures}

variable (p)

def Place.marks (u v : List Char) (m : Captures) : Captures :=
  (2, ⟨(u ++ (p.path ++ [':'])).length, p.line ++ ([':'] ++ (p.column ++ v)), p.line.length⟩) ::
    (1, ⟨u.length, p.path ++ ([':'] ++ (p.line ++ ([':'] ++ (p.column ++ v)))), p.path.length⟩) :: m

theorem takes_place (hv : v.head?.any isDecimalDigit = false) : place.Takes u p.text v m (p.marks u v m) := by
  have hpath : p.path.all (fun c => !isBlank c && c != ':' && c != '\'') = true := by
    refine all_eq_true.mpr fun c hc => ?_
    obtain ⟨hblank, hcolon, hquote⟩ := p.path_plain c hc
    simp [hblank, hcolon, hquote]
  have hcolon : isDecimalDigit ':' = false := by decide
  exact (((((takes_some1_one hpath p.path_ne (by simp)).mark 1).seq (takes_char ':')).seq
    ((takes_some1_one p.line_digits p.line_ne (by simpa using hcolon)).mark 2)).seq (takes_char ':')).seq
    (takes_some1_one p.column_digits p.column_ne hv)

/-! ### The two forms -/

def placeFirstText (message : List Char) : List Char :=
  "panicked at ".toList ++ p.text ++ [':'] ++ ['\n'] ++ message

def messageFirstText (message : List Char) : List Char :=
  "panicked at '".toList ++ (message ++ ("', ".toList ++ p.text))

structure Says (y : Match) (p : Place) (message : List Char) : Prop where
  path : y.group 1 = p.path
  line : y.group 2 = p.line
  message : y.group 3 = message

/-- Of the white space before a message that is not blank, only the first newline is followed by it. -/
theorem takes_newline (hline : '\n' ∉ message) (hblank : message.all isBlank = false) :
    (blanks ++ char '\n').Takes u ['\n'] (message ++ v) m m := by
  refine takes_many_seq (w := []) rfl (takes_char '\n') fun a b hab hne ha => ?_
  rintro n d l hpath
  obtain ⟨c, b, rfl, hc, -⟩ := path_one hpath
  obtain rfl : c = '\n' := by simpa using hc
  obtain ⟨c, a, rfl⟩ := exists_cons_of_ne_nil hne
  rw [all_cons, Bool.and_eq_true] at ha
  have hmessage (h : ∀ x ∈ message, x ∈ a) : False := by
    have hall : message.all isBlank = true := all_eq_true.mpr fun x hx => all_eq_true.mp ha.2 x (h x hx)
    cases hall.symm.trans hblank
  have hrest : message ++ v = a ++ '\n' :: b := (List.cons.inj hab).2
  rcases append_eq_append_iff.mp hrest with ⟨y, rfl, -⟩ | ⟨y, rfl, hy⟩
  · exact hmessage fun x hx => mem_append_left y hx
  · cases y with
    | nil => exact hmessage fun x hx => by simpa using hx
    | cons c y =>
      obtain rfl := (List.cons.inj hy).1
      exact hline (mem_append_right a (.head y))

theorem takes_placeFirst (hline : '\n' ∉ message) (hblank : message.all isBlank = false)
    (hv : v.head?.all (· == '\n') = true) :
    ∃ m', placeFirst.Takes u (placeFirstText p message) v [] m' ∧ ∀ start stop, Says ⟨start, stop, m'⟩ p message := by
  have hmessage : message.all (· != '\n') = true :=
    all_eq_true.mpr fun c hc => bne_iff_ne.mpr fun heq => hline (heq ▸ hc)
  have hend : v.head?.any (· != '\n') = false := by
    cases h : v.head? with
    | none => rfl
    | some c =>
      rw [h] at hv
      obtain rfl : c = '\n' := by simpa using hv
      rfl
  have hcolon : isDecimalDigit ':' = false := by decide
  have htakes := ((((takes_lit (u := u) (m := []) "panicked at ").seq (takes_place p (by simpa using hcolon))).seq
    (takes_char ':')).seq (takes_newline hline hblank)).seq ((takes_many_one hmessage hend).mark 3)
  refine ⟨_, ⟨fun k hk => htakes.run_eq k hk⟩, fun start stop => ⟨?_, ?_, ?_⟩⟩
  · simp [group, capture?, Place.marks, Capture.text]
  · simp [group, capture?, Place.marks, Capture.text]
  · simp [group, capture?, Capture.text]

theorem takes_messageFirst (hline : '\n' ∉ message) (hquote : '\'' ∉ message)
    (hv : v.head?.any isDecimalDigit = false) : ∃ m', messageFirst.Takes u (messageFirstText p message) v [] m' ∧
      ∀ start stop, Says ⟨start, stop, m'⟩ p message := by
  have hmessage : message.all (· != '\n') = true :=
    all_eq_true.mpr fun c hc => bne_iff_ne.mpr fun heq => hline (heq ▸ hc)
  -- The first quote is the one behind the message.
  have hshorter : ∀ a b, message = a ++ b → b ≠ [] →
      (lit "', " ++ place).Fails (u ++ "panicked at '".toList ++ a) (b ++ ("', ".toList ++ p.text ++ v)) := by
    intro a b hab hb
    obtain ⟨c, b, rfl⟩ := exists_cons_of_ne_nil hb
    refine (fails_lit '\'' rfl fun hc => hquote ?_).seq place
    rw [hab, ← Option.some.inj hc]
    exact mem_append_right a (.head b)
  have htakes := (takes_lit (u := u) (m := []) "panicked at '").seq
    (takes_few_seq 3 hmessage ((takes_lit "', ").seq (takes_place p hv)) hshorter)
  refine ⟨_, ⟨fun k hk => htakes.run_eq k hk⟩, fun start stop => ⟨?_, ?_, ?_⟩⟩
  · simp [group, capture?, Place.marks, Capture.text]
  · simp [group, capture?, Place.marks, Capture.text]
  · simp [group, capture?, Place.marks, Capture.text]

/-! ### Where a panic can begin -/

variable {p}

def words : List Char := "panicked at".toList

def StartsPanic (t : List Char) : Prop :=
  ∃ (p : Place) (gap rest : List Char), gap.all isBlank = true ∧
    t = "panicked at ".toList ++ p.text ++ [':'] ++ gap ++ ['\n'] ++ rest

def HasPanic (t : List Char) : Prop := ∃ u v, t = u ++ v ∧ StartsPanic v

theorem exists_place_of_path (h : place.Path (.after u t) m d n) :
    ∃ (p : Place) (v : List Char), t = p.text ++ v ∧ d = .after (u ++ p.text) v := by
  obtain ⟨_, _, ⟨_, _, ⟨_, _, ⟨_, _, ⟨_, hp, -⟩, hcolon⟩, ⟨_, hl, -⟩⟩, hcolon'⟩, hcol⟩ := h
  obtain ⟨path, _, rfl, hpathne, hpath, rfl⟩ := path_some1_one hp
  obtain ⟨c, _, rfl, hc, rfl⟩ := path_one hcolon
  obtain ⟨line, _, rfl, hlinene, hline, rfl⟩ := path_some1_one hl
  obtain ⟨c', _, rfl, hc', rfl⟩ := path_one hcolon'
  obtain ⟨column, v, rfl, hcolumnne, hcolumn, rfl⟩ := path_some1_one hcol
  obtain rfl : c = ':' := by simpa using hc
  obtain rfl : c' = ':' := by simpa using hc'
  have hplain : ∀ c ∈ path, isBlank c = false ∧ c ≠ ':' ∧ c ≠ '\'' := by
    intro c hc
    simpa [and_assoc] using all_eq_true.mp hpath c hc
  refine ⟨⟨path, line, column, hpathne, hplain, hlinene, hline, hcolumnne, hcolumn⟩, v, ?_, ?_⟩
  · simp [Place.text]
  · simp [Place.text]

theorem startsPanic_of_path (h : placeFirst.Path (.after u t) m d n) : StartsPanic t := by
  obtain ⟨_, _, ⟨_, _, ⟨_, _, ⟨_, _, ⟨_, _, hlit, hplace⟩, hcolon⟩, hblanks⟩, hnewline⟩, -⟩ := h
  obtain ⟨_, rfl, rfl⟩ := path_lit hlit
  obtain ⟨p, _, rfl, rfl⟩ := exists_place_of_path hplace
  obtain ⟨c, _, rfl, hc, rfl⟩ := path_one hcolon
  obtain ⟨gap, _, rfl, hgap, rfl⟩ := path_many_one hblanks
  obtain ⟨c', rest, rfl, hc', -⟩ := path_one hnewline
  obtain rfl : c = ':' := by simpa using hc
  obtain rfl : c' = '\n' := by simpa using hc'
  refine ⟨p, gap, rest, hgap, ?_⟩
  simp only [append_assoc, cons_append, nil_append]

theorem StartsPanic.exists_words (h : StartsPanic t) : ∃ r, t = words ++ r := by
  obtain ⟨p, gap, rest, -, rfl⟩ := h
  have hwords : "panicked at ".toList = words ++ [' '] := rfl
  rw [hwords]
  simp only [append_assoc]
  exact ⟨_, rfl⟩

theorem not_infix_of_not_mem {c : Char} (hc : c ∈ words) (h : c ∉ w) : ¬ words <:+: w := fun hin => h (hin.subset hc)

/-- The words begin nowhere in front of a place where they begin, if they are not in what is in front
    of it: their first letter is in them once. -/
theorem words_of_before {r r' : List Char} (hw : w ≠ []) (h : w ++ (words ++ r) = words ++ r') : words <:+: w := by
  rcases append_eq_append_iff.mp h with ⟨y, hy, hr⟩ | ⟨y, rfl, -⟩
  · cases y with
    | nil => exact ⟨[], [], by simpa using hy⟩
    | cons c y =>
      obtain ⟨a, w, rfl⟩ := exists_cons_of_ne_nil hw
      obtain rfl : 'p' = c := (List.cons.inj hr).1
      have htail : "anicked at".toList = w ++ 'p' :: y := (List.cons.inj hy).2
      exact absurd (htail ▸ mem_append_right w (.head y)) (by decide)
  · exact ⟨[], y, by simp⟩

/-- The words begin behind a text, if they begin anywhere. -/
def Passed (w : List Char) : Prop :=
  ∀ t u r, w ++ t = u ++ (words ++ r) → ∃ x, u = w ++ x

theorem Passed.append (hw : Passed w) (hv : Passed v) : Passed (w ++ v) := by
  intro t u r h
  rw [append_assoc] at h
  obtain ⟨x, rfl⟩ := hw _ _ _ h
  rw [append_assoc] at h
  obtain ⟨y, rfl⟩ := hv _ _ _ (append_cancel_left h)
  exact ⟨y, (append_assoc ..).symm⟩

theorem passed_of_not_mem (hw : 'p' ∉ w) : Passed w := by
  intro t u r h
  rcases append_eq_append_iff.mp h with ⟨x, rfl, -⟩ | ⟨x, rfl, hx⟩
  · exact ⟨x, rfl⟩
  · cases x with
    | nil => exact ⟨[], by simp⟩
    | cons c x =>
      obtain rfl : 'p' = c := (List.cons.inj hx).1
      exact absurd (mem_append_right u (.head x)) hw

/-- A text without the words is passed together with a character that is not in them. -/
theorem passed_of_lacks {c : Char} (hw : ¬ words <:+: w) (hc : c ∉ words) : Passed (w ++ [c]) := by
  intro t u r h
  rw [append_assoc, singleton_append] at h
  rcases append_eq_append_iff.mp h with ⟨x, rfl, hx⟩ | ⟨x, rfl, hx⟩
  · cases x with
    | nil =>
      obtain rfl : c = 'p' := (List.cons.inj hx).1
      exact absurd (by decide) hc
    | cons d x =>
      obtain rfl : c = d := (List.cons.inj hx).1
      exact ⟨x, by simp⟩
  · rcases append_eq_append_iff.mp hx with ⟨y, rfl, -⟩ | ⟨y, hy, hr⟩
    · exact absurd ⟨u, y, by simp⟩ hw
    · cases y with
      | nil => exact absurd ⟨u, [], by simpa using hy⟩ hw
      | cons d y =>
        obtain rfl : c = d := (List.cons.inj hr).1
        exact absurd (hy ▸ mem_append_right x (.head y)) hc

theorem passed_messageFirst (p : Place) (hmessage : ¬ words <:+: message) :
    Passed ("anicked at '".toList ++ (message ++ ("', ".toList ++ p.text))) := by
  have hpath : ¬ words <:+: p.path :=
    not_infix_of_not_mem (c := ' ') (by decide) fun hmem => absurd (p.path_plain _ hmem).1 (by decide)
  have hnumbers : 'p' ∉ p.line ++ [':'] ++ p.column := by
    simp only [mem_append, mem_singleton, not_or]
    refine ⟨⟨fun h => ?_, by decide⟩, fun h => ?_⟩
    · exact absurd (all_eq_true.mp p.line_digits _ h) (by decide)
    · exact absurd (all_eq_true.mp p.column_digits _ h) (by decide)
  have hparts := (passed_of_not_mem (w := "anicked at '".toList) (by decide)).append
    ((passed_of_lacks (c := '\'') hmessage (by decide)).append
      ((passed_of_not_mem (w := [',', ' ']) (by decide)).append
        ((passed_of_lacks (c := ':') hpath (by decide)).append (passed_of_not_mem hnumbers))))
  have htext : message ++ ['\''] ++ ([',', ' '] ++ (p.path ++ [':'] ++ (p.line ++ [':'] ++ p.column))) =
      message ++ (['\'', ',', ' '] ++ p.text) := by
    simp [Place.text]
  rw [htext] at hparts
  exact hparts

theorem fails_before {q : Pattern} {r : List Char} (hbefore : ¬ words <:+: before)
    (hq : ∀ {u t m d n}, q.Path (.after u t) m d n → ∃ r, t = words ++ r) :
    ∀ a b, before = a ++ b → b ≠ [] → q.Fails a (b ++ (words ++ r)) := by
  rintro a b rfl hb m d n hpath
  obtain ⟨r', hr'⟩ := hq hpath
  exact hbefore ((words_of_before hb hr').trans (suffix_append a b).isInfix)

theorem words_of_placeFirst (h : placeFirst.Path (.after u t) m d n) :
    ∃ r, t = words ++ r := (startsPanic_of_path h).exists_words

theorem words_of_messageFirst (h : messageFirst.Path (.after u t) m d n) : ∃ r, t = words ++ r := by
  obtain ⟨_, _, ⟨_, _, ⟨_, _, hlit, -⟩, -⟩, -⟩ := h
  obtain ⟨v, rfl, -⟩ := path_lit hlit
  exact ⟨[' ', '\''] ++ v, rfl⟩

/-! ### Reading -/

def reading (p : Place) (message : List Char) : Except TooManyDigits (Option Panic) :=
  (natOfDigits p.line).map fun line : Nat =>
    some ⟨.ofLines (String.ofList p.path) (some (line : Int)) none none, String.ofList (trim message)⟩

theorem parse_eq_reading {y : Match} (h : (placeFirst.search t <|> messageFirst.search t) = some y)
    (hsaid : Says y p message) : parse t = reading p message := by
  rw [parse, h]
  show (ofMatch y).map some = reading p message
  rw [ofMatch, reading, hsaid.line, groupText, hsaid.path, hsaid.message]
  cases natOfDigits p.line <;> rfl

theorem parse_eq_error_iff : (∃ x, parse t = .error x) ↔
    ∃ y, (placeFirst.search t <|> messageFirst.search t) = some y ∧ maxDigits < (y.group 2).length := by
  rw [parse]
  cases placeFirst.search t <|> messageFirst.search t with
  | none => simp
  | some y =>
    show (∃ x, (ofMatch y).map some = .error x) ↔ _
    rw [ofMatch, natOfDigits]
    split
    · next hlong => exact ⟨fun _ => ⟨y, rfl, hlong⟩, fun _ => ⟨_, rfl⟩⟩
    · next hshort =>
      constructor
      · rintro ⟨x, hx⟩
        cases hx
      · rintro ⟨y', hy, hlong⟩
        exact absurd (Option.some.inj hy ▸ hlong) hshort

variable (p)

theorem parse_placeFirst (hline : '\n' ∉ message) (hblank : message.all isBlank = false)
    (hbefore : ¬ words <:+: before) (hafter : after.head?.all (· == '\n') = true) :
    parse (before ++ (placeFirstText p message ++ after)) = reading p message := by
  obtain ⟨m, htakes, hsaid⟩ := takes_placeFirst (u := before) p hline hblank hafter
  have hstarts : StartsPanic (placeFirstText p message ++ after) :=
    ⟨p, [], message ++ after, rfl, by unfold placeFirstText; simp only [append_assoc, nil_append]⟩
  obtain ⟨r, hr⟩ := hstarts.exists_words
  have hsearch := search_eq_some (hr ▸ fails_before hbefore words_of_placeFirst) htakes.matchAt
  exact parse_eq_reading (by rw [hsearch]; rfl) (hsaid _ _)

/-- Where the second form begins, a quote stands in the place of the path. -/
theorem not_startsPanic_messageFirst : ¬ StartsPanic (messageFirstText p message ++ after) := by
  rintro ⟨q, gap, rest, -, h⟩
  obtain ⟨c, r, hq, hc⟩ := q.exists_text_eq_cons
  have htail : '\'' :: (message ++ ("', ".toList ++ p.text) ++ after) =
      c :: r ++ ([':'] ++ gap ++ ['\n'] ++ rest) := by
    refine (append_right_inj "panicked at ".toList).mp ?_
    rw [← hq]
    refine Eq.trans ?_ (h.trans ?_)
    · rfl
    · simp only [append_assoc]
  exact hc (List.cons.inj htail).1.symm

theorem search_placeFirst_eq_none (hbefore : ¬ words <:+: before)
    (hmessage : ¬ words <:+: message) (hafter : ¬ HasPanic after) :
    placeFirst.search (before ++ (messageFirstText p message ++ after)) = none := by
  refine search_eq_none fun u v huv m d n hpath => ?_
  have hstarts := startsPanic_of_path hpath
  obtain ⟨r, hr⟩ := hstarts.exists_words
  rcases append_eq_append_iff.mp huv with ⟨x, rfl, hx⟩ | ⟨x, rfl, hx⟩
  · cases x with
    | nil =>
      rw [nil_append] at hx
      exact not_startsPanic_messageFirst p (hx ▸ hstarts)
    | cons c x =>
      have htail : "anicked at '".toList ++ (message ++ ("', ".toList ++ p.text)) ++ after = x ++ v :=
        (List.cons.inj hx).2
      obtain ⟨y, rfl⟩ := passed_messageFirst p hmessage _ _ r (hr ▸ htail)
      rw [append_assoc _ y] at htail
      exact hafter ⟨y, v, append_cancel_left htail, hstarts⟩
  · by_cases hne : x = []
    · subst hne
      exact not_startsPanic_messageFirst p (hx ▸ hstarts)
    · have hwords : words <:+: x := words_of_before hne (hx.symm.trans hr)
      exact hbefore (hwords.trans (suffix_append u x).isInfix)

theorem parse_messageFirst (hline : '\n' ∉ message) (hquote : '\'' ∉ message)
    (hbefore : ¬ words <:+: before) (hmessage : ¬ words <:+: message) (hafter : ¬ HasPanic after) :
    parse (before ++ (messageFirstText p message ++ after)) = reading p message := by
  -- The column takes the digits that follow it.
  have hds : (after.takeWhile isDecimalDigit).all isDecimalDigit = true := all_takeWhile
  have htext : messageFirstText (p.extend hds) message ++ after.dropWhile isDecimalDigit =
      messageFirstText p message ++ after := by
    unfold messageFirstText
    rw [Place.text_extend]
    simp only [append_assoc, takeWhile_append_dropWhile]
  obtain ⟨m, htakes, hsaid⟩ := takes_messageFirst (u := before) (p.extend hds) hline hquote
    (any_head?_dropWhile isDecimalDigit after)
  have hmatch := htakes.matchAt
  rw [htext] at hmatch
  have hwords : messageFirstText p message ++ after =
      words ++ (" '".toList ++ (message ++ ("', ".toList ++ p.text)) ++ after) := rfl
  have hsearch := search_eq_some (hwords ▸ fails_before hbefore words_of_messageFirst) hmatch
  have hsaid := hsaid before.length
    (.after (before ++ messageFirstText (p.extend hds) message) (after.dropWhile isDecimalDigit))
  refine parse_eq_reading ?_ ⟨hsaid.path, hsaid.line, hsaid.message⟩
  rw [search_placeFirst_eq_none p hbefore hmessage hafter]
  exact hsearch

theorem reading_eq_ok (message : List Char) :
    reading p message = .ok (some ⟨p.location, String.ofList (trim message)⟩) ↔ p.line.length ≤ maxDigits := by
  unfold reading natOfDigits
  split
  · next hlong =>
    refine ⟨fun h => ?_, fun h => absurd h (Nat.not_le.mpr hlong)⟩
    cases h
  · next h => exact ⟨fun _ => Nat.not_lt.mp h, fun _ => rfl⟩

variable {p}

/-- A panic is read back from either form, wherever it stands, exactly if its line has not too many
    digits. -/
theorem panic_reads_back (p : Place) (message before after : List Char) (hline : '\n' ∉ message)
    (hbefore : ¬ words <:+: before) :
    (message.all isBlank = false → after.head?.all (· == '\n') = true →
      (parse (before ++ (placeFirstText p message ++ after)) =
          .ok (some ⟨p.location, String.ofList (trim message)⟩) ↔ p.line.length ≤ Decimal.maxDigits)) ∧
    ('\'' ∉ message → ¬ words <:+: message → ¬ HasPanic after →
      (parse (before ++ (messageFirstText p message ++ after)) =
          .ok (some ⟨p.location, String.ofList (trim message)⟩) ↔ p.line.length ≤ Decimal.maxDigits)) := by
  refine ⟨fun hblank hafter => ?_, fun hquote hmessage hafter => ?_⟩
  · rw [parse_placeFirst p hline hblank hbefore hafter]
    exact reading_eq_ok p message
  · rw [parse_messageFirst p hline hquote hbefore hmessage hafter]
    exact reading_eq_ok p message

def samplePlace : Place where
  path := "src/lib.rs".toList
  line := "17".toList
  column := "5".toList
  path_ne := by decide
  path_plain := by
    have hall : ("src/lib.rs".toList.all fun c => decide (isBlank c = false ∧ c ≠ ':' ∧ c ≠ '\'')) = true := by decide
    exact fun c hc => of_decide_eq_true (all_eq_true.mp hall c hc)
  line_ne := by decide
  line_digits := by decide
  column_ne := by decide
  column_digits := by decide

theorem panic_reads_back_samplePlace :
    parse ("thread 'main' ".toList ++ (placeFirstText samplePlace "boom ".toList ++ "\nnote".toList)) =
        .ok (some ⟨samplePlace.location, "boom"⟩) ∧
      parse ("thread 'main' ".toList ++ (messageFirstText samplePlace "boom ".toList ++ "\nnote".toList)) =
        .ok (some ⟨samplePlace.location, "boom"⟩) := by
  have hwords : ∀ t ∈ ["thread 'main' ".toList, "boom ".toList, "\nnote".toList], ¬ words <:+: t :=
    fun t ht => not_infix_of_not_mem (c := 'p') (by decide)
      (by revert t; decide)
  have hafter : ¬ HasPanic "\nnote".toList := by
    rintro ⟨u, v, huv, hv⟩
    obtain ⟨r, rfl⟩ := hv.exists_words
    exact hwords "\nnote".toList (by decide) ⟨u, r, by rw [huv, List.append_assoc]⟩
  have hboom : String.ofList (trim "boom ".toList) = "boom" := by decide
  obtain ⟨hfirst, hsecond⟩ := panic_reads_back samplePlace "boom ".toList "thread 'main' ".toList
    "\nnote".toList (by decide) (hwords _ (by decide))
  rw [hboom] at hfirst hsecond
  exact ⟨(hfirst (by decide) (by decide)).mpr (by decide),
    (hsecond (by decide) (hwords _ (by decide)) hafter).mpr (by decide)⟩

theorem panic_unread_of_longSeven : ∃ p : Place, p.line = longSeven ∧
    parse (placeFirstText p "boom".toList) = .error ⟨Decimal.maxDigits + 1⟩ := by
  let p : Place :=
    { samplePlace with line := longSeven, line_ne := by simp [longSeven], line_digits := all_longSeven }
  have hread : parse ([] ++ (placeFirstText p "boom".toList ++ [])) = reading p "boom".toList :=
    parse_placeFirst p (by decide) (by decide) (not_infix_of_not_mem (c := 'p') (by decide) (by decide)) rfl
  rw [List.append_nil, List.nil_append] at hread
  refine ⟨p, rfl, hread.trans ?_⟩
  rw [reading, natOfDigits, show p.line.length = maxDigits + 1 from length_longSeven,
    if_pos (Nat.lt_succ_self _)]
  rfl

end ContractAudit.Panic

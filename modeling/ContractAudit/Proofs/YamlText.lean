import Mathlib.Data.List.Basic
import ContractAudit.Hash.Sha2
import ContractAudit.Proofs.Sorting
import ContractAudit.Yaml.Writer

/-! # YAML texts

A text written as YAML has printable ASCII characters and line feeds only (`noSpecial_render`), so its bytes
are read as that text (`decode_utf8`, `unifyNewlines_of_noSpecial`). -/

namespace ContractAudit.Yaml
open Text List Base64

/-- No character needs an escape: there are printable ASCII characters and line feeds only. -/
def NoSpecial (cs : List Char) : Prop := ∀ c ∈ cs, isSpecial c = false

section
variable {c : Char} {cs cs' : List Char}

@[simp] theorem noSpecial_nil : NoSpecial [] := nofun

@[simp] theorem noSpecial_cons : NoSpecial (c :: cs) ↔ isSpecial c = false ∧ NoSpecial cs := forall_mem_cons

@[simp] theorem noSpecial_append : NoSpecial (cs ++ cs') ↔ NoSpecial cs ∧ NoSpecial cs' :=
  forall_mem_append

@[simp] theorem noSpecial_reverse : NoSpecial cs.reverse ↔ NoSpecial cs := by simp [NoSpecial]

theorem NoSpecial.subset (h : NoSpecial cs) (hsub : cs' ⊆ cs) : NoSpecial cs' := fun c hc => h c (hsub hc)

theorem noSpecial_replicate (n : Nat) (h : isSpecial c = false) : NoSpecial (replicate n c) := by
  intro d hd
  rw [(mem_replicate.mp hd).2, h]

@[simp] theorem noSpecial_spaces (n : Nat) : NoSpecial (spaces n) := noSpecial_replicate n rfl

@[simp] theorem isSpecial_newline : isSpecial '\n' = false := rfl

@[simp] theorem isSpecial_space : isSpecial ' ' = false := rfl

@[simp] theorem isSpecial_backslash : isSpecial '\\' = false := rfl

@[simp] theorem isSpecial_quote : isSpecial '\'' = false := rfl

theorem noSpecial_flatMap {f : Char → List Char} (h : ∀ c ∈ cs, NoSpecial (f c)) : NoSpecial (cs.flatMap f) := by
  intro d hd
  obtain ⟨c, hc, hd⟩ := mem_flatMap.mp hd
  exact h c hc d hd

theorem isSpecial_of_le (hlow : 0x20 ≤ c.toNat) (hhigh : c.toNat ≤ 0x7e) : isSpecial c = false := by
  simp [isSpecial, hlow, hhigh]

end

/-! ### Folded texts -/

/-- Folding adds line feeds and spaces only. -/
theorem noSpecial_foldPlain {cs : List Char} (h : NoSpecial cs) (indent : Nat) (kept : Bool) (column : Nat) :
    NoSpecial (foldPlain indent kept column cs) := by
  induction cs generalizing kept column with
  | nil => exact noSpecial_nil
  | cons c r ih =>
    obtain ⟨hc, hr⟩ := noSpecial_cons.mp h
    have hfold := ih hr
    by_cases hspace : c = ' '
    · subst hspace
      rw [foldPlain]
      split <;> simp [hfold]
    · rw [foldPlain]
      · exact noSpecial_cons.mpr ⟨hc, hfold _ _⟩
      · exact hspace

/-- Folding a quoted text doubles quotes and line ends and adds no other character. -/
theorem noSpecial_foldSingle {cs : List Char} (h : NoSpecial cs) (indent : Nat) :
    (∀ kept column, NoSpecial (foldSingle indent kept column cs)) ∧ NoSpecial (foldSingle.skipBreaks indent cs) := by
  induction cs with
  | nil => simp [foldSingle, foldSingle.skipBreaks]
  | cons c r ih =>
    obtain ⟨hc, hr⟩ := noSpecial_cons.mp h
    obtain ⟨hfold, hbreaks⟩ := ih hr
    have hends := hr.subset (takeWhile_subset isLineEnd)
    by_cases hspace : c = ' '
    · subst hspace
      refine ⟨fun kept column => ?_, ?_⟩
      · rw [foldSingle]
        split <;> simp [hfold]
      · simp [foldSingle.skipBreaks, hfold]
    · by_cases hquote : c = '\''
      · subst hquote
        refine ⟨fun kept column => ?_, ?_⟩
        · simp [foldSingle, hfold]
        · simp [foldSingle.skipBreaks, hfold]
      · refine ⟨fun kept column => ?_, ?_⟩
        · rw [foldSingle]
          · split
            · dsimp only
              split <;> simp [hc, hends, hbreaks]
            · simp [hc, hfold]
          · exact hspace
          · exact hquote
        · rw [foldSingle.skipBreaks]
          · split
            · exact hbreaks
            · simp [hc, hfold]
          · exact hquote
          · exact hspace

theorem isSpecial_digitChar {n : Nat} (h : n < 16) : isSpecial (Nat.digitChar n).toUpper = false := by
  revert n
  decide

theorem noSpecial_hexUpper (width n : Nat) : NoSpecial (hexUpper width n) := by
  have hdigits (n : Nat) : NoSpecial ((Nat.toDigits 16 n).map Char.toUpper) := by
    induction n using Nat.strongRecOn with
    | ind n ih =>
      rw [Nat.toDigits_eq_if (by decide)]
      split
      · next hn => simp [isSpecial_digitChar hn]
      · next hn => simp [ih (n / 16) (by omega), isSpecial_digitChar (Nat.mod_lt n (by decide))]
  simp [hexUpper, hdigits, noSpecial_replicate _ (show isSpecial '0' = false from rfl)]

/-- What is escaped is written with printable characters. -/
theorem noSpecial_escapeDouble (c : Char) : NoSpecial (escapeDouble c) := by
  have hletters : ∀ e ∈ Scan.escapes, isSpecial e.1 = false := by decide
  unfold escapeDouble
  dsimp only
  split
  · next e he => simp [hletters e (mem_of_find?_eq_some he)]
  · split
    · next hprinted =>
      rw [Bool.and_eq_true, decide_eq_true_iff, decide_eq_true_iff] at hprinted
      simp [isSpecial_of_le hprinted.1 hprinted.2]
    · split
      · simp [noSpecial_hexUpper, show isSpecial 'x' = false from rfl]
      · split
        · simp [noSpecial_hexUpper, show isSpecial 'u' = false from rfl]
        · simp [noSpecial_hexUpper, show isSpecial 'U' = false from rfl]

theorem noSpecial_mark (p : Prop) [Decidable p] : NoSpecial (if p then ['\\'] else []) := by
  split <;> simp

theorem noSpecial_foldDouble (indent before column : Nat) (escaped : Bool) (cs : List Char) :
    NoSpecial (foldDouble indent before column escaped cs) := by
  induction cs generalizing before column escaped with
  | nil => simp [foldDouble]
  | cons c r ih =>
    have hc := noSpecial_escapeDouble c
    rw [foldDouble]
    dsimp only
    split
    · split
      · simp [hc, ih, noSpecial_mark]
      · simp [hc, ih]
    · next hsame =>
      have hplain : isSpecial c = false := by
        rw [bne_iff_ne, not_not] at hsame
        rw [hsame] at hc
        exact (noSpecial_cons.mp hc).1
      split
      · simp [hplain, ih, noSpecial_mark]
      · simp [hplain, ih]

/-! ### Scalars -/

theorem noSpecial_of_isDigit {cs : List Char} (h : ∀ c ∈ cs, c.isDigit = true) : NoSpecial cs := by
  intro c hc
  obtain ⟨hlow, hhigh⟩ := Char.isDigit_iff_toNat.mp (h c hc)
  have hzero : '0'.toNat = 48 := rfl
  have hnine : '9'.toNat = 57 := rfl
  exact isSpecial_of_le (by omega) (by omega)

theorem noSpecial_paddedNumeral (width n : Nat) : NoSpecial (paddedNumeral width n).toList := by
  have hdigits : NoSpecial (Nat.toDigits 10 n) :=
    noSpecial_of_isDigit fun c => Nat.isDigit_of_mem_toDigits (by decide) (by decide)
  simp [paddedNumeral, hdigits, noSpecial_replicate _ (show isSpecial '0' = false from rfl)]

theorem isSpecial_ofNat {n : Nat} (hlow : 0x20 ≤ n) (hhigh : n ≤ 0x7e) : isSpecial (Char.ofNat n) = false := by
  have hall : ∀ n, n < 0x7f → 0x20 ≤ n → isSpecial (Char.ofNat n) = false := by decide
  exact hall n (by omega) hlow

theorem isSpecial_base64 (n : Nat) : isSpecial (digit n) = false := by
  unfold digit
  split
  · exact isSpecial_ofNat (by omega) (by omega)
  · split
    · exact isSpecial_ofNat (by omega) (by omega)
    · split
      · exact isSpecial_ofNat (by omega) (by omega)
      · split <;> rfl

theorem noSpecial_base64 (bs : List UInt8) : NoSpecial (encode bs) := by
  fun_induction encode bs <;> simp [isSpecial_base64, *, show isSpecial '=' = false from rfl]

theorem noSpecial_base64Lines (bs : List UInt8) : NoSpecial (lines bs) := by
  have hlines (fuel : Nat) (bs : List UInt8) : NoSpecial (Base64.linesFrom fuel bs) := by
    induction fuel generalizing bs with
    | zero => exact noSpecial_nil
    | succ fuel ih =>
      rw [Base64.linesFrom]
      split
      · exact noSpecial_nil
      · simp [noSpecial_base64, ih]
  exact hlines _ bs

theorem noSpecial_tagText (t : Tag) : NoSpecial (tagText t).toList := by
  have hnames : (tagText t).toList.all (!isSpecial ·) = true := by cases t <;> decide +kernel
  intro c hc
  simpa using all_eq_true.mp hnames c hc

/-- A text with special characters is never written plain. -/
theorem noSpecial_of_allowsPlain {cs : List Char} (h : allowsPlain cs = true) : NoSpecial cs := by
  cases cs with
  | nil => exact noSpecial_nil
  | cons c r =>
    intro d hd
    simp only [allowsPlain, Bool.and_eq_true, Bool.not_eq_true', any_eq_false] at h
    exact Bool.eq_false_iff.mpr (h.1.1.1.2 d hd)

theorem noSpecial_of_allowsSingle {cs : List Char} (h : allowsSingle cs = true) : NoSpecial cs := by
  intro d hd
  simp only [allowsSingle, Bool.and_eq_true, Bool.not_eq_true', any_eq_false] at h
  exact Bool.eq_false_iff.mpr (h.1.1 d hd)

theorem noSpecial_of_binary {x : Scalar} (h : (scalarText x).1 = .binary) : NoSpecial (scalarText x).2.toList := by
  cases x with
  | bytes bs => simp [scalarText, noSpecial_base64Lines]
  | _ => cases h

section
variable {key : Bool} {tag : Tag} {cs : List Char}

theorem allowsPlain_of_styleOf (h : styleOf key tag cs = .plain) : allowsPlain cs = true := by
  unfold styleOf at h
  grind

theorem allowsSingle_of_styleOf (h : styleOf key tag cs = .single) : allowsSingle cs = true := by
  unfold styleOf at h
  grind

theorem binary_of_styleOf (h : styleOf key tag cs = .literal) : tag = .binary := by
  unfold styleOf at h
  grind

end

/-! ### Sheets -/

/-- The names of anchors need no escapes. -/
def Names.Clean (names : Names) : Prop := ∀ e ∈ names, NoSpecial e.2.toList

namespace Sheet
variable {s : Sheet}

/-- What was written so far needs no escapes. -/
def Clean (s : Sheet) : Prop := NoSpecial s.text

section
variable {cs : List Char} {m : String} (h : s.Clean)
include h

theorem Clean.put (hcs : NoSpecial cs) : (s.put cs).Clean :=
  noSpecial_append.mpr ⟨noSpecial_reverse.mpr hcs, h⟩

theorem Clean.newline : s.newline.Clean := noSpecial_cons.mpr ⟨rfl, h⟩

theorem Clean.indentTo (n : Nat) : (s.indentTo n).Clean := by
  unfold Sheet.indentTo
  extract_lets s'
  have hs' : s'.Clean := by
    unfold s'
    split
    · exact h.newline
    · exact h
  split
  · exact hs'.put (noSpecial_spaces _)
  · exact hs'

theorem Clean.mark (hm : NoSpecial m.toList) : (s.mark m).Clean := by
  have hcs : NoSpecial (if s.spaced then m.toList else ' ' :: m.toList) := by
    split
    · exact hm
    · exact noSpecial_cons.mpr ⟨rfl, hm⟩
  exact h.put hcs

theorem Clean.close (hm : NoSpecial m.toList) : (s.close m).Clean := h.put hm

theorem Clean.lead (hm : NoSpecial m.toList) : (s.lead m).Clean := h.mark hm

theorem Clean.lines (hcs : NoSpecial cs) (indent : Nat) : (s.lines indent cs).Clean := by
  unfold Sheet.lines
  refine List.foldlRecOn _ _ h fun s hs line hline => ?_
  split
  · exact hs
  · exact ((hs.indentTo indent).put (hcs.subset fun c hc => mem_of_mem_splitOnChar hline hc)).newline

theorem Clean.plainScalar (hcs : NoSpecial cs) (key : Bool) (indent : Nat) :
    ((if s.spaced then s else s.put [' ']).put (if key then cs
      else foldPlain indent false (if s.spaced then s else s.put [' ']).column cs)).Clean := by
  have hs : (if s.spaced then s else s.put [' ']).Clean := by
    split
    · exact h
    · exact h.put (by simp)
  refine hs.put ?_
  split
  · exact hcs
  · exact noSpecial_foldPlain hcs indent _ _

/-- Whatever its style, a scalar adds clean text. -/
theorem Clean.scalar (key : Bool) (indent : Nat) (x : Scalar) : (s.scalar key indent x).Clean := by
  unfold Sheet.scalar
  have hbinary : (scalarText x).1 = .binary → NoSpecial (scalarText x).2.toList := noSpecial_of_binary
  generalize scalarText x = written at hbinary
  obtain ⟨tag, text⟩ := written
  dsimp only at hbinary ⊢
  have hs' : (if styleOf key tag text.toList == .plain || tag == .str then s else s.mark (tagText tag)).Clean := by
    split
    · exact h
    · exact h.mark (noSpecial_tagText tag)
  generalize (if styleOf key tag text.toList == .plain || tag == .str then s else s.mark (tagText tag)) = s' at hs'
  cases hstyle : styleOf key tag text.toList with
  | plain => exact hs'.plainScalar (noSpecial_of_allowsPlain (allowsPlain_of_styleOf hstyle)) key indent
  | single =>
    have hcs := noSpecial_of_allowsSingle (allowsSingle_of_styleOf hstyle)
    refine ((hs'.mark (by simp)).put ?_).close (by simp)
    split
    · refine noSpecial_flatMap fun c hc => ?_
      split
      · simp
      · simp [hcs c hc]
    · exact (noSpecial_foldSingle hcs indent).1 _ _
  | double =>
    refine ((hs'.mark (by simp [isSpecial])).put ?_).close (by simp [isSpecial])
    split
    · exact noSpecial_flatMap fun c _ => noSpecial_escapeDouble c
    · exact noSpecial_foldDouble _ _ _ _ _
  | literal => exact (hs'.mark (by simp [isSpecial])).newline.lines (hbinary (binary_of_styleOf hstyle)) indent

end

/-! ### Layout -/

variable {names : Names}

/-- An anchor or an alias is clean, and so is what is written under it. -/
theorem Clean.visit {inside : Sheet → Sheet} (h : s.Clean) (hnames : Names.Clean names) (id : Option Nat)
    (hinside : ∀ s : Sheet, s.Clean → (inside s).Clean) : (s.visit names id inside).Clean := by
  unfold Sheet.visit
  split
  · exact hinside s h
  · split
    · exact hinside s h
    · next name hname =>
      have hclean : NoSpecial name.toList := by
        obtain ⟨pre, post, rfl, -⟩ := lookup_eq_some_iff.mp hname
        exact hnames (_, name) (mem_append_right _ mem_cons_self)
      split
      · exact h.mark (by simp [isSpecial, hclean])
      · exact hinside _ (h.mark (m := "&" ++ name) (by simp [isSpecial, hclean]))

theorem Clean.leaf (h : s.Clean) (hnames : Names.Clean names) (key : Bool) (indent : Nat) (d : Data) :
    (s.leaf names key indent d).Clean :=
  h.visit hnames d.id? fun _ hs => hs.scalar key indent _

theorem Clean.key (h : s.Clean) (hnames : Names.Clean names) (indent : Nat) (k : Data) :
    (s.key names indent k).Clean := by
  unfold Sheet.key
  dsimp only
  split
  · exact ((h.indentTo indent).leaf hnames true _ k).close (by simp [isSpecial])
  · exact ((((h.indentTo indent).lead (by simp [isSpecial])).leaf hnames false _ k).indentTo indent).lead
      (by simp [isSpecial])

end Sheet

/-! ### Documents -/

theorem clean_visit {a : Anchors} {inside : Anchors → Anchors} (h : Names.Clean a.names) (id : Option Nat)
    (hinside : ∀ a : Anchors, Names.Clean a.names → Names.Clean (inside a).names) :
    Names.Clean (a.visit id inside).names := by
  unfold Anchors.visit
  split
  · exact hinside a h
  · split
    · exact hinside _ h
    · split
      · exact h
      · refine forall_mem_append.mpr ⟨h, ?_⟩
        simp [isSpecial, noSpecial_paddedNumeral]

mutual

theorem clean_anchorsOf : (d : Data) → {a : Anchors} → Names.Clean a.names → Names.Clean (anchorsOf d a).names
  | .scalar _, _, h => h
  | .timestamp i _, _, h => clean_visit h i fun _ ha => ha
  | .list i items, _, h => clean_visit h i fun _ ha => clean_anchorsOfItems items ha
  | .set i items, _, h => clean_visit h i fun _ ha => clean_anchorsOfItems items ha
  | .pair x y, _, h => clean_anchorsOf y (clean_anchorsOf x h)
  | .map i entries, _, h => clean_visit h i fun _ ha => clean_anchorsOfEntries entries ha

theorem clean_anchorsOfItems : (ds : List Data) → {a : Anchors} → Names.Clean a.names →
    Names.Clean (anchorsOfItems ds a).names
  | [], _, h => h
  | d :: s, _, h => clean_anchorsOfItems s (clean_anchorsOf d h)

theorem clean_anchorsOfEntries : (es : List (Data × Data)) → {a : Anchors} → Names.Clean a.names →
    Names.Clean (anchorsOfEntries es a).names
  | [], _, h => h
  | (k, v) :: s, _, h => clean_anchorsOfEntries s (clean_anchorsOf v (clean_anchorsOf k h))

end

section
variable {names : Names}

mutual

/-- Writing keeps a sheet clean. -/
theorem clean_write (hnames : Names.Clean names) : (d : Data) → (value : Bool) → (indent : Option Nat) → {s : Sheet} →
    s.Clean → (write names value indent d s).Clean
  | .scalar x, _, _, _, h => h.scalar false _ x
  | .timestamp i t, _, _, _, h => h.leaf hnames false _ (.timestamp i t)
  | .list i items, value, indent, s, h => h.visit hnames i fun s hs => by
    split
    · exact hs.mark (by simp [isSpecial])
    · exact clean_writeItems hnames items _ hs
  | .pair a b, value, indent, s, h => by
    rw [write]
    have hfirst := clean_write hnames a false (some (blockColumn indent (value && !s.fresh)))
      ((h.indentTo (blockColumn indent (value && !s.fresh))).lead (m := "-") (by simp [isSpecial]))
    exact clean_write hnames b false _ ((hfirst.indentTo _).lead (by simp [isSpecial]))
  | .set i items, value, indent, s, h => h.visit hnames i fun s hs => by
    have hmark := hs.mark (noSpecial_tagText .set)
    dsimp only
    split
    · exact hmark.mark (by simp [isSpecial])
    · exact List.foldlRecOn _ _ hmark fun s hs k _ => (hs.key hnames _ k).scalar false _ .null
  | .map i entries, value, indent, s, h => h.visit hnames i fun s hs => by
    split
    · exact hs.mark (by simp [isSpecial])
    · exact clean_writeEntries hnames entries _ hs

theorem clean_writeItems (hnames : Names.Clean names) : (ds : List Data) → (column : Nat) → {s : Sheet} → s.Clean →
    (writeItems names column ds s).Clean
  | [], _, _, h => h
  | d :: r, column, _, h =>
    clean_writeItems hnames r column (clean_write hnames d false _ ((h.indentTo column).lead (by simp [isSpecial])))

theorem clean_writeEntries (hnames : Names.Clean names) : (es : List (Data × Data)) → (column : Nat) → {s : Sheet} →
    s.Clean → (writeEntries names column es s).Clean
  | [], _, _, h => h
  | (k, v) :: r, column, _, h =>
    clean_writeEntries hnames r column (clean_write hnames v true _ (h.key hnames column k))

end

end

/-- Whatever is written, its text has printable ASCII characters and line feeds only. -/
theorem noSpecial_render (d : Data) : NoSpecial (render d).toList := by
  have hnames : Names.Clean (anchorsOf d.sorted {}).names := clean_anchorsOf d.sorted nofun
  have hwritten := clean_write hnames d.sorted false none (s := {}) noSpecial_nil
  rw [render, String.toList_ofList, noSpecial_reverse]
  exact hwritten.indentTo 0

/-! ### Bytes -/

theorem toList_toByteArray (bs : List UInt8) : bs.toByteArray.toList = bs := by
  have hloop (b : ByteArray) (i : Nat) (r : List UInt8) :
      ByteArray.toList.loop b i r = r.reverse ++ b.data.toList.drop i := by
    fun_induction ByteArray.toList.loop b i r with
    | case1 i r h ih =>
      have hi : i < b.data.toList.length := by simpa using h
      rw [ih, drop_eq_getElem_cons hi]
      simp [ByteArray.get!, h]
    | case2 i r h =>
      rw [drop_eq_nil_of_le (by simpa using Nat.le_of_not_lt h)]
      simp
  rw [ByteArray.toList, hloop, data_toByteArray]
  rfl

theorem utf8_ofList (cs : List Char) : Hash.utf8 (String.ofList cs) = cs.flatMap String.utf8EncodeChar := by
  rw [Hash.utf8, String.toUTF8, String.toByteArray_ofList, List.utf8Encode, toList_toByteArray]

/-- What needs no escape is ASCII and no carriage return. -/
theorem toNat_of_not_special {c : Char} (h : isSpecial c = false) : c.toNat < 0x80 ∧ c ≠ '\r' := by
  simp only [isSpecial, Bool.not_eq_false', Bool.or_eq_true, beq_iff_eq, Bool.and_eq_true, decide_eq_true_eq] at h
  rcases h with rfl | h
  · decide
  · refine ⟨by omega, fun hc => ?_⟩
    subst hc
    exact absurd h (by decide)

/-- ASCII characters are read from the bytes that they were written as. -/
theorem decodeFrom_ascii {cs : List Char} (h : ∀ c ∈ cs, c.toNat < 0x80) (offset : Nat) :
    Text.decodeFrom offset (cs.flatMap String.utf8EncodeChar) = .ok cs := by
  induction cs generalizing offset with
  | nil => rw [flatMap_nil, Text.decodeFrom]
  | cons c cs ih =>
    obtain ⟨hc, hcs⟩ := forall_mem_cons.mp h
    have hbyte : String.utf8EncodeChar c = [UInt8.ofNat c.toNat] := if_pos (Nat.le_of_lt_succ hc)
    have hnat : (UInt8.ofNat c.toNat).toNat = c.toNat := UInt8.toNat_ofNat_of_lt' (Nat.lt_trans hc (by decide))
    have hnext : decodeNext (UInt8.ofNat c.toNat) (cs.flatMap String.utf8EncodeChar) = .char c 0 := by
      rw [decodeNext, hnat, if_pos hc, Char.ofNat_toNat]
    rw [flatMap_cons, hbyte, singleton_append, Text.decodeFrom, hnext]
    dsimp only
    rw [drop_zero, ih hcs]
    rfl

theorem unifyNewlines_of_not_mem {cs : List Char} (h : '\r' ∉ cs) : unifyNewlines cs = cs := by
  induction cs with
  | nil => rfl
  | cons c cs ih =>
    rw [mem_cons, not_or] at h
    rw [unifyNewlines, if_neg (by simpa using Ne.symm h.1), ih h.2]
    rintro r rfl
    exact (h.1 rfl).elim

theorem decode_utf8 {text : String} (h : NoSpecial text.toList) : Text.decode (Hash.utf8 text) = .ok text.toList := by
  rw [← String.ofList_toList (s := text), utf8_ofList, String.toList_ofList]
  exact decodeFrom_ascii (fun c hc => (toNat_of_not_special (h c hc)).1) 0

theorem unifyNewlines_of_noSpecial {cs : List Char} (h : NoSpecial cs) : unifyNewlines cs = cs :=
  unifyNewlines_of_not_mem fun hr => (toNat_of_not_special (h _ hr)).2 rfl

/-! ### Order -/

/-- Entries with text keys are sorted as their keys are. -/
theorem sortByKey_map {ks ls : List String} (f : String → Data) (hperm : ks.Perm ls)
    (hls : ls.Pairwise fun a b => (compare a b).isLE) :
    sortByKey (ks.map fun k => (.scalar (.str k), f k)) = ls.map fun k => (.scalar (.str k), f k) := by
  have hsort : ks.mergeSort (fun a b => (compare a b).isLE) = ls := by
    refine Perm.eq_of_pairwise (fun a b _ _ hab hba => ?_) (pairwise_mergeSort_isLE compare ks) hls
      ((mergeSort_perm ks _).trans hperm)
    exact (isOrder_isLE compare).antisymm a b hab hba
  rw [← hsort]
  cases ks with
  | nil => simp [sortByKey]
  | cons a ks =>
    cases ks with
    | nil => simp [sortByKey]
    | cons b ks =>
      rw [map_cons, map_cons, sortByKey, if_pos]
      · exact (map_mergeSort (r := fun a b => (compare a b).isLE) (f := fun k => (Data.scalar (.str k), f k))
          (l := a :: b :: ks) fun _ _ _ _ => rfl).symm
      · simp [Function.comp_def, Data.scalar?, Scalar.compare?, Scalar.counted]
      · intro h
        cases h

end ContractAudit.Yaml

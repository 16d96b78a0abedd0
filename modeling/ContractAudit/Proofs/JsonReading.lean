import ContractAudit.Proofs.JsonText
import ContractAudit.Proofs.NumberText
import ContractAudit.Proofs.Records
import ContractAudit.Proofs.Sorting
import ContractAudit.Text.Parts

/-! # Reading what was written as JSON

A text with sorted keys reads back, however it is laid out: as the value itself up to the order of entries,
with lists for tuples and with texts for what JSON does not know (`ReadAs`). -/

namespace ContractAudit
open Float.Model Float.Model.UnpackedFloat List
variable {es : Entries} {v : Value} {s t rest r : List Char} {x : Scalar} {raw : Bool}

namespace Json
open Rounding Decimal

/-! ### What is read -/

/-- The value can be read back: its numbers are finite and no two keys of a map have one text. -/
inductive Writable : Value → Prop
  | scalar {s : Scalar} (finite : ∀ x, s = .float x → x.isFinite = true) : Writable (.scalar s)
  | list {vs : List Value} (items : ∀ v ∈ vs, Writable v) : Writable (.list vs)
  | tuple {vs : List Value} (items : ∀ v ∈ vs, Writable v) : Writable (.tuple vs)
  | set (items : List Scalar) : Writable (.set items)
  | map {entries : Entries} (keys : (entries.map fun e => keyText e.1).Nodup)
      (values : ∀ e ∈ entries, Writable e.2) : Writable (.map entries)

/-- The second value is the first one as it is read from a text: the items of a list in their order,
    and each key of a map with its value. -/
inductive ReadAs : Value → Value → Prop
  | scalar (s : Scalar) : ReadAs (.scalar s) (.scalar (decodedScalar s))
  | list {vs ws : List Value} (length : vs.length = ws.length)
      (items : ∀ (i : Nat) v w, vs[i]? = some v → ws[i]? = some w → ReadAs v w) : ReadAs (.list vs) (.list ws)
  | tuple {vs ws : List Value} (length : vs.length = ws.length)
      (items : ∀ (i : Nat) v w, vs[i]? = some v → ws[i]? = some w → ReadAs v w) : ReadAs (.tuple vs) (.list ws)
  | set (items : List Scalar) : ReadAs (.set items) (.str (Value.set items).shown)
  | map {es fs : Entries} (keys : (fs.map (·.1)).Perm (es.map fun e => .str (keyText e.1)))
      (values : ∀ k v w, (k, v) ∈ es → (.str (keyText k), w) ∈ fs → ReadAs v w) : ReadAs (.map es) (.map fs)

theorem eq_of_keyText (hkeys : (es.map fun e => keyText e.1).Nodup) {e e' : Scalar × Value}
    (he : e ∈ es) (he' : e' ∈ es) (h : keyText e.1 = keyText e'.1) : e = e' :=
  inj_on_of_nodup_map hkeys he he' h

theorem readAs_decoded (hv : Writable v) : ReadAs v (decoded v) := by
  have items : ∀ {vs : List Value}, (∀ v ∈ vs, Writable v → ReadAs v (decoded v)) → (∀ v ∈ vs, Writable v) →
      ∀ (i : Nat) v w, vs[i]? = some v → (vs.map decoded)[i]? = some w → ReadAs v w := by
    intro vs ih hvs i v w hv hw
    rw [getElem?_map, hv] at hw
    cases hw
    exact ih v (mem_of_getElem? hv) (hvs v (mem_of_getElem? hv))
  induction v using Value.induct with
  | scalar s => exact .scalar s
  | list vs ih =>
    obtain _ | hvs := hv
    rw [decoded, decodedItems_eq_map]
    exact .list (length_map _).symm (items ih hvs)
  | tuple vs ih =>
    obtain _ | _ | hvs := hv
    rw [decoded, decodedItems_eq_map]
    exact .tuple (length_map _).symm (items ih hvs)
  | set vs => exact .set vs
  | map es ih =>
    obtain _ | _ | _ | _ | ⟨hkeys, hes⟩ := hv
    rw [decoded_map]
    have hsorted : (es.mergeSort keyLe).Perm es := mergeSort_perm _ _
    refine .map ?_ ?_
    · rw [map_map]
      exact hsorted.map _
    · intro k v w hv hw
      obtain ⟨e, he, hew⟩ := mem_map.mp hw
      have hkey : keyText e.1 = keyText k := Scalar.str.inj (congrArg Prod.fst hew)
      cases eq_of_keyText hkeys (hsorted.mem_iff.mp he) hv hkey
      cases hew
      exact ih _ hv (hes _ hv)

/-! ### White space -/

def Spaces (s : List Char) : Prop := ∀ c ∈ s, isSpace c = true

theorem spaces_nil : Spaces [] := by
  intro c hc
  cases hc

theorem skipSpace_spaces (hs : Spaces s) (t : List Char) : skipSpace (s ++ t) = skipSpace t :=
  dropWhile_append_of_pos hs

theorem skipSpace_cons {c : Char} (hc : isSpace c = false) (t : List Char) : skipSpace (c :: t) = c :: t :=
  dropWhile_cons_of_neg (by simp [hc])

theorem endsNumber_cons {c : Char} (hc : c.isDigit = false ∧ c ≠ '.' ∧ c ≠ 'e' ∧ c ≠ 'E') (t : List Char) :
    EndsNumber (c :: t) := by
  intro c' r h
  cases h
  exact hc

theorem endsNumber_nil : EndsNumber [] := by
  intro c r h
  cases h

theorem EndsNumber.spaces (hs : Spaces s) (ht : EndsNumber t) : EndsNumber (s ++ t) := by
  cases s with
  | nil => exact ht
  | cons c s =>
    have hc := hs c mem_cons_self
    simp only [isSpace, Bool.or_eq_true, beq_iff_eq] at hc
    refine endsNumber_cons ?_ _
    rcases hc with ((rfl | rfl) | rfl) | rfl <;> decide

/-! ### Scalars -/

theorem absoluteBits_lt {x : Float} (h : x.isFinite = true) : absoluteBits x < 0x7ff0000000000000 := by
  obtain ⟨⟨bits, hvalid⟩⟩ := x
  obtain ⟨b, hb⟩ : ∃ b : BitVec Float.Model.Format.binary64.numBits, UInt64.ofBitVec b = bits := ⟨bits.toBitVec, rfl⟩
  subst hb
  have hunpack : (unpack .binary64 b).isFinite = true := h
  have habsolute : absoluteBits (.ofModel ⟨UInt64.ofBitVec b, hvalid⟩) = b.toNat % 2 ^ 63 := rfl
  have hlt : b.toNat < 2 ^ 64 := b.isLt
  rw [habsolute]
  by_contra hge
  -- the largest exponent is that of the infinities and of what is not a number
  have hexponent : unpackExponent b = -BitVec.ofNat Float.Model.Format.binary64.exponentBits 1 := by
    refine BitVec.eq_of_toNat_eq ?_
    rw [toNat_unpackExponent]
    change _ = 2047
    omega
  rw [UnpackedFloat.unpack] at hunpack
  simp only [if_pos hexponent] at hunpack
  split at hunpack
  · cases hunpack
  · cases hunpack

theorem number_of_isFinite {x : Float} (h : x.isFinite = true) : number x = Decimal.text x := by
  have hkind : x.isNaN = false ∧ x.isInf = false := by
    simp only [Float.isFinite, Float.isNaN, Float.isInf, Float.Model.isFinite, Float.Model.isNaN,
      Float.Model.isInf] at h ⊢
    generalize Float.Model.unpack _ = u at h ⊢
    cases u with
    | notANumber => cases h
    | infinity => cases h
    | zero => exact ⟨rfl, rfl⟩
    | finite => exact ⟨rfl, rfl⟩
  rw [number, hkind.1, hkind.2]
  rfl

theorem int_inj {a b : Int} (h : toString a = toString b) : a = b := by
  have ha := readNumber?_int a endsNumber_nil
  rw [h, readNumber?_int b endsNumber_nil] at ha
  cases ha
  rfl

theorem readValue?_number (h : readNumber? s = some (x, rest)) (fuel : Nat) :
    readValue? raw (fuel + 1) s = some (.scalar x, rest) := by
  -- a name is no number
  have other {u : List Char} (hu : ∀ r, readNumber? (u ++ r) = none) : u.isPrefixOf s = false := by
    rw [← Bool.not_eq_true]
    intro hs
    obtain ⟨r, rfl⟩ := isPrefixOf_iff_prefix.mp hs
    rw [hu] at h
    cases h
  have hkeyword : keyword? raw s = none := by
    rw [keyword?, other fun _ => rfl, other fun _ => rfl, other fun _ => rfl, other fun _ => rfl, other fun _ => rfl,
      other fun _ => rfl, Bool.and_false]
    rfl
  rw [readValue?, hkeyword, h]
  · rfl
  all_goals
    rintro s' rfl
    cases h

theorem escapeChar_ne_nil (c : Char) : escapeChar c ≠ [] := by
  intro h
  -- an escape that writes nothing would be read as no character
  have hread := readString?_escapeChar 1 c ['"']
  rw [h] at hread
  cases hread

theorem length_le_escaped (s : List Char) : s.length ≤ (s.flatMap escapeChar).length := by
  induction s with
  | nil => exact Nat.le_refl 0
  | cons c s ih =>
    have hc := length_pos_iff.mpr (escapeChar_ne_nil c)
    rw [flatMap_cons, length_append, length_cons]
    omega

theorem readString?_string (s : String) (rest : List Char) :
    readString? (s.toList.flatMap escapeChar ++ '"' :: rest).length.succ
      (s.toList.flatMap escapeChar ++ '"' :: rest) = some (s.toList, rest) := by
  refine readString?_written _ _ _ ?_
  have hlength := length_le_escaped s.toList
  rw [length_append]
  omega

theorem toList_string_append (s : String) (rest : List Char) :
    (string s).toList ++ rest = '"' :: (s.toList.flatMap escapeChar ++ '"' :: rest) := by
  rw [toList_string, cons_append, append_assoc, singleton_append]

/-- The text reads back as the value, whatever follows it, and a reader that comes to it finds neither
    white space nor the end of a list. -/
structure ReadsBack (raw : Bool) (t : List Char) (v : Value) : Prop where
  starts : ∃ c r, t = c :: r ∧ isSpace c = false ∧ c ≠ ']'
  reads : ∀ fuel rest, 2 * t.length ≤ fuel → EndsNumber rest → readValue? raw fuel (t ++ rest) = some (v, rest)

theorem ReadsBack.skipSpace (h : ReadsBack raw t v) (rest : List Char) : skipSpace (t ++ rest) = t ++ rest := by
  obtain ⟨c, r, rfl, hc, -⟩ := h.starts
  exact skipSpace_cons hc _

/-- It is enough to read the text with the steps that any text is given. -/
theorem readsBack_of_succ {c : Char} (hc : isSpace c = false ∧ c ≠ ']')
    (h : ∀ fuel rest, 2 * r.length < fuel → EndsNumber rest →
      readValue? raw (fuel + 1) (c :: r ++ rest) = some (v, rest)) :
    ReadsBack raw (c :: r) v := by
  refine ⟨⟨c, r, rfl, hc⟩, ?_⟩
  intro fuel rest hfuel hrest
  rw [length_cons] at hfuel
  obtain ⟨n, rfl⟩ : ∃ n, fuel = n + 1 := ⟨fuel - 1, by omega⟩
  exact h n rest (by omega) hrest

theorem readsBack_number
    (h : ∀ rest, EndsNumber rest → readNumber? (t ++ rest) = some (x, rest)) : ReadsBack raw t (.scalar x) := by
  have hread := h [] endsNumber_nil
  rw [append_nil] at hread
  cases t with
  | nil => cases hread
  | cons c r =>
    refine readsBack_of_succ ?_ fun fuel rest _ hrest => readValue?_number (h rest hrest) fuel
    rw [← Bool.not_eq_true]
    refine ⟨?_, ?_⟩
    · intro hspace
      simp only [isSpace, Bool.or_eq_true, beq_iff_eq] at hspace
      rcases hspace with ((rfl | rfl) | rfl) | rfl <;> cases hread
    · rintro rfl
      cases hread

theorem readsBack_string (s : String) : ReadsBack raw (string s).toList (.str s) := by
  have hread (rest : List Char) (fuel : Nat) :
      readValue? raw (fuel + 1) ((string s).toList ++ rest) = some (.str s, rest) := by
    rw [toList_string_append, readValue?, readString?_string]
    simp only [Option.map_some, String.ofList_toList]
  rw [toList_string] at hread ⊢
  exact readsBack_of_succ (by decide) fun fuel rest _ _ => hread rest fuel

theorem readsBack_keyword {c : Char} (hc : isSpace c = false ∧ c ∉ [']', '"', '[', '{'])
    (h : ∀ rest, keyword? raw (c :: r ++ rest) = some (x, rest)) : ReadsBack raw (c :: r) (.scalar x) := by
  simp only [mem_cons, not_mem_nil, or_false, not_or] at hc
  refine readsBack_of_succ ⟨hc.1, hc.2.1⟩ fun fuel rest _ _ => ?_
  rw [readValue?, h rest]
  · rfl
  all_goals
    intro s' hs
    have := (List.cons.inj hs).1
    simp_all

theorem float_cases (x : Float) : x.isFinite = true ∨ x = 0.0 / 0.0 ∨ x = 1.0 / 0.0 ∨ x = -1.0 / 0.0 := by
  have same (y : Float) (h : x.toModel.unpack = y.toModel.unpack) : x = y :=
    Float.toBits_inj.mp (UInt64.toBitVec_inj.mp ((unpack_inj_of_valid x.toModel.valid y.toModel.valid).mp h))
  have finite (h : x.toModel.unpack.isFinite = true) : x.isFinite = true := h
  cases h : x.toModel.unpack with
  | notANumber => exact .inr (.inl (same _ (h.trans rfl)))
  | infinity s =>
    cases s with
    | positive => exact .inr (.inr (.inl (same _ (h.trans rfl))))
    | negative => exact .inr (.inr (.inr (same _ (h.trans rfl))))
  | zero => exact .inl (finite (h ▸ rfl))
  | finite => exact .inl (finite (h ▸ rfl))

theorem readsBack_scalar {s : Scalar} (h : raw = true ∨ ∀ x, s = .float x → x.isFinite = true) :
    ReadsBack raw (scalar s).toList (.scalar (decodedScalar s)) := by
  cases s with
  | null => exact readsBack_keyword (by decide) fun _ => rfl
  | bool b => cases b <;> exact readsBack_keyword (by decide) fun _ => rfl
  | int n => exact readsBack_number fun rest hrest => readNumber?_int n hrest
  | float x =>
    have named (hx : ¬x.isFinite = true) : raw = true := h.resolve_right fun hfinite => hx (hfinite x rfl)
    rcases float_cases x with hx | rfl | rfl | rfl
    · rw [scalar, number_of_isFinite hx]
      exact readsBack_number fun rest hrest => readNumber?_text (absoluteBits_lt hx) hrest
    · obtain rfl := named (by decide +kernel)
      have htext : number (0.0 / 0.0) = "NaN" := by decide +kernel
      rw [scalar, htext]
      exact readsBack_keyword (by decide) fun _ => rfl
    · obtain rfl := named (by decide +kernel)
      have htext : number (1.0 / 0.0) = "Infinity" := by decide +kernel
      rw [scalar, htext]
      exact readsBack_keyword (by decide) fun _ => rfl
    · obtain rfl := named (by decide +kernel)
      have htext : number (-1.0 / 0.0) = "-Infinity" := by decide +kernel
      rw [scalar, htext]
      exact readsBack_keyword (by decide) fun _ => rfl
  | str s => exact readsBack_string s
  | timestamp t => exact readsBack_string _
  | bytes bs => exact readsBack_string _

/-! ### Items and entries -/

/-- The reader reads an item in front of the closing bracket, and one in front of a comma with more
    behind it. -/
structure RowReader {α β : Type} (R : List Char → α → Prop) (item : α → β) (closing : Char)
    (read : Nat → List Char → Option (List β × List Char)) : Prop where
  closes : isSpace closing = false ∧ closing.isDigit = false ∧ closing ≠ '.' ∧ closing ≠ 'e' ∧ closing ≠ 'E'
  starts : ∀ {t v}, R t v → ∃ c r, t = c :: r ∧ isSpace c = false ∧ c ≠ closing
  last : ∀ {before t tail rest v n}, Spaces before → R t v → 2 * t.length ≤ n → EndsNumber tail →
    skipSpace tail = closing :: rest → read (n + 1) (before ++ (t ++ tail)) = some ([item v], rest)
  more : ∀ {before t tail s rest v vs n}, Spaces before → R t v → 2 * t.length ≤ n → EndsNumber tail →
    skipSpace tail = ',' :: s → read n s = some (vs, rest) →
    read (n + 1) (before ++ (t ++ tail)) = some (item v :: vs, rest)

theorem rowReader_items : RowReader (ReadsBack raw) id ']' (readItems? raw) where
  closes := by decide
  starts ht := ht.starts
  last hbefore ht hn htail hs := by
    rw [readItems?, skipSpace_spaces hbefore, ht.skipSpace, ht.reads _ _ hn htail]
    simp only [Option.bind_eq_bind, Option.bind_some, hs, id]
  more hbefore ht hn htail hs hrest := by
    rw [readItems?, skipSpace_spaces hbefore, ht.skipSpace, ht.reads _ _ hn htail]
    simp only [Option.bind_eq_bind, Option.bind_some, hs, hrest, id]

/-- The text is a key, a colon and a text that reads back as the value. -/
def ReadsField (raw : Bool) (t : List Char) (e : String × Value) : Prop :=
  ∃ pad u, Spaces pad ∧ ReadsBack raw u e.2 ∧ t = (string e.1).toList ++ ':' :: (pad ++ u)

def namedEntry (e : String × Value) : Scalar × Value := (.str e.1, e.2)

theorem ReadsField.reads {before tail : List Char} {e : String × Value} {n : Nat} (ht : ReadsField raw t e)
    (hbefore : Spaces before) (hn : 2 * t.length ≤ n) (htail : EndsNumber tail) :
    ∃ r r' r'', skipSpace (before ++ (t ++ tail)) = '"' :: r ∧ readString? r.length.succ r = some (e.1.toList, r') ∧
      skipSpace r' = ':' :: r'' ∧ readValue? raw n (skipSpace r'') = some (e.2, tail) := by
  obtain ⟨pad, u, hpad, hu, htext⟩ := ht
  rw [htext] at hn ⊢
  refine ⟨_, _, pad ++ u ++ tail, ?_, readString?_string e.1 (':' :: (pad ++ u) ++ tail), ?_, ?_⟩
  · rw [skipSpace_spaces hbefore, append_assoc, toList_string_append, skipSpace_cons (by decide)]
  · rw [cons_append, skipSpace_cons (by decide)]
  · rw [append_assoc, skipSpace_spaces hpad, hu.skipSpace]
    refine hu.reads n tail ?_ htail
    rw [length_append, length_cons, length_append] at hn
    omega

theorem rowReader_entries : RowReader (ReadsField raw) namedEntry '}' (readEntries? raw) where
  closes := by decide
  starts ht := by
    obtain ⟨pad, u, -, -, rfl⟩ := ht
    exact ⟨'"', _, toList_string_append _ _, by decide⟩
  last hbefore ht hn htail hs := by
    obtain ⟨r, r', r'', hstart, hkey, hcolon, hvalue⟩ := ht.reads hbefore hn htail
    rw [readEntries?, hstart]
    simp only [hkey, hcolon, hvalue, hs, Option.bind_eq_bind, Option.bind_some, String.ofList_toList, namedEntry]
  more hbefore ht hn htail hs hrest := by
    obtain ⟨r, r', r'', hstart, hkey, hcolon, hvalue⟩ := ht.reads hbefore hn htail
    rw [readEntries?, hstart]
    simp only [hkey, hcolon, hvalue, hs, hrest, Option.bind_eq_bind, Option.bind_some, String.ofList_toList,
      namedEntry]

section Joined
variable {α β : Type} {R : List Char → α → Prop} {item : α → β} {closing : Char}
  {read : Nat → List Char → Option (List β × List Char)} {ts : List (List Char)} {vs : List α}

theorem RowReader.joined {before gap after : List Char} (hread : RowReader R item closing read) (hgap : Spaces gap)
    (hafter : Spaces after) (h : Forall₂ R ts vs) (hne : ts ≠ []) (hbefore : Spaces before) (rest : List Char)
    {fuel : Nat} (hfuel : 2 * ((',' :: gap).intercalate ts).length < fuel) :
    read fuel (before ++ ((',' :: gap).intercalate ts ++ (after ++ closing :: rest))) = some (vs.map item, rest) := by
  induction h generalizing before fuel with
  | nil => exact absurd rfl hne
  | cons ht hts ih =>
    obtain ⟨n, rfl⟩ : ∃ n, fuel = n + 1 := ⟨fuel - 1, by omega⟩
    cases hts with
    | nil =>
      rw [intercalate_singleton] at hfuel ⊢
      refine hread.last hbefore ht (by omega) (.spaces hafter (endsNumber_cons hread.closes.2 _)) ?_
      rw [skipSpace_spaces hafter, skipSpace_cons hread.closes.1]
    | cons ht' hts =>
      rw [intercalate_cons_cons, length_append, length_append, length_cons] at hfuel
      rw [intercalate_cons_cons, append_assoc, append_assoc, cons_append]
      exact hread.more hbefore ht (by omega) (endsNumber_cons (by decide) _) (skipSpace_cons (by decide) _)
        (ih (cons_ne_nil _ _) hgap (by omega))

theorem RowReader.joined_starts (hread : RowReader R item closing read) (gap : List Char) (h : Forall₂ R ts vs)
    (hne : ts ≠ []) : ∃ c r, (',' :: gap).intercalate ts = c :: r ∧ isSpace c = false ∧ c ≠ closing := by
  cases h with
  | nil => exact absurd rfl hne
  | cons ht hts =>
    obtain ⟨c, r, rfl, hc⟩ := hread.starts ht
    cases hts with
    | nil => exact ⟨c, r, intercalate_singleton, hc⟩
    | cons _ _ => exact ⟨c, _, intercalate_cons_cons.trans rfl, hc⟩

end Joined

/-! ### Lists and maps -/

/-- The format puts nothing but white space after a comma or a colon. -/
structure Format.Spaced (f : Format) : Prop where
  colon : ∃ gap, Spaces gap ∧ f.colon.toList = ':' :: gap
  comma : ∃ gap, Spaces gap ∧ f.comma.toList = ',' :: gap

structure Format.Standard (f : Format) : Prop extends f.Spaced where
  sorted : f.sorted = true

theorem standard_pretty : pretty.Standard where
  colon := ⟨[' '], by simp [Spaces, isSpace], rfl⟩
  comma := ⟨[], spaces_nil, rfl⟩
  sorted := rfl

theorem standard_compact : compact.Standard where
  colon := ⟨[], spaces_nil, rfl⟩
  comma := ⟨[], spaces_nil, rfl⟩
  sorted := rfl

theorem spaced_line : line.Spaced where
  colon := ⟨[' '], by simp [Spaces, isSpace], rfl⟩
  comma := ⟨[' '], by simp [Spaces, isSpace], rfl⟩

theorem standard_sortedLine : sortedLine.Standard where
  toSpaced := ⟨spaced_line.colon, spaced_line.comma⟩
  sorted := rfl

variable {f : Format}

section Enclosed
variable {opening closing : String} {o c : Char} (ho : opening.toList = [o]) (hc : closing.toList = [c])
include ho hc

theorem enclose_nil (f : Format) (level : Nat) : (enclose f level opening closing []).toList = [o, c] := by
  rw [enclose, isEmpty_nil, if_pos rfl, String.toList_append, ho, hc]
  rfl

/-- However items are laid out between brackets, only white space is put around them. -/
theorem enclose_eq (hf : f.Spaced) (level : Nat) {items : List String} (hne : items ≠ []) :
    ∃ before gap after, Spaces before ∧ Spaces gap ∧ Spaces after ∧ (enclose f level opening closing items).toList =
      o :: (before ++ ((',' :: gap).intercalate (items.map String.toList) ++ (after ++ [c]))) := by
  obtain ⟨gap, hgap, hcomma⟩ := hf.comma
  have hempty : items.isEmpty = false := by simpa using hne
  rw [enclose, hempty]
  cases hindent : f.indent with
  | none =>
    refine ⟨[], gap, [], spaces_nil, hgap, spaces_nil, ?_⟩
    simp [String.toList_intercalate, hcomma, ho, hc]
  | some n =>
    have hpad : ∀ k, Spaces ('\n' :: replicate (n * k) ' ') := by
      intro k c hc
      rcases mem_cons.mp hc with rfl | hc
      · decide
      · rw [eq_of_mem_replicate hc]
        decide
    refine ⟨'\n' :: replicate (n * (level + 1)) ' ', gap ++ '\n' :: replicate (n * (level + 1)) ' ',
      '\n' :: replicate (n * level) ' ', hpad _, ?_, hpad _, ?_⟩
    · exact forall_mem_append.mpr ⟨hgap, hpad _⟩
    · simp [String.toList_intercalate, hcomma, ho, hc]

end Enclosed

theorem readValue?_items {c : Char} {vs : List Value} {fuel : Nat} (hs : skipSpace s = c :: r)
    (hc : c ≠ ']') (h : readItems? raw fuel (c :: r) = some (vs, rest)) :
    readValue? raw (fuel + 1) ('[' :: s) = some (.list vs, rest) := by
  rw [readValue?, hs]
  split
  · next heq => exact absurd (List.cons.inj heq).1 hc
  · rw [h]
    rfl

theorem readValue?_entries {c : Char} {fuel : Nat} (hs : skipSpace s = c :: r)
    (hc : c ≠ '}') (h : readEntries? raw fuel (c :: r) = some (es, rest)) :
    readValue? raw (fuel + 1) ('{' :: s) = some (.map (if raw then es else Entries.ofList es), rest) := by
  rw [readValue?, hs]
  split
  · next heq => exact absurd (List.cons.inj heq).1 hc
  · rw [h]
    rfl

theorem skipSpace_enclosed {before : List Char} (hbefore : Spaces before) {d : Char} (hd : isSpace d = false)
    (r after : List Char) (c : Char) (rest : List Char) :
    skipSpace (before ++ (d :: r ++ (after ++ [c])) ++ rest) = d :: (r ++ (after ++ c :: rest)) := by
  rw [append_assoc, skipSpace_spaces hbefore, cons_append, cons_append, skipSpace_cons hd]
  simp only [append_assoc, singleton_append]

theorem RowReader.readsBack {α β : Type} {R : List Char → α → Prop} {item : α → β}
    {read : Nat → List Char → Option (List β × List Char)} {opening closing : String} {o c : Char}
    (hread : RowReader R item c read) (value : List β → Value) (ho : opening.toList = [o]) (hc : closing.toList = [c])
    (hf : f.Spaced) (level : Nat) {ts : List String} {vs : List α}
    (h : Forall₂ R (ts.map String.toList) vs) (hopens : isSpace o = false ∧ o ≠ ']')
    (hnil : ∀ fuel rest, readValue? raw (fuel + 1) (o :: c :: rest) = some (value [], rest))
    (hvalue : ∀ {d s r ws rest fuel}, skipSpace s = d :: r → d ≠ c → read fuel (d :: r) = some (ws, rest) →
      readValue? raw (fuel + 1) (o :: s) = some (value ws, rest)) :
    ReadsBack raw (enclose f level opening closing ts).toList (value (vs.map item)) := by
  by_cases hne : ts = []
  · subst hne
    cases h
    rw [enclose_nil ho hc]
    exact readsBack_of_succ hopens fun fuel rest _ _ => hnil fuel rest
  · obtain ⟨before, gap, after, hbefore, hgap, hafter, htext⟩ := enclose_eq ho hc hf level hne
    have hne' : ts.map String.toList ≠ [] := by simpa using hne
    obtain ⟨d, r, hjoined, hspace, hd⟩ := hread.joined_starts gap h hne'
    rw [htext]
    refine readsBack_of_succ hopens fun fuel rest hfuel _ => ?_
    have hfuel' : 2 * ((',' :: gap).intercalate (ts.map String.toList)).length < fuel := by
      rw [length_append, length_append] at hfuel
      omega
    have hrow := hread.joined hgap hafter h hne' spaces_nil rest hfuel'
    rw [hjoined] at hrow ⊢
    exact hvalue (skipSpace_enclosed hbefore hspace r after c rest) hd hrow

theorem readsBack_items (hf : f.Spaced) (level : Nat) {ts : List String} {vs : List Value}
    (h : Forall₂ (ReadsBack raw) (ts.map String.toList) vs) :
    ReadsBack raw (enclose f level "[" "]" ts).toList (.list vs) := by
  have hread := rowReader_items.readsBack .list (show "[".toList = ['['] from rfl) (show "]".toList = [']'] from rfl)
    hf level h (by decide) (fun _ _ => rfl) readValue?_items
  rwa [map_id] at hread

theorem readsBack_entries (hf : f.Spaced) (level : Nat) {ts : List String} {es : List (String × Value)}
    (h : Forall₂ (ReadsField raw) (ts.map String.toList) es)
    (hrecord : raw = true ∨ Entries.IsRecord (es.map namedEntry)) :
    ReadsBack raw (enclose f level "\x7b" "\x7d" ts).toList (.map (es.map namedEntry)) := by
  have hread := rowReader_entries.readsBack (fun es => .map (if raw then es else Entries.ofList es))
    (show "\x7b".toList = ['{'] from rfl) (show "\x7d".toList = ['}'] from rfl) hf level h (by decide)
    (fun _ _ => by cases raw <;> rfl) readValue?_entries
  cases raw with
  | true => exact hread
  | false => rwa [if_neg Bool.false_ne_true, Entries.ofList_eq_self (hrecord.resolve_left Bool.false_ne_true)] at hread

/-! ### Values -/

theorem renderAt_map (hf : f.Standard) (level : Nat) (entries : Entries) :
    renderAt f level (.map entries) = enclose f level "\x7b" "\x7d" ((entries.mergeSort keyLe).map fun e =>
      string (keyText e.1) ++ f.colon ++ renderAt f (level + 1) e.2) := by
  have harrange : arrange f (renderEntries f (level + 1) entries) =
      (entries.mergeSort keyLe).map fun e => (keyText e.1, renderAt f (level + 1) e.2) := by
    rw [arrange, if_pos hf.sorted, renderEntries_eq_map]
    refine (map_mergeSort fun a _ b _ => ?_).symm
    rfl
  rw [renderAt, harrange, map_map]
  rfl

theorem readsBack_renderItems (hf : f.Spaced) (level : Nat) (read : Value → Value) {vs : List Value}
    (h : ∀ v ∈ vs, ReadsBack raw (renderAt f (level + 1) v).toList (read v)) :
    ReadsBack raw (enclose f level "[" "]" (renderItems f (level + 1) vs)).toList (.list (vs.map read)) := by
  rw [renderItems_eq_map]
  refine readsBack_items hf level ?_
  rw [map_map, forall₂_map_left_iff, forall₂_map_right_iff, forall₂_same]
  exact h

theorem readsBack_renderEntries (hf : f.Spaced) (level : Nat) (read : Value → Value)
    (hrecord : raw = true ∨ Entries.IsRecord (es.map fun e => (.str (keyText e.1), read e.2)))
    (h : ∀ e ∈ es, ReadsBack raw (renderAt f (level + 1) e.2).toList (read e.2)) :
    ReadsBack raw (enclose f level "\x7b" "\x7d" (es.map fun e =>
      string (keyText e.1) ++ f.colon ++ renderAt f (level + 1) e.2)).toList
      (.map (es.map fun e => (.str (keyText e.1), read e.2))) := by
  obtain ⟨pad, hpad, hcolon⟩ := hf.colon
  have hentries : (es.map fun e => ((.str (keyText e.1), read e.2) : Scalar × Value)) =
      (es.map fun e => (keyText e.1, read e.2)).map namedEntry := by
    rw [map_map]
    rfl
  rw [hentries] at hrecord ⊢
  refine readsBack_entries hf level ?_ hrecord
  rw [map_map, forall₂_map_left_iff, forall₂_map_right_iff, forall₂_same]
  intro e he
  refine ⟨pad, _, hpad, h e he, ?_⟩
  simp only [Function.comp_apply, String.toList_append, hcolon, append_assoc, cons_append]

theorem isRecord_decoded (hkeys : (es.map fun e => keyText e.1).Nodup) :
    Entries.IsRecord ((es.mergeSort keyLe).map decodedEntry) := by
  refine ⟨?_, ?_⟩
  · intro e he
    obtain ⟨e', -, rfl⟩ := mem_map.mp he
    exact ⟨_, rfl⟩
  · have hnames := hkeys.map fun _ _ => Scalar.str.inj
    rw [map_map] at hnames ⊢
    exact ((mergeSort_perm es keyLe).map _).nodup_iff.mpr hnames

/-- The text of a value reads back, at any level of nesting and whatever follows it. -/
theorem readsBack_renderAt (hf : f.Standard) (hv : raw = true ∨ Writable v) (level : Nat) :
    ReadsBack raw (renderAt f level v).toList (decoded v) := by
  induction v using Value.induct generalizing level with
  | scalar s => exact readsBack_scalar (hv.imp_right (by rintro ⟨hs⟩; exact hs))
  | list vs ih =>
    rw [decoded, decodedItems_eq_map]
    refine readsBack_renderItems hf.toSpaced level decoded fun v hmem => ih v hmem (hv.imp_right ?_) (level + 1)
    rintro (_ | hvs)
    exact hvs v hmem
  | tuple vs ih =>
    rw [decoded, decodedItems_eq_map]
    refine readsBack_renderItems hf.toSpaced level decoded fun v hmem => ih v hmem (hv.imp_right ?_) (level + 1)
    rintro (_ | _ | hvs)
    exact hvs v hmem
  | set vs => exact readsBack_string _
  | map es ih =>
    rw [renderAt_map hf, decoded_map]
    refine readsBack_renderEntries hf.toSpaced level decoded (hv.imp_right ?_) fun e he =>
      ih e (mem_mergeSort.mp he) (hv.imp_right ?_) (level + 1)
    · rintro (_ | _ | _ | _ | ⟨hkeys, -⟩)
      exact isRecord_decoded hkeys
    · rintro (_ | _ | _ | _ | ⟨-, hes⟩)
      exact hes e (mem_mergeSort.mp he)

/-- JSON data: finite numbers and texts, in lists and in maps whose keys are distinct texts. -/
inductive IsData : Value → Prop
  | scalar {s : Scalar} (known : decodedScalar s = s) (finite : ∀ x, s = .float x → x.isFinite = true) :
    IsData (.scalar s)
  | list {vs : List Value} (items : ∀ v ∈ vs, IsData v) : IsData (.list vs)
  | map {es : Entries} (keys : Entries.IsRecord es) (values : ∀ e ∈ es, IsData e.2) : IsData (.map es)

theorem readsBack_data (hf : f.Spaced) (hsorted : f.sorted = false) (hv : IsData v) (level : Nat) :
    ReadsBack raw (renderAt f level v).toList v := by
  induction hv generalizing level with
  | scalar known finite =>
    nth_rewrite 2 [← known]
    exact readsBack_scalar (.inr finite)
  | list _ ih =>
    have hread := readsBack_renderItems hf level id fun v hv => ih v hv (level + 1)
    rwa [map_id] at hread
  | @map es keys _ ih =>
    have hsame : (es.map fun e => ((.str (keyText e.1), id e.2) : Scalar × Value)) = es := by
      refine (map_congr_left fun e he => ?_).trans (map_id es)
      obtain ⟨k, hk⟩ := keys.strings e he
      exact Prod.ext (by simp only [hk, keyText, id]) rfl
    have hread := readsBack_renderEntries hf level id (.inr (by rwa [hsame])) fun e he => ih e he (level + 1)
    rw [hsame] at hread
    rwa [renderAt, arrange, hsorted, if_neg Bool.false_ne_true, renderEntries_eq_map, map_map]

theorem parse?_of_readsBack {s t : String} (h : ReadsBack false s.toList v) (ht : Spaces t.toList) :
    parse? (s ++ t) = some v := by
  have hspaces : skipSpace t.toList = [] := by
    rw [← append_nil t.toList, skipSpace_spaces ht]
    rfl
  have hends : EndsNumber t.toList := append_nil t.toList ▸ .spaces ht endsNumber_nil
  rw [parse?, String.toList_append, h.skipSpace, h.reads _ _ (by rw [length_append]; omega) hends]
  simp only [hspaces, isEmpty_nil, if_true]

theorem parse?_render (hf : f.Standard) (hv : Writable v) {t : String} (ht : Spaces t.toList) :
    parse? (render f v ++ t) = some (decoded v) := parse?_of_readsBack (readsBack_renderAt hf (.inr hv) 0) ht

/-! ### What a text determines -/

theorem readsBack_canonical (v : Value) : ReadsBack true (canonical v).toList (decoded v) :=
  readsBack_renderAt standard_compact (.inl rfl) 0

/-- Values with one text are read as the same. -/
theorem decoded_eq_of_canonical_eq {v w : Value} (h : canonical v = canonical w) : decoded v = decoded w := by
  have hv := (readsBack_canonical v).reads _ [] (Nat.le_refl _) endsNumber_nil
  rw [h, (readsBack_canonical w).reads _ [] (Nat.le_refl _) endsNumber_nil] at hv
  exact (congrArg Prod.fst (Option.some.inj hv)).symm

theorem decoded_list_eq_iff {vs : List Value} : decoded (.list vs) = .list vs ↔ ∀ v ∈ vs, decoded v = v := by
  rw [decoded, decodedItems_eq_map, Value.list.injEq]
  conv_lhs => rhs; rw [← map_id vs]
  exact map_inj_left

theorem decoded_map_eq_iff {es : Entries} : decoded (.map es) = .map es ↔
    (es.Pairwise fun a b => keyLe a b = true) ∧ ∀ e ∈ es, decodedEntry e = e := by
  have hself : es.map decodedEntry = es ↔ ∀ e ∈ es, decodedEntry e = e := by
    conv_lhs => rhs; rw [← map_id es]
    exact map_inj_left
  rw [decoded_map, Value.map.injEq, ← hself]
  refine ⟨fun h => ?_, fun ⟨hsorted, hself⟩ => by rw [mergeSort_of_pairwise hsorted, hself]⟩
  have hsorted := h ▸ sorted_decodedEntry es
  exact ⟨hsorted, by rwa [mergeSort_of_pairwise hsorted] at h⟩

theorem decoded_record {m : List (String × Value)} (hsorted : (m.map (·.1)).Pairwise (· ≤ ·))
    (hm : ∀ e ∈ m, decoded e.2 = e.2) : decoded (.record m) = .record m := by
  refine decoded_map_eq_iff.mpr ⟨?_, ?_⟩
  · rw [pairwise_map] at hsorted ⊢
    exact hsorted.imp fun hle => decide_eq_true hle
  · rw [forall_mem_map]
    exact fun e he => Prod.ext rfl (hm e he)

/-! ### Lines -/

theorem newline_not_mem_scalar (s : Scalar) : '\n' ∉ (scalar s).toList := by
  have number {t : List Char} {x : Scalar} (h : readNumber? (t ++ []) = some (x, [])) : '\n' ∉ t :=
    fun hmem => not_mem_nil (newline_mem_of_readNumber? h (mem_append_left [] hmem))
  cases s with
  | null => decide
  | bool b => cases b <;> decide
  | int n => exact number (readNumber?_int n endsNumber_nil)
  | float x =>
    rcases float_cases x with hx | rfl | rfl | rfl
    · rw [scalar, number_of_isFinite hx]
      exact number (readNumber?_text (absoluteBits_lt hx) endsNumber_nil)
    · decide +kernel
    · decide +kernel
    · decide +kernel
  | str s => exact newline_not_mem_string s
  | timestamp t => exact newline_not_mem_string _
  | bytes bs => exact newline_not_mem_string _

/-- The format breaks no line. -/
structure Format.OneLine (f : Format) : Prop where
  indent : f.indent = none
  comma : '\n' ∉ f.comma.toList
  colon : '\n' ∉ f.colon.toList

theorem newline_not_mem_enclose (hf : f.OneLine) {opening closing : String} {items : List String} (level : Nat)
    (hopening : '\n' ∉ opening.toList) (hclosing : '\n' ∉ closing.toList)
    (hitems : ∀ item ∈ items, '\n' ∉ item.toList) : '\n' ∉ (enclose f level opening closing items).toList := by
  rw [enclose, hf.indent]
  split
  · simp [hopening, hclosing]
  · simp only [String.toList_append, mem_append, String.toList_intercalate, hopening, hclosing, false_or, or_false]
    intro h
    rcases Text.mem_intercalate h with h | ⟨part, hpart, h⟩
    · exact hf.comma h
    · obtain ⟨item, hitem, rfl⟩ := mem_map.mp hpart
      exact hitems item hitem h

theorem newline_not_mem_renderAt (hf : f.OneLine) (v : Value) (level : Nat) : '\n' ∉ (renderAt f level v).toList := by
  have hitems {vs : List Value} {level : Nat} (ih : ∀ v ∈ vs, ∀ level, '\n' ∉ (renderAt f level v).toList) :
      '\n' ∉ (enclose f level "[" "]" (renderItems f (level + 1) vs)).toList := by
    rw [renderItems_eq_map]
    refine newline_not_mem_enclose hf level (by decide) (by decide) fun item hitem => ?_
    obtain ⟨v, hv, rfl⟩ := mem_map.mp hitem
    exact ih v hv _
  induction v using Value.induct generalizing level with
  | scalar s => exact newline_not_mem_scalar s
  | list vs ih => exact hitems ih
  | tuple vs ih => exact hitems ih
  | set vs => exact newline_not_mem_string _
  | map es ih =>
    rw [renderAt]
    refine newline_not_mem_enclose hf level (by decide) (by decide) fun item hitem => ?_
    obtain ⟨e, he, rfl⟩ := mem_map.mp hitem
    rw [mem_arrange, renderEntries_eq_map] at he
    obtain ⟨⟨k, v⟩, hmem, rfl⟩ := mem_map.mp he
    simp [newline_not_mem_string, hf.colon, ih (k, v) hmem]

/-! ### What is written -/

theorem refuses_list {f : Format} {strict : Bool} {vs : List Value} :
    refuses f strict (.list vs) = false ↔ ∀ v ∈ vs, refuses f strict v = false := by
  rw [refuses, refusesItem_eq_any, any_eq_false]
  simp only [Bool.not_eq_true]

/-- A map whose keys are texts is written if its values are. -/
theorem refuses_texts {f : Format} {strict : Bool} {es : Entries} (h : ∀ e ∈ es, isText e.1 = true) :
    refuses f strict (.map es) = false ↔ ∀ e ∈ es, refuses f strict e.2 = false := by
  have hknown : es.all (isKnown ·.1) = true := all_eq_true.mpr fun e he => by simp [isKnown, h e he]
  have hcomparable : comparable (es.map (·.1)) = true := by
    have htexts : (es.map (·.1)).all isText = true := by simpa using h
    rw [comparable, htexts, Bool.or_true, Bool.true_or]
  rw [refuses, hknown, hcomparable, refusesEntry_eq_any, Bool.not_true, Bool.and_false, Bool.false_or,
    Bool.false_or, any_eq_false]
  simp only [Bool.not_eq_true]

theorem isText_of_isRecord {es : Entries} (h : Entries.IsRecord es) : ∀ e ∈ es, isText e.1 = true := by
  intro e he
  obtain ⟨k, hk⟩ := h.strings e he
  rw [hk]
  rfl

/-- What was read from a text can be written again. -/
theorem refuses_of_decoded {f : Format} {strict : Bool} (h : decoded v = v) : refuses f strict v = false := by
  induction v using Value.induct with
  | scalar s => cases s <;> first | exact Bool.and_false _ | cases h
  | list vs ih => exact refuses_list.mpr fun v hv => ih v hv (decoded_list_eq_iff.mp h v hv)
  | tuple vs => cases h
  | set items => cases h
  | map es ih =>
    have hes := (decoded_map_eq_iff.mp h).2
    refine (refuses_texts fun e he => ?_).mpr fun e he => ih e he (congrArg Prod.snd (hes e he))
    rw [← hes e he]
    rfl

theorem refuses_of_isData {f : Format} {strict : Bool} (h : IsData v) : refuses f strict v = false := by
  induction h with
  | @scalar s known => cases s <;> first | exact Bool.and_false _ | cases known
  | list _ ih => exact refuses_list.mpr ih
  | map keys _ ih => exact (refuses_texts (isText_of_isRecord keys)).mpr ih

end Json
end ContractAudit

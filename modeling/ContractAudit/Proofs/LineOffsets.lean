import Mathlib.Data.List.Induction
import ContractAudit.Proofs.CodeView

/-! # Lines and offsets

The table of line starts, the newlines before an offset and the list of lines agree on the line of an offset
and on its column. -/

namespace ContractAudit.Source
open Text List
variable {t w l : List Char} {i j o b n lo hi : Nat} {c : Char}

/-! ### The table of line starts -/

theorem length_takeWhile_lineStartsFrom (t : List Char) (n i : Nat) :
    ((lineStartsFrom n t).takeWhile (· ≤ i)).length = (t.take (i - n)).count '\n' := by
  induction t generalizing n with
  | nil => simp [lineStartsFrom]
  | cons c t ih =>
    rw [lineStartsFrom]
    by_cases hi : n + 1 ≤ i
    · have hsub : i - n = i - (n + 1) + 1 := by omega
      rw [hsub, take_succ_cons, count_cons]
      split
      · rw [takeWhile_cons_of_pos (by simpa using hi), length_cons, ih]
      · exact ih _
    · have hsub : i - n = 0 := by omega
      rw [hsub, take_zero, count_nil]
      split
      · rw [takeWhile_cons_of_neg (by simpa using hi), length_nil]
      · rw [ih, show i - (n + 1) = 0 by omega, take_zero, count_nil]

theorem lineOf_lineStarts (t : List Char) (i : Nat) : lineOf (lineStarts t) i = (t.take i).count '\n' + 1 := by
  rw [lineOf, lineStarts, takeWhile_cons_of_pos (by simp), length_cons, length_takeWhile_lineStartsFrom, Nat.sub_zero]

theorem lineOf_mono (t : List Char) (h : i ≤ j) : lineOf (lineStarts t) i ≤ lineOf (lineStarts t) j := by
  rw [lineOf_lineStarts, lineOf_lineStarts, ← Nat.min_eq_left h, ← take_take]
  exact Nat.succ_le_succ ((take_sublist i _).count_le '\n')

/-- Line `n` begins at `b`: nothing stands before `b`, or a newline, and `n - 1` newlines in all. -/
structure BeginsLine (t : List Char) (n b : Nat) : Prop where
  edge : b = 0 ∨ t[b - 1]? = some '\n'
  count : (t.take b).count '\n' + 1 = n

theorem exists_parts_of_lineStartsFrom (h : (lineStartsFrom n t)[i]? = some b) :
    ∃ u v, t = u ++ '\n' :: v ∧ u.count '\n' = i ∧ b = n + u.length + 1 := by
  induction t generalizing n i with
  | nil => cases h
  | cons c t ih =>
    rw [lineStartsFrom] at h
    split at h
    · next hc =>
      obtain rfl := beq_iff_eq.mp hc
      cases i with
      | zero =>
        cases h
        exact ⟨[], t, rfl, rfl, rfl⟩
      | succ i =>
        obtain ⟨u, v, rfl, hcount, hb⟩ := ih h
        exact ⟨'\n' :: u, v, rfl, by rw [count_cons_self, hcount], by rw [length_cons]; omega⟩
    · next hc =>
      obtain ⟨u, v, rfl, hcount, hb⟩ := ih h
      exact ⟨c :: u, v, rfl, by rw [count_cons_of_ne (by simpa using hc), hcount], by rw [length_cons]; omega⟩

theorem beginsLine_of_getElem? (h : (lineStarts t)[i]? = some b) : BeginsLine t (i + 1) b := by
  cases i with
  | zero =>
    cases h
    exact ⟨.inl rfl, rfl⟩
  | succ i =>
    obtain ⟨u, v, rfl, rfl, rfl⟩ := exists_parts_of_lineStartsFrom (n := 0) h
    refine ⟨.inr (by simp), ?_⟩
    rw [Nat.zero_add, take_length_add_append]
    simp

/-- A line begins at or before the offset exactly if it is not after the line of the offset. -/
theorem le_iff_lt_lineOf (h : (lineStarts t)[i]? = some b) : b ≤ o ↔ i < lineOf (lineStarts t) o := by
  obtain ⟨hedge, hcount⟩ := beginsLine_of_getElem? h
  have hi : lineOf (lineStarts t) b = i + 1 := (lineOf_lineStarts t b).trans hcount
  constructor
  · intro hle
    have := lineOf_mono t hle
    omega
  · intro hlt
    by_contra hle
    rcases hedge with rfl | hnewline
    · exact hle (Nat.zero_le o)
    -- the newline before `b` is not before `o`
    · have hpred := lineOf_mono t (show o ≤ b - 1 by omega)
      have hb : b = b - 1 + 1 := by omega
      rw [hb, lineOf_lineStarts, take_add_one, hnewline, count_append] at hi
      rw [lineOf_lineStarts t (b - 1)] at hpred
      simp at hi
      omega

/-- The search for a line by halving, among the places `lo` to `hi` of the table. -/
def bisect (starts : List Nat) (offset lo hi : Nat) : Nat :=
  if lo < hi then
    if offset < starts.getD ((lo + hi) / 2) 0 then bisect starts offset lo ((lo + hi) / 2)
    else bisect starts offset ((lo + hi) / 2 + 1) hi
  else lo

theorem bisect_eq_lineOf (hlo : lo ≤ lineOf (lineStarts t) o) (hhi : lineOf (lineStarts t) o ≤ hi)
    (hlength : hi ≤ (lineStarts t).length) : bisect (lineStarts t) o lo hi = lineOf (lineStarts t) o := by
  -- the line stays between the ends of the search
  fun_induction bisect (lineStarts t) o lo hi with
  | case1 lo hi hlt hless ih =>
    have hmid : (lo + hi) / 2 < (lineStarts t).length := by omega
    rw [getD_eq_getElem?_getD, getElem?_eq_getElem hmid, Option.getD_some] at hless
    have := mt (le_iff_lt_lineOf (getElem?_eq_getElem hmid)).mpr (Nat.not_le.mpr hless)
    exact ih hlo (by omega) (by omega)
  | case2 lo hi hlt hless ih =>
    have hmid : (lo + hi) / 2 < (lineStarts t).length := by omega
    rw [getD_eq_getElem?_getD, getElem?_eq_getElem hmid, Option.getD_some] at hless
    have := (le_iff_lt_lineOf (getElem?_eq_getElem hmid)).mp (Nat.not_lt.mp hless)
    exact ih (by omega) hhi hlength
  | case3 lo hi hlt => omega

theorem lineOf_le_length_starts (t : List Char) (o : Nat) : lineOf (lineStarts t) o ≤ (lineStarts t).length :=
  (takeWhile_sublist _).length_le

/-! ### The list of lines -/

/-- What is left of a line at an offset. -/
def lineFrom (t : List Char) (o : Nat) : List Char := (t.drop o).takeWhile (· != '\n')

theorem head?_splitLines (t : List Char) : (splitLines t).head? = some (t.takeWhile (· != '\n')) := by
  induction t with
  | nil => rfl
  | cons c t ih =>
    obtain ⟨ls, hls⟩ := head?_eq_some_iff.mp ih
    rw [splitLines.eq_2, hls]
    by_cases hc : c = '\n' <;> simp [hc]

theorem BeginsLine.getElem?_splitLines (h : BeginsLine t (n + 1) b) : (splitLines t)[n]? = some (lineFrom t b) := by
  obtain ⟨hedge, hcount⟩ := h
  cases b with
  | zero =>
    obtain rfl : 0 = n := Nat.succ.inj hcount
    rw [← head?_eq_getElem?, head?_splitLines]
    rfl
  | succ b =>
    have hnewline : t[b]? = some '\n' := by simpa using hedge
    obtain ⟨hb, hget⟩ := List.getElem?_eq_some_iff.mp hnewline
    have hparts : t = t.take b ++ '\n' :: t.drop (b + 1) := by
      rw [← hget, ← drop_eq_getElem_cons hb, take_append_drop]
    have hn : (splitLines (t.take b)).length = n := by
      rw [length_splitLines]
      rw [take_add_one, hnewline, count_append] at hcount
      simpa using hcount
    rw [hparts, splitLines_newline, getElem?_append_right (by omega), hn, Nat.sub_self, ← head?_eq_getElem?,
      head?_splitLines, ← hparts, lineFrom]

theorem BeginsLine.drop_lineFrom (h : BeginsLine t (lineOf (lineStarts t) o) b) (hle : b ≤ o) (ho : o ≤ t.length) :
    (lineFrom t b).drop (o - b) = lineFrom t o := by
  have hsum : b + (o - b) = o := by omega
  have hcount := h.count
  rw [lineOf_lineStarts, ← hsum, take_add, count_append] at hcount
  have hfree : '\n' ∉ (t.drop b).take (o - b) := count_eq_zero.mp (by omega)
  have hlength : ((t.drop b).take (o - b)).length = o - b := by
    rw [length_take, length_drop]
    omega
  have hparts : t.drop b = (t.drop b).take (o - b) ++ t.drop o := by
    rw [← hsum, ← drop_drop, hsum, take_append_drop]
  rw [lineFrom, hparts, takeWhile_append_of_pos fun c hc => by simpa using ne_of_mem_of_not_mem hc hfree,
    drop_left' hlength]
  rfl

theorem lineOf_le_length (h : i < t.length) : lineOf (lineStarts t) i ≤ (fileLines t).length := by
  have hcount : t.count '\n' = (t.take i).count '\n' + (t.drop i).count '\n' := by
    rw [← count_append, take_append_drop]
  rw [lineOf_lineStarts, length_fileLines, hcount]
  split
  · next hlast =>
    have hmem : '\n' ∈ t.drop i := by
      apply mem_of_getLast?
      rw [getLast?_drop, if_neg (by omega), hlast]
    have := count_pos_iff.mpr hmem
    omega
  · omega

theorem getElem?_fileLines (h : i < (fileLines t).length) : (fileLines t)[i]? = (splitLines t)[i]? := by
  unfold fileLines at h ⊢
  split at h
  · next hlast =>
    rw [if_pos hlast, getElem?_dropLast, if_pos (by simpa using h)]
  · next hlast => rw [if_neg hlast]

theorem dropReturns_concat (l : List Char) (c : Char) :
    dropReturns (l ++ [c]) = if c = '\r' then dropReturns l else l ++ [c] := by
  unfold dropReturns
  rw [reverse_append, reverse_singleton, singleton_append, dropWhile_cons]
  by_cases hc : c = '\r' <;> simp [hc]

theorem infix_dropReturns (hw : '\r' ∉ w) (h : w <:+: l) : w <:+: dropReturns l := by
  obtain ⟨u, v, rfl⟩ := h
  induction v using List.reverseRecOn with
  | nil =>
    rw [append_nil]
    rcases eq_nil_or_concat w with rfl | ⟨w, c, rfl⟩
    · exact nil_infix
    · have hc : c ≠ '\r' := by
        rintro rfl
        exact hw (by simp)
      rw [concat_eq_append, ← append_assoc, dropReturns_concat, if_neg hc, append_assoc]
      exact (suffix_append u _).isInfix
  | append_singleton v c ih =>
    rw [← append_assoc, dropReturns_concat]
    split
    · exact ih
    · exact ⟨u, v ++ [c], by simp⟩

/-- A line keeps its places but those from which on it has carriage returns only. -/
theorem getElem?_dropReturns (l : List Char) (i : Nat) :
    (dropReturns l)[i]? = if (l.drop i).all (· == '\r') then none else l[i]? := by
  induction l using List.reverseRecOn with
  | nil => simp [dropReturns]
  | append_singleton l c ih =>
    rw [dropReturns_concat]
    rcases Nat.lt_or_ge l.length i with hi | hi
    · have hdrop : l.drop i = [] := drop_eq_nil_of_le (Nat.le_of_lt hi)
      have hdrop' : (l ++ [c]).drop i = [] := drop_eq_nil_of_le (by rw [length_append]; exact hi)
      rw [hdrop] at ih
      rw [hdrop']
      split <;> simp_all
    · rw [drop_append_of_le_length hi, all_append]
      by_cases hc : c = '\r'
      · rw [if_pos hc, ih]
        rcases Nat.lt_or_eq_of_le hi with hlt | rfl
        · simp [hc, getElem?_append_left hlt]
        · simp [hc]
      · simp [hc]

/-- At the offset only carriage returns are left of the line. -/
def onlyReturnsFrom (t : List Char) (o : Nat) : Bool := (lineFrom t o).all (· == '\r')

/-- A character stands in its line as far behind the start as in the text, unless it is one of the carriage
    returns that are taken off. -/
theorem BeginsLine.getElem?_code (h : BeginsLine t (lineOf (lineStarts t) o) b) (hle : b ≤ o) (hc : t[o]? = some c)
    (hne : c ≠ '\n') : if onlyReturnsFrom t o then c = '\r' ∧ (dropReturns (lineFrom t b))[o - b]? = none
      else (dropReturns (lineFrom t b))[o - b]? = some c := by
  obtain ⟨ho, rfl⟩ := List.getElem?_eq_some_iff.mp hc
  have hdrop := h.drop_lineFrom hle (Nat.le_of_lt ho)
  have hrest : lineFrom t o = t[o] :: lineFrom t (o + 1) := by
    rw [lineFrom, drop_eq_getElem_cons ho, takeWhile_cons_of_pos (by simpa using hne)]
    rfl
  rw [onlyReturnsFrom, getElem?_dropReturns, ← head?_drop, hdrop]
  split
  · next hreturns =>
    have hfirst : t[o] = '\r' := by simpa using all_eq_true.mp hreturns _ (hrest ▸ mem_cons_self)
    exact ⟨hfirst, rfl⟩
  · rw [hrest, head?_cons]

/-! ### The lines of a model -/

variable {text : String}

theorem length_lines_ofText (text : String) :
    (Model.ofText text).lines.length = (fileLines (mask text.toList)).length := by
  have hlength := (blanksOut_mask text.toList).fileLines.length_eq
  show (Sheet.ofText text.toList).lines.length = _
  rw [Sheet.lines, length_map, length_zipIdx, length_zip]
  show min (fileLines text.toList).length (fileLines (mask text.toList)).length = _
  rw [hlength, Nat.min_self]

theorem lineOf_ofText (text : String) (i : Nat) :
    (Sheet.ofText text.toList).lineOf i = lineOf (lineStarts (mask text.toList)) i := rfl

theorem line?_ofText {l : List Char} (h : (fileLines (mask text.toList))[i]? = some l) :
    ∃ raw, (Model.ofText text).line? (i + 1) = some ⟨i + 1, raw, String.ofList (dropReturns l)⟩ := by
  have hlength := (blanksOut_mask text.toList).fileLines.length_eq
  have hlt : i < (fileLines text.toList).length := by
    rw [hlength]
    exact (List.getElem?_eq_some_iff.mp h).1
  refine ⟨String.ofList (dropReturns (fileLines text.toList)[i]), ?_⟩
  rw [Model.line?, if_neg (Nat.succ_ne_zero i), Nat.add_sub_cancel]
  show (Sheet.ofText text.toList).lines[i]? = _
  have hzip : ((fileLines text.toList).zip (fileLines (mask text.toList)))[i]? =
      some ((fileLines text.toList)[i], l) := by
    rw [getElem?_zip_eq_some]
    exact ⟨getElem?_eq_getElem hlt, h⟩
  rw [Sheet.lines, getElem?_map, getElem?_zipIdx]
  show Option.map _ (Option.map _ (((fileLines text.toList).zip (fileLines (mask text.toList)))[i]?)) = _
  rw [hzip, Nat.zero_add]
  rfl

/-- The line of an offset in the model, with the place where it begins. -/
theorem exists_line_of_lt (ho : o < (mask text.toList).length) :
    let d := Sheet.ofText text.toList
    ∃ b raw, d.starts[d.lineOf o - 1]? = some b ∧ BeginsLine d.masked (d.lineOf o) b ∧ b ≤ o ∧
      (Model.ofText text).line? (d.lineOf o) =
        some ⟨d.lineOf o, raw, String.ofList (dropReturns (lineFrom d.masked b))⟩ := by
  intro d
  have hlength : d.lineOf o ≤ (fileLines d.masked).length := lineOf_le_length ho
  have hstarts : d.lineOf o ≤ d.starts.length := lineOf_le_length_starts d.masked o
  obtain ⟨n, hn⟩ : ∃ n, d.lineOf o = n + 1 := ⟨_, lineOf_lineStarts d.masked o⟩
  rw [hn] at hlength hstarts ⊢
  have hstart := getElem?_eq_getElem (l := d.starts) hstarts
  have hbegins := beginsLine_of_getElem? hstart
  obtain ⟨raw, hraw⟩ := line?_ofText ((getElem?_fileLines hlength).trans hbegins.getElem?_splitLines)
  exact ⟨_, raw, hstart, hbegins, (le_iff_lt_lineOf hstart).mpr (Nat.le_of_eq hn.symm), hraw⟩

/-- The line of an offset is one more than the newlines before it, and the search by halving ends there. So
    lines go up with offsets, and each character of the masked text but the newlines stands in its line at its
    distance from where the line begins, the carriage returns at the end of a line apart. -/
theorem offsets_on_lines (text : String) :
    let d := Sheet.ofText text.toList
    (∀ o, d.lineOf o = (text.toList.take o).count '\n' + 1 ∧ bisect d.starts o 0 d.starts.length = d.lineOf o) ∧
    (∀ o o', o ≤ o' → d.lineOf o ≤ d.lineOf o') ∧
    ∀ o c, d.masked[o]? = some c → c ≠ '\n' → ∃ l b, (Model.ofText text).line? (d.lineOf o) = some l ∧
      l.number = d.lineOf o ∧ d.starts[d.lineOf o - 1]? = some b ∧ BeginsLine d.masked (d.lineOf o) b ∧ b ≤ o ∧
      if onlyReturnsFrom d.masked o then c = '\r' ∧ l.code.toList[o - b]? = none
      else l.code.toList[o - b]? = some c := by
  intro d
  refine ⟨fun o => ⟨?_, ?_⟩, fun o o' => lineOf_mono d.masked, fun o c hc hne => ?_⟩
  · rw [lineOf_ofText, lineOf_lineStarts]
    exact congrArg (· + 1) (BlanksOut.count_newline (forall₂_take o (blanksOut_mask text.toList)))
  · exact bisect_eq_lineOf (Nat.zero_le _) (lineOf_le_length_starts d.masked o) (Nat.le_refl _)
  · obtain ⟨ho, -⟩ := List.getElem?_eq_some_iff.mp hc
    obtain ⟨b, raw, hstart, hbegins, hle, hline⟩ := exists_line_of_lt ho
    refine ⟨_, b, hline, rfl, hstart, hbegins, hle, ?_⟩
    rw [String.toList_ofList]
    exact hbegins.getElem?_code hle hc hne

/-- The last quote stands in line 2 at column 2, and the carriage return of line 1 is taken off. -/
theorem offsets_on_lines_quoted :
    let d := Sheet.ofText "a\r\n\"b\"\r".toList
    d.lineOf 1 ≤ d.lineOf 5 ∧ d.masked[1]? = some '\r' ∧ d.masked[5]? = some '"' ∧
    (∃ l, (Model.ofText "a\r\n\"b\"\r").line? 1 = some l ∧ l.code.toList[1]? = none) ∧
    ∃ l, (Model.ofText "a\r\n\"b\"\r").line? 2 = some l ∧ l.code.toList[2]? = some '"' := by
  intro d
  obtain ⟨-, hmono, hstands⟩ := offsets_on_lines "a\r\n\"b\"\r"
  have hreturn : d.masked[1]? = some '\r' := by decide +kernel
  have hquote : d.masked[5]? = some '"' := by decide +kernel
  obtain ⟨l, b, hline, -, hb, -, -, hcode⟩ := hstands 1 '\r' hreturn (by decide)
  obtain ⟨l', b', hline', -, hb', -, -, hcode'⟩ := hstands 5 '"' hquote (by decide)
  have hone : d.lineOf 1 = 1 ∧ d.starts[0]? = some 0 ∧ onlyReturnsFrom d.masked 1 = true := by decide +kernel
  have htwo : d.lineOf 5 = 2 ∧ d.starts[1]? = some 3 ∧ onlyReturnsFrom d.masked 5 = false := by decide +kernel
  rw [hone.1, hone.2.1] at hb
  cases hb
  rw [htwo.1, htwo.2.1] at hb'
  cases hb'
  rw [if_pos hone.2.2] at hcode
  rw [htwo.2.2] at hcode'
  exact ⟨hmono 1 5 (by decide), hreturn, hquote, ⟨l, hone.1 ▸ hline, hcode.2⟩, l', htwo.1 ▸ hline', hcode'⟩

end ContractAudit.Source

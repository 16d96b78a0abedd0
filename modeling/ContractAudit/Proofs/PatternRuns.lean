import Mathlib.Logic.Relation
import ContractAudit.Text.Pattern

/-! # Runs of patterns

The bound on a repetition is never reached, so that a repetition satisfies the equation one expects of it
(`run_many`). -/

namespace ContractAudit.Text
open Pattern List

def cursorAt (t : List Char) (i : Nat) : Cursor := ⟨(t.take i).getLast?, i, t.drop i⟩

namespace Pattern
variable {α : Type} {t : List Char} {i : Nat} {m : Captures} {k k' : Continuation α}
variable {x : Match} {c d : Cursor} {p : Pattern} {l : Nat} {n : Captures} {line : Bool}

/-! ### Running from an offset -/

theorem cursorAt_succ {a : Char} (h : t[i]? = some a) : cursorAt t (i + 1) = ⟨some a, i + 1, t.drop (i + 1)⟩ := by
  rw [cursorAt, take_add_one, h, Option.toList_some, getLast?_concat]

theorem run_one {a : Char} {accepts : Char → Bool} (h : t[i]? = some a) :
    (one accepts).run (cursorAt t i) m k = if accepts a then k (cursorAt t (i + 1)) m else none := by
  have hrest : t.drop i = a :: t.drop (i + 1) := by
    obtain ⟨hi, rfl⟩ := List.getElem?_eq_some_iff.mp h
    exact List.drop_eq_getElem_cons hi
  rw [cursorAt_succ h]
  simp only [run, cursorAt, hrest]

theorem run_one_of_le {accepts : Char → Bool} (h : t.length ≤ i) : (one accepts).run (cursorAt t i) m k = none := by
  simp only [run, cursorAt, drop_of_length_le h]

variable (p)

/-- The answer depends on what follows at the places from the offset on only. -/
theorem run_congr (hi : i ≤ t.length) (h : ∀ j n, i ≤ j → j ≤ t.length → k (cursorAt t j) n = k' (cursorAt t j) n) :
    p.run (cursorAt t i) m k = p.run (cursorAt t i) m k' := by
  induction p generalizing i m k k' with
  | empty => exact h i m (Nat.le_refl i) hi
  | one accepts =>
    by_cases hlt : i < t.length
    · have hget := getElem?_eq_getElem hlt
      rw [run_one hget, run_one hget, h (i + 1) m (by omega) (by omega)]
    · rw [run_one_of_le (by omega), run_one_of_le (by omega)]
  | here holds => simp only [run, h i m (Nat.le_refl i) hi]
  | seq p q ihp ihq => exact ihp hi fun j n hij hj => ihq hj fun j' n' hjj' => h j' n' (by omega)
  | alt p q ihp ihq => rw [run, run, ihp hi h, ihq hi h]
  | many p ih =>
    have loop (bound : List Char) : repeatGreedy p.run bound (cursorAt t i) m k =
        repeatGreedy p.run bound (cursorAt t i) m k' := by
      induction bound generalizing i m with
      | nil => exact h i m (Nat.le_refl i) hi
      | cons _ bound ihb =>
        rw [repeatGreedy, repeatGreedy, h i m (Nat.le_refl i) hi]
        congr 1
        refine ih hi fun j n hij hj => ?_
        rw [ihb hj fun j' n' hjj' => h j' n' (by omega)]
    exact loop _
  | few p ih =>
    have loop (bound : List Char) : repeatLazy p.run bound (cursorAt t i) m k =
        repeatLazy p.run bound (cursorAt t i) m k' := by
      induction bound generalizing i m with
      | nil => exact h i m (Nat.le_refl i) hi
      | cons _ bound ihb =>
        rw [repeatLazy, repeatLazy, h i m (Nat.le_refl i) hi]
        congr 1
        funext _
        refine ih hi fun j n hij hj => ?_
        rw [ihb hj fun j' n' hjj' => h j' n' (by omega)]
    exact loop _
  | mark _ p ih => exact ih hi fun j n hij hj => h j _ hij hj

theorem run_none (c : Cursor) (m : Captures) : p.run c m (fun _ _ => (none : Option α)) = none := by
  induction p generalizing c m with
  | empty => rfl
  | one accepts =>
    unfold run
    split
    · rfl
    · exact ite_self _
  | here holds => exact ite_self _
  | seq p q ihp ihq =>
    simp only [run, ihq]
    exact ihp c m
  | alt p q ihp ihq => rw [run, ihp, ihq]; rfl
  | many p ih =>
    have loop (bound : List Char) (c : Cursor) (m : Captures) :
        repeatGreedy p.run bound c m (fun _ _ => (none : Option α)) = none := by
      induction bound generalizing c m with
      | nil => rfl
      | cons _ bound ihb => simp only [repeatGreedy, ihb, ite_self, ih]; rfl
    exact loop _ c m
  | few p ih =>
    have loop (bound : List Char) (c : Cursor) (m : Captures) :
        repeatLazy p.run bound c m (fun _ _ => (none : Option α)) = none := by
      induction bound generalizing c m with
      | nil => rfl
      | cons _ bound ihb => simp only [repeatLazy, ihb, ite_self, ih]; rfl
    exact loop _ c m
  | mark _ p ih => exact ih c m

/-- What a repetition does after a step: it goes on only if the step went forward. -/
def onward (i : Nat) (k : Continuation α) : Continuation α :=
  fun c m => if i < c.offset then k c m else none

theorem run_onward_of_length : p.run (cursorAt t t.length) m (onward t.length k) = none := by
  have hnone : p.run (cursorAt t t.length) m (onward t.length k) = p.run (cursorAt t t.length) m fun _ _ => none :=
    run_congr p (Nat.le_refl _) fun j n _ hj => if_neg (by simpa [cursorAt] using hj)
  rw [hnone, run_none]

theorem repeatGreedy_of_length (b : List Char) :
    repeatGreedy p.run b (cursorAt t t.length) m k = k (cursorAt t t.length) m := by
  cases b with
  | nil => rfl
  | cons _ b =>
    have hstep := run_onward_of_length p (t := t) (m := m) (k := fun c n => repeatGreedy p.run b c n k)
    exact congrArg (· <|> k (cursorAt t t.length) m) hstep

/-- A repetition goes on as long as it can: any bound as long as the rest of the text will do. -/
theorem repeatGreedy_eq (hi : i ≤ t.length) {b b' : List Char}
    (hb : t.length ≤ i + b.length) (hb' : t.length ≤ i + b'.length) :
    repeatGreedy p.run b (cursorAt t i) m k = repeatGreedy p.run b' (cursorAt t i) m k := by
  induction b generalizing i m b' with
  | nil =>
    obtain rfl : i = t.length := Nat.le_antisymm hi hb
    rw [repeatGreedy_of_length, repeatGreedy_of_length]
  | cons _ b ih =>
    cases b' with
    | nil =>
      obtain rfl : i = t.length := Nat.le_antisymm hi hb'
      rw [repeatGreedy_of_length, repeatGreedy_of_length]
    | cons _ b' =>
      rw [length_cons] at hb hb'
      rw [repeatGreedy, repeatGreedy]
      congr 1
      refine run_congr p hi fun j n hij hj => ?_
      split
      · next hlt =>
        have hlt : i < j := hlt
        exact ih hj (by omega) (by omega)
      · rfl

theorem run_many (hi : i ≤ t.length) : (many p).run (cursorAt t i) m k =
      (p.run (cursorAt t i) m (onward i fun c n => (many p).run c n k) <|> k (cursorAt t i) m) := by
  have hlength : (t.drop i).length = t.length - i := length_drop
  have hbound : (many p).run (cursorAt t i) m k = repeatGreedy p.run ('\n' :: t.drop i) (cursorAt t i) m k :=
    repeatGreedy_eq p hi (show t.length ≤ i + (t.drop i).length by omega) (by
      rw [length_cons]
      omega)
  rw [hbound, repeatGreedy]
  congr 1
  refine run_congr p hi fun j n hij hj => ?_
  have hmany : (many p).run (cursorAt t j) n k = repeatGreedy p.run (t.drop i) (cursorAt t j) n k := by
    refine repeatGreedy_eq p hj ?_ (by omega)
    show t.length ≤ j + (t.drop j).length
    rw [length_drop]
    omega
  rw [onward, hmany]
  rfl

/-! ### Searching from an offset -/

def searchAt (t : List Char) (i : Nat) : Option Match :=
  p.searchFrom (cursorAt t i).last i (t.drop i)

/-- The matches at or after an offset, the first `skip` characters left out. -/
def findAt (skip : Nat) (t : List Char) (i : Nat) : List Match :=
  p.findFrom skip (cursorAt t i).last i (t.drop i)

theorem search_eq (t : List Char) : p.search t = p.searchAt t 0 := rfl

theorem findAll_eq (t : List Char) : p.findAll t = p.findAt 0 t 0 := rfl

theorem searchAt_of_lt (h : i < t.length) :
    p.searchAt t i = (p.matchAt (cursorAt t i)).or (p.searchAt t (i + 1)) := by
  rw [searchAt, searchAt, cursorAt_succ (getElem?_eq_getElem h), List.drop_eq_getElem_cons h,
    searchFrom, ← List.drop_eq_getElem_cons h]
  have hcursor : (⟨(cursorAt t i).last, i, t.drop i⟩ : Cursor) = cursorAt t i := rfl
  rw [hcursor]
  cases p.matchAt (cursorAt t i) <;> rfl

theorem searchAt_of_le (h : t.length ≤ i) : p.searchAt t i = p.matchAt (cursorAt t i) := by
  rw [searchAt, cursorAt, drop_of_length_le h]
  rfl

theorem findAt_of_le (skip : Nat) (h : t.length ≤ i) : p.findAt skip t i = [] := by
  rw [findAt, drop_of_length_le h]
  rfl

theorem findAt_succ (skip : Nat) (h : i < t.length) : p.findAt (skip + 1) t i = p.findAt skip t (i + 1) := by
  rw [findAt, findAt, cursorAt_succ (getElem?_eq_getElem h), List.drop_eq_getElem_cons h]
  rfl

theorem findAt_of_none (h : i < t.length) (hm : p.matchAt (cursorAt t i) = none) :
    p.findAt 0 t i = p.findAt 0 t (i + 1) := by
  rw [cursorAt, List.drop_eq_getElem_cons h] at hm
  rw [findAt, findAt, cursorAt_succ (getElem?_eq_getElem h), List.drop_eq_getElem_cons h, findFrom, cursorAt, hm]

theorem findAt_of_some (h : i < t.length) (hm : p.matchAt (cursorAt t i) = some x) :
    p.findAt 0 t i = x :: p.findAt (x.finish - i - 1) t (i + 1) := by
  rw [cursorAt, List.drop_eq_getElem_cons h] at hm
  rw [findAt, findAt, cursorAt_succ (getElem?_eq_getElem h), List.drop_eq_getElem_cons h, findFrom, cursorAt, hm]

/-! ### Ways through a text -/

variable {p}

/-- A way through a text that the pattern describes, with the marks made on it. -/
def Path : Pattern → Cursor → Captures → Cursor → Captures → Prop
  | .empty, c, m, d, n => d = c ∧ n = m
  | .one accepts, c, m, d, n =>
    ∃ a r, c.rest = a :: r ∧ accepts a = true ∧ d = ⟨some a, c.offset + 1, r⟩ ∧ n = m
  | .here holds, c, m, d, n => holds c.last c.rest.head? = true ∧ d = c ∧ n = m
  | .seq p q, c, m, d, n => ∃ e l, p.Path c m e l ∧ q.Path e l d n
  | .alt p q, c, m, d, n => p.Path c m d n ∨ q.Path c m d n
  | .many p, c, m, d, n => Relation.ReflTransGen (fun x y => p.Path x.1 x.2 y.1 y.2) (c, m) (d, n)
  | .few p, c, m, d, n => Relation.ReflTransGen (fun x y => p.Path x.1 x.2 y.1 y.2) (c, m) (d, n)
  | .mark j p, c, m, d, n =>
    ∃ l, p.Path c m d l ∧ n = (j, ⟨c.offset, c.rest, d.offset - c.offset⟩) :: l

/-- An answer is the answer of what follows at the end of a way. -/
theorem path_of_run (p : Pattern) {a : α} (h : p.run c m k = some a) : ∃ d n, p.Path c m d n ∧ k d n = some a := by
  induction p generalizing c m k with
  | empty => exact ⟨c, m, ⟨rfl, rfl⟩, h⟩
  | one accepts =>
    unfold run at h
    split at h
    · cases h
    · next b r hrest =>
      split at h
      · next hb => exact ⟨_, m, ⟨b, r, hrest, hb, rfl, rfl⟩, h⟩
      · cases h
  | here holds =>
    unfold run at h
    split at h
    · next hh => exact ⟨c, m, ⟨hh, rfl, rfl⟩, h⟩
    · cases h
  | seq p q ihp ihq =>
    obtain ⟨e, l, hp, hq⟩ := ihp h
    obtain ⟨d, n, hq, hk⟩ := ihq hq
    exact ⟨d, n, ⟨e, l, hp, hq⟩, hk⟩
  | alt p q ihp ihq =>
    rw [run, Option.orElse_eq_orElse, Option.orElse_eq_or, Option.or_eq_some_iff] at h
    rcases h with h | ⟨-, h⟩
    · obtain ⟨d, n, hp, hk⟩ := ihp h
      exact ⟨d, n, .inl hp, hk⟩
    · obtain ⟨d, n, hq, hk⟩ := ihq h
      exact ⟨d, n, .inr hq, hk⟩
  | many p ih =>
    have loop (bound : List Char) (c : Cursor) (m : Captures) (h : repeatGreedy p.run bound c m k = some a) :
        ∃ d n, (many p).Path c m d n ∧ k d n = some a := by
      induction bound generalizing c m with
      | nil => exact ⟨c, m, .refl, h⟩
      | cons _ bound ihb =>
        rw [repeatGreedy, Option.orElse_eq_orElse, Option.orElse_eq_or, Option.or_eq_some_iff] at h
        rcases h with h | ⟨-, h⟩
        · obtain ⟨e, l, hp, hrest⟩ := ih h
          obtain ⟨d, n, hd, hk⟩ := ihb e l (Option.ite_none_right_eq_some.mp hrest).2
          exact ⟨d, n, .head hp hd, hk⟩
        · exact ⟨c, m, .refl, h⟩
    exact loop _ c m h
  | few p ih =>
    have loop (bound : List Char) (c : Cursor) (m : Captures) (h : repeatLazy p.run bound c m k = some a) :
        ∃ d n, (few p).Path c m d n ∧ k d n = some a := by
      induction bound generalizing c m with
      | nil => exact ⟨c, m, .refl, h⟩
      | cons _ bound ihb =>
        rw [repeatLazy, Option.orElse_eq_orElse, Option.orElse_eq_or, Option.or_eq_some_iff] at h
        rcases h with h | ⟨-, h⟩
        · exact ⟨c, m, .refl, h⟩
        · obtain ⟨e, l, hp, hrest⟩ := ih h
          obtain ⟨d, n, hd, hk⟩ := ihb e l (Option.ite_none_right_eq_some.mp hrest).2
          exact ⟨d, n, .head hp hd, hk⟩
    exact loop _ c m h
  | mark j p ih =>
    obtain ⟨d, n, hp, hk⟩ := ih h
    exact ⟨d, _, ⟨n, hp, rfl⟩, hk⟩

theorem path_of_matchAt (h : p.matchAt c = some x) : x.start = c.offset ∧ p.Path c [] x.stop x.captures := by
  obtain ⟨d, n, hp, hx⟩ := path_of_run p h
  cases hx
  exact ⟨rfl, hp⟩

theorem matchAt_of_searchAt (h : p.searchAt t i = some x) : p.matchAt (cursorAt t x.start) = some x := by
  have hstart {j : Nat} (h : p.matchAt (cursorAt t j) = some x) : p.matchAt (cursorAt t x.start) = some x := by
    rwa [(path_of_matchAt h).1]
  induction hn : t.length - i generalizing i with
  | zero =>
    rw [searchAt_of_le p (by omega)] at h
    exact hstart h
  | succ n ih =>
    rw [searchAt_of_lt p (by omega), Option.or_eq_some_iff] at h
    rcases h with h | ⟨-, h⟩
    · exact hstart h
    · exact ih h (by omega)

theorem matchAt_of_mem_findAt {skip : Nat} (h : x ∈ p.findAt skip t i) :
    x.start < t.length ∧ p.matchAt (cursorAt t x.start) = some x := by
  induction hn : t.length - i generalizing i skip with
  | zero =>
    rw [findAt_of_le p skip (by omega)] at h
    cases h
  | succ n ih =>
    have hi : i < t.length := by omega
    cases skip with
    | succ skip =>
      rw [findAt_succ p skip hi] at h
      exact ih h (by omega)
    | zero =>
      cases hy : p.matchAt (cursorAt t i) with
      | none =>
        rw [findAt_of_none p hi hy] at h
        exact ih h (by omega)
      | some y =>
        rw [findAt_of_some p hi hy] at h
        rcases mem_cons.mp h with rfl | h
        · rw [(path_of_matchAt hy).1]
          exact ⟨hi, hy⟩
        · exact ih h (by omega)

def spares (l : Nat) : Pattern → Bool
  | .seq p q => p.spares l && q.spares l
  | .alt p q => p.spares l && q.spares l
  | .many p => p.spares l
  | .few p => p.spares l
  | .mark j p => j != l && p.spares l
  | _ => true

theorem find?_of_reflTransGen (h : ∀ c m d n, p.Path c m d n → n.find? (fun e => e.1 == l) = m.find? fun e => e.1 == l)
    {x y : Cursor × Captures} (hxy : Relation.ReflTransGen (fun x y => p.Path x.1 x.2 y.1 y.2) x y) :
    y.2.find? (fun e => e.1 == l) = x.2.find? fun e => e.1 == l := by
  induction hxy with
  | refl => rfl
  | tail _ hstep ih => exact (h _ _ _ _ hstep).trans ih

theorem find?_of_path (hp : p.spares l = true)
    (h : p.Path c m d n) : n.find? (fun e => e.1 == l) = m.find? fun e => e.1 == l := by
  induction p generalizing c d m n with
  | empty => rw [h.2]
  | one accepts =>
    obtain ⟨_, _, -, -, -, h⟩ := h
    rw [h]
  | here holds => rw [h.2.2]
  | seq p q ihp ihq =>
    rw [spares, Bool.and_eq_true] at hp
    obtain ⟨e, l, h, h'⟩ := h
    exact (ihq hp.2 h').trans (ihp hp.1 h)
  | alt p q ihp ihq =>
    rw [spares, Bool.and_eq_true] at hp
    exact h.elim (ihp hp.1) (ihq hp.2)
  | many p ih => exact find?_of_reflTransGen (fun _ _ _ _ hstep => ih hp hstep) h
  | few p ih => exact find?_of_reflTransGen (fun _ _ _ _ hstep => ih hp hstep) h
  | mark j p ih =>
    rw [spares, Bool.and_eq_true, bne_iff_ne] at hp
    obtain ⟨k, h, rfl⟩ := h
    rw [find?_cons_of_neg (by simpa using hp.1)]
    exact ih hp.2 h

/-! ### Ways within a line -/

def inOneLine : Pattern → Bool
  | .one accepts => !accepts '\n'
  | .seq p q => p.inOneLine && q.inOneLine
  | .alt p q => p.inOneLine && q.inOneLine
  | .many p => p.inOneLine
  | .few p => p.inOneLine
  | .mark _ p => p.inOneLine
  | _ => true

/-- The second place lies some characters behind the first, in the same line if `line` holds. -/
def Behind (line : Bool) (c d : Cursor) : Prop :=
  ∃ w, c.rest = w ++ d.rest ∧ d.offset = c.offset + w.length ∧ (line = true → '\n' ∉ w)

theorem Behind.refl (line : Bool) (c : Cursor) : Behind line c c := ⟨[], rfl, rfl, by simp⟩

theorem Behind.trans {line' : Bool} {e : Cursor} (h : Behind line c d) (h' : Behind line' d e) :
    Behind (line && line') c e := by
  obtain ⟨w, hrest, hoffset, hline⟩ := h
  obtain ⟨w', hrest', hoffset', hline'⟩ := h'
  refine ⟨w ++ w', by rw [hrest, hrest', append_assoc], ?_, fun h => ?_⟩
  · rw [hoffset', hoffset, length_append, Nat.add_assoc]
  · rw [Bool.and_eq_true] at h
    simp [hline h.1, hline' h.2]

theorem Behind.mono {line' : Bool} (h : Behind line c d) (hl : line' = true → line = true) : Behind line' c d := by
  obtain ⟨w, hrest, hoffset, hline⟩ := h
  exact ⟨w, hrest, hoffset, fun h => hline (hl h)⟩

theorem behind_of_reflTransGen (h : ∀ c m d n, p.Path c m d n → Behind line c d) {x y : Cursor × Captures}
    (hxy : Relation.ReflTransGen (fun x y => p.Path x.1 x.2 y.1 y.2) x y) : Behind line x.1 y.1 := by
  induction hxy with
  | refl => exact .refl line _
  | tail _ hstep ih => exact (ih.trans (h _ _ _ _ hstep)).mono fun hl => by rw [hl]; rfl

theorem behind_of_path (h : p.Path c m d n) : Behind p.inOneLine c d := by
  induction p generalizing c d m n with
  | empty =>
    obtain ⟨rfl, -⟩ := h
    exact .refl _ _
  | one accepts =>
    obtain ⟨a, r, hrest, ha, rfl, -⟩ := h
    refine ⟨[a], hrest, rfl, fun hl hmem => ?_⟩
    obtain rfl := mem_singleton.mp hmem
    rw [inOneLine, ha] at hl
    cases hl
  | here holds =>
    obtain ⟨-, rfl, -⟩ := h
    exact .refl _ _
  | seq p q ihp ihq =>
    obtain ⟨e, l, h, h'⟩ := h
    exact (ihp h).trans (ihq h')
  | alt p q ihp ihq =>
    rw [inOneLine]
    rcases h with h | h
    · exact (ihp h).mono fun hl => (Bool.and_eq_true _ _ ▸ hl).1
    · exact (ihq h).mono fun hl => (Bool.and_eq_true _ _ ▸ hl).2
  | many p ih => exact behind_of_reflTransGen (fun _ _ _ _ => ih) h
  | few p ih => exact behind_of_reflTransGen (fun _ _ _ _ => ih) h
  | mark j p ih =>
    obtain ⟨l, h, -⟩ := h
    exact ih h

/-! ### Marked names -/

/-- A text as names are: not empty, all on one line, and without a space or tab at its start. -/
def Namelike (w : List Char) : Prop := '\n' ∉ w ∧ ∃ a r, w = a :: r ∧ a ≠ ' ' ∧ a ≠ '\t'

def isName : Pattern → Bool
  | .seq (.one a) p => !a ' ' && !a '\t' && (seq (one a) p).inOneLine
  | _ => false

/-- The pattern marks with the number what a pattern of a kind takes, and no other text after it. -/
def marks (kind : Pattern → Bool) (l : Nat) : Pattern → Bool
  | .seq p q => q.marks kind l || (p.marks kind l && q.spares l)
  | .alt p q => p.marks kind l && q.marks kind l
  | .mark j p => j == l && kind p
  | _ => false

def marksName (l : Nat) (p : Pattern) : Bool := p.marks isName l

theorem exists_of_path_isName (hp : p.isName = true) (h : p.Path c m d n) :
    ∃ w, c.rest = w ++ d.rest ∧ d.offset = c.offset + w.length ∧ Namelike w := by
  unfold isName at hp
  split at hp
  · next a q =>
    simp only [Bool.and_eq_true, Bool.not_eq_true'] at hp
    obtain ⟨⟨hspace, htab⟩, hline⟩ := hp
    obtain ⟨w, hw, hoffset, hnl⟩ := behind_of_path h
    obtain ⟨e, l, ⟨x, r, hrest, hx, rfl, rfl⟩, hq⟩ := h
    obtain ⟨v, hv, hvoffset, -⟩ := behind_of_path hq
    have hxv : w = x :: v := by
      have hcons : w ++ d.rest = x :: v ++ d.rest := by
        rw [← hw, hrest]
        exact congrArg (x :: ·) hv
      exact append_cancel_right hcons
    refine ⟨w, hw, hoffset, hnl hline, x, v, hxv, ?_, ?_⟩
    · rintro rfl
      rw [hx] at hspace
      cases hspace
    · rintro rfl
      rw [hx] at htab
      cases htab
  · cases hp

/-- What is known of the texts that a kind of pattern takes is known of the marked text, which begins
    behind the place where the way begins. -/
theorem capture_of_marks {kind : Pattern → Bool} {P : List Char → Prop}
    (hkind : ∀ p c m d n, kind p = true → p.Path c m d n →
      ∃ w, c.rest = w ++ d.rest ∧ d.offset = c.offset + w.length ∧ P w) (hp : p.marks kind l = true)
    (h : p.Path c m d n) : ∃ x, n.find? (fun e => e.1 == l) = some (l, x) ∧ P x.text ∧
      Behind false c ⟨none, x.start, x.rest⟩ := by
  induction p generalizing c d m n with
  | seq p q ihp ihq =>
    obtain ⟨e, k, h, h'⟩ := h
    rw [marks, Bool.or_eq_true, Bool.and_eq_true] at hp
    rcases hp with hq | ⟨hp, hq⟩
    · obtain ⟨x, hx, htext, hbehind⟩ := ihq hq h'
      exact ⟨x, hx, htext, ((behind_of_path h).trans hbehind).mono nofun⟩
    · rw [find?_of_path hq h']
      exact ihp hp h
  | alt p q ihp ihq =>
    rw [marks, Bool.and_eq_true] at hp
    exact h.elim (ihp hp.1) (ihq hp.2)
  | mark j p ih =>
    obtain ⟨k, h, rfl⟩ := h
    rw [marks, Bool.and_eq_true, beq_iff_eq] at hp
    obtain ⟨rfl, hp⟩ := hp
    obtain ⟨w, hw, hoffset, htext⟩ := hkind _ _ _ _ _ hp h
    refine ⟨_, find?_cons_of_pos (BEq.rfl), ?_, [], rfl, rfl, nofun⟩
    rwa [Capture.text, hw, hoffset, Nat.add_sub_cancel_left, take_left]
  | _ => exact absurd hp Bool.false_ne_true

theorem capture?_of_path (hp : p.marksName l = true) (h : p.Path c [] x.stop x.captures) :
    ∃ y, x.capture? l = some y ∧ Namelike y.text ∧ Behind false c ⟨none, y.start, y.rest⟩ := by
  obtain ⟨y, hy, hname, hbehind⟩ := capture_of_marks (fun _ _ _ _ _ hq hpath => exists_of_path_isName hq hpath) hp h
  exact ⟨y, by rw [Match.capture?, hy]; rfl, hname, hbehind⟩

theorem namelike_group_of_search (hp : p.marksName l = true) (h : p.search t = some x) : Namelike (x.group l) := by
  rw [search_eq] at h
  obtain ⟨y, hy, hname, -⟩ := capture?_of_path hp (path_of_matchAt (matchAt_of_searchAt h)).2
  rwa [Match.group, hy]

end Pattern

end ContractAudit.Text

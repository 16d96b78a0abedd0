import Mathlib.Data.List.Forall2
import ContractAudit.Proofs.PatternRuns
import ContractAudit.Proofs.Seam

/-! # Patterns that cross a seam

A pattern can stop before the blank, where the text without it has no place of its own. -/

namespace ContractAudit.Text
open Source Seam
open Source (Seam)

/-- What is known about the place before the blank of a seam, for what follows a pattern. -/
inductive Outlook where
  | unknown
  /-- It fails before the blank if it fails after it. -/
  | covered
  /-- It does the same before the blank as after it. -/
  | alike
  /-- It fails before the blank. -/
  | blocked
deriving DecidableEq

/-- What is known of a choice between two patterns. -/
def Outlook.meet : Outlook → Outlook → Outlook
  | .unknown, _ => .unknown
  | _, .unknown => .unknown
  | .blocked, .blocked => .blocked
  | .alike, .alike => .alike
  | _, _ => .covered

/-- What is left of an outlook once the text so far is marked. -/
def Outlook.marked (o : Outlook) : Outlook := if o = .blocked then .blocked else .unknown

namespace Pattern

/-- The pattern takes any space or tab, and nothing but one character. -/
def swallows : Pattern → Bool
  | .one accepts => accepts ' ' && accepts '\t'
  | _ => false

/-- What is known about the place before the blank for a pattern and what follows it, from what is
    known for what follows it. -/
def before : Pattern → Outlook → Outlook
  | .empty, o => o
  | .one accepts, _ => if accepts ' ' || accepts '\t' then .unknown else .blocked
  | .here holds, o =>
    if holds none (some ' ') || holds none (some '\t') || holds (some '\n') (some ' ')
        || holds (some '\n') (some '\t') then
      o.marked
    else .blocked
  | .seq p q, o => p.before (q.before o)
  | .alt p q, o => (p.before o).meet (q.before o)
  | .many p, o =>
    if p.swallows then if o = .unknown then .unknown else .alike
    else if p.before .blocked = .blocked then if o = .alike then .covered else o
    else .unknown
  | .few _, _ => .unknown
  | .mark _ p, o => (p.before o.marked).marked

/-- The pattern finds the same with the blank as without it, given what is known about what follows.
    Only a newline leads to the place before the blank, and none does if the blank is `first` in the
    text. -/
def crosses (first : Bool) : Pattern → Outlook → Bool
  | .empty, _ => true
  | .one accepts, o => first || !accepts '\n' || o = .alike
  | .here _, _ => true
  | .seq p q, o => q.crosses first o && p.crosses first (q.before o)
  | .alt p q, o => p.crosses first o && q.crosses first o
  | .many p, o => p.crosses first ((many p).before o)
  | .few _, _ => false
  | .mark _ p, o => p.crosses first o.marked

/-- No test of the pattern tells the start of a line from a place after a blank. -/
def Blind : Pattern → Prop
  | .here holds => ∀ a b, a = none ∨ a = some '\n' → holds a b = holds (some ' ') b ∧
      holds a b = holds (some '\t') b
  | .seq p q => p.Blind ∧ q.Blind
  | .alt p q => p.Blind ∧ q.Blind
  | .many p => p.Blind
  | .few p => p.Blind
  | .mark _ p => p.Blind
  | _ => True

end Pattern

def gap (s : Seam) : Cursor := cursorAt s.wide s.pre.length
def pastGap (s : Seam) : Cursor := cursorAt s.wide (s.pre.length + 1)

def Outlook.Holds {α : Type} (s : Seam) (k : Pattern.Continuation α) : Outlook → Prop
  | .unknown => True
  | .covered => ∀ m, k (pastGap s) m = none → k (gap s) m = none
  | .alike => ∀ m, k (gap s) m = k (pastGap s) m
  | .blocked => ∀ m, k (gap s) m = none

namespace Pattern
variable {α : Type} {s : Seam} {o : Outlook} {m : Captures} {k : Continuation α}

theorem covered_of_holds (hk : o.Holds s k) (ho : o ≠ .unknown) : Outlook.covered.Holds s k := by
  cases o with
  | unknown => exact absurd rfl ho
  | covered => exact hk
  | alike => exact fun m h => (hk m).trans h
  | blocked => exact fun m _ => hk m

theorem run_one_gap {accepts : Char → Bool} :
    (one accepts).run (gap s) m k = if accepts s.blank then k (pastGap s) m else none :=
  run_one s.getElem?_gap

theorem run_many_gap (p : Pattern) : (many p).run (gap s) m k =
      (p.run (gap s) m (onward s.pre.length fun c n => (many p).run c n k) <|> k (gap s) m) :=
  run_many p (by simp [wide])

theorem run_many_pastGap (p : Pattern) : (many p).run (pastGap s) m k =
      (p.run (pastGap s) m (onward (s.pre.length + 1) fun c n => (many p).run c n k) <|> k (pastGap s) m) :=
  run_many p (by simp [wide])

theorem holds_one {accepts : Char → Bool} (h : (accepts ' ' || accepts '\t') = false) :
    Outlook.blocked.Holds s (fun c n => (one accepts).run c n k) := by
  intro m
  rw [Bool.or_eq_false_iff] at h
  have hblank : accepts s.blank = false := by
    rcases s.indents with hb | hb <;> rw [hb]
    exacts [h.1, h.2]
  exact run_one_gap.trans (if_neg (by rw [hblank]; exact Bool.false_ne_true))

theorem holds_marked {k' : Continuation α} (hk : o.Holds s k)
    (h : (∀ m, k (gap s) m = none) → ∀ m, k' (gap s) m = none) : o.marked.Holds s k' := by
  unfold Outlook.marked
  split
  · next ho =>
    subst ho
    exact h hk
  · trivial

theorem last_cursorAt_pre (s : Seam) : (cursorAt s.text s.pre.length).last = none ∨
    (cursorAt s.text s.pre.length).last = some '\n' := by
  have hpre : (cursorAt s.text s.pre.length).last = s.pre.getLast? := by
    show (s.text.take s.pre.length).getLast? = _
    rw [Seam.text, List.take_left]
  rw [hpre]
  rcases s.pre_eq with hp | ⟨p, hp⟩
  · exact .inl (by rw [hp]; rfl)
  · exact .inr (by rw [hp, List.getLast?_concat])

theorem last_gap (s : Seam) : (gap s).last = (cursorAt s.text s.pre.length).last :=
  congrArg List.getLast? (take_of_le (Nat.le_refl _))

theorem holds_here {holds : Option Char → Option Char → Bool}
    (h : (holds none (some ' ') || holds none (some '\t') || holds (some '\n') (some ' ')
      || holds (some '\n') (some '\t')) = false) : Outlook.blocked.Holds s (fun c n => (here holds).run c n k) := by
  intro m
  simp only [Bool.or_eq_false_iff] at h
  obtain ⟨⟨⟨h1, h2⟩, h3⟩, h4⟩ := h
  have hlast := last_cursorAt_pre s
  rw [← last_gap] at hlast
  have hnext : (gap s).rest.head? = some s.blank := by
    rw [← s.getElem?_gap]
    exact List.head?_drop
  refine if_neg (Bool.not_eq_true _ ▸ ?_)
  rw [hnext]
  rcases hlast with hl | hl <;> rcases s.indents with hb | hb <;> rw [hl, hb] <;> assumption

theorem holds_meet {o o' : Outlook} {k' : Continuation α} (hk : o.Holds s k) (hk' : o'.Holds s k') :
    (o.meet o').Holds s fun c n => k c n <|> k' c n := by
  have covered (ho : o ≠ .unknown) (ho' : o' ≠ .unknown) : Outlook.covered.Holds s fun c n => k c n <|> k' c n := by
    intro m h
    have h : (k (pastGap s) m <|> k' (pastGap s) m) = none := h
    rw [Option.orElse_eq_orElse, Option.orElse_eq_or, Option.or_eq_none_iff] at h
    show (k (gap s) m <|> k' (gap s) m) = none
    rw [covered_of_holds hk ho m h.1, covered_of_holds hk' ho' m h.2]
    rfl
  have alike (h : Outlook.alike.Holds s k) (h' : Outlook.alike.Holds s k') :
      Outlook.alike.Holds s fun c n => k c n <|> k' c n := by
    intro m
    show (k (gap s) m <|> k' (gap s) m) = _
    rw [h m, h' m]
  have blocked (h : Outlook.blocked.Holds s k) (h' : Outlook.blocked.Holds s k') :
      Outlook.blocked.Holds s fun c n => k c n <|> k' c n := by
    intro m
    show (k (gap s) m <|> k' (gap s) m) = _
    rw [h m, h' m]
    rfl
  cases o <;> cases o' <;> first
    | trivial
    | exact alike hk hk'
    | exact blocked hk hk'
    | exact covered (by simp) (by simp)

theorem holds_many_of_swallows {p : Pattern} (hp : p.swallows = true)
    (hk : Outlook.covered.Holds s k) : Outlook.alike.Holds s (fun c n => (many p).run c n k) := by
  intro m
  cases p with
  | one accepts =>
    have hblank : accepts s.blank = true := by
      rw [swallows, Bool.and_eq_true] at hp
      rcases s.indents with hb | hb <;> rw [hb]
      exacts [hp.1, hp.2]
    have hgap : (many (one accepts)).run (gap s) m k = ((many (one accepts)).run (pastGap s) m k <|> k (gap s) m) := by
      rw [run_many_gap, run_one_gap, if_pos hblank]
      congr 1
      exact if_pos (Nat.lt_succ_self _)
    show (many (one accepts)).run (gap s) m k = (many (one accepts)).run (pastGap s) m k
    rw [hgap]
    cases h : (many (one accepts)).run (pastGap s) m k with
    | some a => rfl
    | none =>
      rw [run_many_pastGap, Option.orElse_eq_orElse, Option.orElse_eq_or, Option.or_eq_none_iff] at h
      exact hk m h.2
  | _ => exact absurd hp Bool.false_ne_true

theorem run_many_gap_of_blocked {p : Pattern} (hp : ∀ k : Continuation α, Outlook.blocked.Holds s k →
      Outlook.blocked.Holds s fun c n => p.run c n k) : (many p).run (gap s) m k = k (gap s) m := by
  rw [run_many_gap]
  have hstep := hp (onward s.pre.length fun c n => (many p).run c n k) (fun n => if_neg (Nat.lt_irrefl _)) m
  exact congrArg (· <|> k (gap s) m) hstep

theorem holds_many_of_blocked {p : Pattern} (hp : ∀ k : Continuation α, Outlook.blocked.Holds s k →
      Outlook.blocked.Holds s fun c n => p.run c n k) (hk : o.Holds s k) :
    (if o = .alike then .covered else o : Outlook).Holds s fun c n => (many p).run c n k := by
  have covered (h : Outlook.covered.Holds s k) : Outlook.covered.Holds s fun c n => (many p).run c n k := by
    intro m hpast
    have hpast : (many p).run (pastGap s) m k = none := hpast
    rw [run_many_pastGap, Option.orElse_eq_orElse, Option.orElse_eq_or, Option.or_eq_none_iff] at hpast
    exact (run_many_gap_of_blocked hp).trans (h m hpast.2)
  cases o with
  | unknown => trivial
  | covered => exact covered hk
  | alike => exact covered (covered_of_holds hk (by simp))
  | blocked => exact fun m => (run_many_gap_of_blocked hp).trans (hk m)

theorem holds_before (p : Pattern) (hk : o.Holds s k) : (p.before o).Holds s fun c n => p.run c n k := by
  induction p generalizing o k with
  | empty => exact hk
  | one accepts =>
    unfold before
    split
    · trivial
    · next h => exact holds_one (Bool.not_eq_true _ ▸ h)
  | here holds =>
    unfold before
    split
    · refine holds_marked hk fun h m => ?_
      simp only [run, h m, ite_self]
    · next h => exact holds_here (Bool.not_eq_true _ ▸ h)
  | seq p q ihp ihq => exact ihp (ihq hk)
  | alt p q ihp ihq => exact holds_meet (ihp hk) (ihq hk)
  | many p ih =>
    unfold before
    split
    · next hp =>
      split
      · trivial
      · next ho => exact holds_many_of_swallows hp (covered_of_holds hk ho)
    · split
      · next hp =>
        have hp (k : Continuation α) (hk : Outlook.blocked.Holds s k) :
            Outlook.blocked.Holds s fun c n => p.run c n k := hp ▸ ih hk
        exact holds_many_of_blocked hp hk
      · trivial
  | few p ih => trivial
  | mark j p ih =>
    let kept : Continuation α := fun c n =>
      k c ((j, ⟨s.pre.length, s.wide.drop s.pre.length, c.offset - s.pre.length⟩) :: n)
    have hkept : o.marked.Holds s kept := holds_marked hk fun h n => h _
    exact holds_marked (ih hkept) fun h m => h m

end Pattern

/-! ### The same run with the blank and without it -/

def Capture.Twin (s : Seam) (c c' : Capture) : Prop :=
  ∃ a b, c = ⟨a, s.text.drop a, b - a⟩ ∧
    c' = ⟨s.shift a, s.wide.drop (s.shift a), s.shift b - s.shift a⟩

def Captures.Twin (s : Seam) : Captures → Captures → Prop :=
  List.Forall₂ fun e e' => e.1 = e'.1 ∧ e.2.Twin s e'.2

namespace Pattern
variable {α β : Type} {R : α → β → Prop} {s : Seam} {first : Bool} {o : Outlook} {i : Nat}
  {m m' : Captures} {k : Continuation α} {k' : Continuation β}

theorem head?_cursorAt_shift : (cursorAt s.wide (s.shift i)).rest.head? = (cursorAt s.text i).rest.head? := by
  simp only [cursorAt, List.head?_drop, s.getElem?_shift]

theorem last_cursorAt_shift (hi : i ≤ s.text.length) : (cursorAt s.wide (s.shift i)).last = (cursorAt s.text i).last ∨
      ((cursorAt s.text i).last = none ∨ (cursorAt s.text i).last = some '\n') ∧
        (cursorAt s.wide (s.shift i)).last = some s.blank := by
  rcases lt_trichotomy i s.pre.length with h | rfl | h
  · rw [shift_of_lt h]
    exact .inl (congrArg List.getLast? (take_of_le h.le))
  · rw [shift_of_le (Nat.le_refl _), cursorAt_succ s.getElem?_gap]
    exact .inr ⟨last_cursorAt_pre s, rfl⟩
  · obtain ⟨j, rfl⟩ : ∃ j, i = j + 1 := ⟨i - 1, by omega⟩
    have hget := List.getElem?_eq_getElem (show j < s.text.length by omega)
    rw [shift_succ (by omega), cursorAt_succ hget, cursorAt_succ ((s.getElem?_shift j).trans hget)]
    exact .inl rfl

theorem holds_shift {holds : Option Char → Option Char → Bool} (h : (here holds).Blind) (hi : i ≤ s.text.length) :
    holds (cursorAt s.wide (s.shift i)).last (cursorAt s.wide (s.shift i)).rest.head? =
      holds (cursorAt s.text i).last (cursorAt s.text i).rest.head? := by
  rw [head?_cursorAt_shift]
  rcases last_cursorAt_shift hi with hl | ⟨hl, hl'⟩
  · rw [hl]
  · rw [hl']
    obtain ⟨hspace, htab⟩ := h _ (cursorAt s.text i).rest.head? hl
    rcases s.indents with hb | hb <;> rw [hb]
    exacts [hspace.symm, htab.symm]

theorem holds_onward (hk : o.Holds s k) : o.Holds s (onward (s.shift i) k) := by
  by_cases h : i < s.pre.length
  · have hgap (n : Captures) : onward (s.shift i) k (gap s) n = k (gap s) n := if_pos (by rw [shift_of_lt h]; exact h)
    have hpast (n : Captures) : onward (s.shift i) k (pastGap s) n = k (pastGap s) n :=
      if_pos (by rw [shift_of_lt h]; exact Nat.lt_succ_of_lt h)
    cases o with
    | unknown => trivial
    | covered => exact fun n hn => (hgap n).trans (hk n ((hpast n).symm.trans hn))
    | alike => exact fun n => (hgap n).trans ((hk n).trans (hpast n).symm)
    | blocked => exact fun n => (hgap n).trans (hk n)
  · have hgap (n : Captures) : onward (s.shift i) k (gap s) n = none :=
      if_neg (by rw [shift_of_le (by omega)]; show ¬ i + 1 < s.pre.length; omega)
    have hpast (n : Captures) : onward (s.shift i) k (pastGap s) n = none :=
      if_neg (by rw [shift_of_le (by omega)]; show ¬ i + 1 < s.pre.length + 1; omega)
    cases o with
    | unknown => trivial
    | covered => exact fun n _ => hgap n
    | alike => exact fun n => (hgap n).trans (hpast n).symm
    | blocked => exact hgap

/-- A pattern that crosses does the same without the blank and with it. -/
theorem rel_run (p : Pattern) (hp : p.crosses first o = true) (hb : p.Blind)
    (hs : first = false ∨ s.pre = []) (hk' : o.Holds s k') (hk : ∀ j n n', j ≤ s.text.length → Captures.Twin s n n' →
      Option.Rel R (k (cursorAt s.text j) n) (k' (cursorAt s.wide (s.shift j)) n'))
    (hi : i ≤ s.text.length) (hm : Captures.Twin s m m') :
    Option.Rel R (p.run (cursorAt s.text i) m k) (p.run (cursorAt s.wide (s.shift i)) m' k') := by
  induction p generalizing i m m' o k k' with
  | empty => exact hk i m m' hi hm
  | one accepts =>
    by_cases hlt : i < s.text.length
    · have hget := List.getElem?_eq_getElem hlt
      rw [run_one hget, run_one ((s.getElem?_shift i).trans hget)]
      split
      · next ha =>
        by_cases hnl : i + 1 = s.pre.length
        · -- the newline before the seam: what follows does the same at the gap as behind it
          have hn : accepts '\n' = true := by
            rwa [Option.some.inj (hget.symm.trans (getElem?_newline hnl))] at ha
          have hfirst : first = false := hs.resolve_right fun h => by simp [h] at hnl
          obtain rfl : o = .alike := by simpa [crosses, hn, hfirst] using hp
          rw [shift_of_lt (by omega), hnl, show k' (cursorAt s.wide s.pre.length) m' = _ from hk' m']
          have hpast := hk s.pre.length m m' (by omega) hm
          rwa [shift_of_le (Nat.le_refl _)] at hpast
        · rw [← shift_succ hnl]
          exact hk (i + 1) m m' (by omega) hm
      · exact .none
    · obtain rfl : i = s.text.length := by omega
      rw [run_one_of_le (Nat.le_refl _), run_one_of_le (by rw [shift_length_text])]
      exact .none
  | here holds =>
    unfold run
    rw [holds_shift hb hi]
    split
    · exact hk i m m' hi hm
    · exact .none
  | seq p q ihp ihq =>
    rw [crosses, Bool.and_eq_true] at hp
    exact ihp hp.2 hb.1 (holds_before q hk') (fun j n n' hj hn => ihq hp.1 hb.2 hk' hk hj hn) hi hm
  | alt p q ihp ihq =>
    rw [crosses, Bool.and_eq_true] at hp
    exact rel_orElse (ihp hp.1 hb.1 hk' hk hi hm) (ihq hp.2 hb.2 hk' hk hi hm)
  | many p ih =>
    induction hn : s.text.length - i using Nat.strong_induction_on generalizing i m m' with
    | _ n loop =>
      rw [run_many p hi, run_many p (shift_le hi)]
      refine rel_orElse (ih hp hb (holds_onward (holds_before (many p) hk')) ?_ hi hm) (hk i m m' hi hm)
      intro j c c' hj hc
      show Option.Rel R (if i < j then _ else none) (if s.shift i < s.shift j then _ else none)
      by_cases hij : i < j
      · rw [if_pos hij, if_pos (strictMono_shift hij)]
        exact loop _ (by omega) hj hc rfl
      · rw [if_neg hij, if_neg (by rwa [strictMono_shift.lt_iff_lt])]
        exact .none
  | few p ih => exact absurd hp Bool.false_ne_true
  | mark l p ih =>
    exact ih hp hb (holds_marked hk' fun h n => h _)
      (fun j n n' hj hn => hk j _ _ hj (.cons ⟨rfl, i, j, rfl, rfl⟩ hn)) hi hm

/-! ### The same matches -/

end Pattern

structure Match.Twin (s : Seam) (x x' : Match) : Prop where
  start : x'.start = s.shift x.start
  finish : x'.finish = s.shift x.finish
  start_le : x.start ≤ s.text.length
  finish_le : x.finish ≤ s.text.length
  stop : x.stop = cursorAt s.text x.finish
  captures : Captures.Twin s x.captures x'.captures

namespace Pattern
variable {s : Seam} {first : Bool} {p : Pattern} {i i' : Nat}

/-- The pattern finds the same matches in a text with the blank as in the text without it: it
    crosses whatever follows, and it does not begin with a blank. -/
structure Steady (first : Bool) (p : Pattern) : Prop where
  crosses : p.crosses first .unknown = true
  blocked : p.before .unknown = .blocked
  blind : p.Blind

theorem rel_matchAt (hp : p.crosses first .unknown = true) (hb : p.Blind)
    (hs : first = false ∨ s.pre = []) (hi : i ≤ s.text.length) :
    Option.Rel (Match.Twin s) (p.matchAt (cursorAt s.text i)) (p.matchAt (cursorAt s.wide (s.shift i))) :=
  rel_run p hp hb hs trivial (fun _ _ _ hj hn => .some ⟨rfl, rfl, hi, hj, rfl, hn⟩) hi .nil

theorem matchAt_gap (hp : p.Steady first) : p.matchAt (gap s) = none := by
  have h := holds_before p (o := .unknown) (s := s) (k := fun c m => some (Match.mk (gap s).offset c m))
    trivial
  rw [hp.blocked] at h
  exact h []

theorem rel_searchAt (hp : p.Steady first) (hs : first = false ∨ s.pre = []) (hi : i ≤ s.text.length)
    (h : s.At i i') : Option.Rel (Match.Twin s) (p.searchAt s.text i) (p.searchAt s.wide i') := by
  induction hn : s.wide.length - i' using Nat.strong_induction_on generalizing i i' with
  | _ n ih =>
    rcases h with rfl | ⟨rfl, rfl⟩
    · have hmatch := rel_matchAt hp.crosses hp.blind hs hi
      by_cases hlt : i < s.text.length
      · have hlt' := shift_lt hlt
        rw [searchAt_of_lt p hlt, searchAt_of_lt p hlt']
        exact rel_or hmatch (ih _ (by omega) hlt (s.at_succ i) rfl)
      · obtain rfl : i = s.text.length := by omega
        rw [searchAt_of_le p (Nat.le_refl _), searchAt_of_le p shift_length_text.ge]
        exact hmatch
    · have hlt := s.length_pre_lt
      rw [searchAt_of_lt p hlt, show p.matchAt (cursorAt s.wide s.pre.length) = none from matchAt_gap hp,
        Option.none_or]
      exact ih _ (by omega) hi (.inl (shift_of_le (Nat.le_refl _)).symm) rfl

/-- No match begins at the last character. -/
theorem findAt_last {t : List Char} (h : p.matchAt (cursorAt t i) = none) (hi : t.length = i + 1) (skip : Nat) :
    p.findAt skip t i = [] := by
  cases skip with
  | zero => rw [findAt_of_none p (by omega) h, findAt_of_le p 0 hi.le]
  | succ skip => rw [findAt_succ p skip (by omega), findAt_of_le p skip hi.le]

theorem forall₂_findAt {R : Match → Match → Prop} {t t' : List Char} {c : Nat}
    (hlength : t'.length = t.length + 1) (hgap : p.matchAt (cursorAt t' c) = none) (hmatch : ∀ i ≤ t.length,
      Option.Rel R (p.matchAt (cursorAt t i)) (p.matchAt (cursorAt t' (shiftAt c i))))
    (hend : t.length < c → p.matchAt (cursorAt t t.length) = none)
    (hR : ∀ x x', R x x' → x'.finish = shiftAt c x.finish) {skip skip' : Nat}
    (hi : i ≤ t.length) (h : Beside c i i') (hskip : Beside c (i + skip) (i' + skip')) :
    List.Forall₂ R (p.findAt skip t i) (p.findAt skip' t' i') := by
  induction hn : t'.length - i' using Nat.strong_induction_on generalizing i i' skip skip' with
  | _ n ih =>
    rcases h with rfl | ⟨rfl, rfl⟩
    · have hle : shiftAt c i ≤ i + 1 := by
        unfold shiftAt
        split <;> omega
      have hpos := shiftAt_lt_iff (i := i) hskip
      by_cases hlt : i < t.length
      · have hlt' : shiftAt c i < t'.length := by omega
        cases skip with
        | zero =>
          obtain rfl : skip' = 0 := by omega
          cases hx : p.matchAt (cursorAt t i) with
          | none =>
            rw [findAt_of_none p hlt hx, findAt_of_none p hlt' (eq_none_of_rel (hx ▸ hmatch i hi))]
            exact ih _ (by omega) hlt (beside_succ c i) (beside_succ c i) rfl
          | some x =>
            obtain ⟨x', hx', htwin⟩ := exists_of_rel (hx ▸ hmatch i hi)
            rw [findAt_of_some p hlt hx, findAt_of_some p hlt' hx', hR _ _ htwin]
            exact .cons htwin (ih _ (by omega) hlt (beside_succ c i) (beside_skip c i _) rfl)
        | succ skip =>
          obtain ⟨skip', rfl⟩ := Nat.exists_eq_add_one_of_ne_zero (n := skip') (by omega)
          rw [findAt_succ p skip hlt, findAt_succ p skip' hlt']
          refine ih _ (by omega) hlt (beside_succ c i) ?_ rfl
          rwa [Nat.add_right_comm, Nat.add_right_comm _ 1]
      · obtain rfl : i = t.length := by omega
        rw [findAt_of_le p skip (Nat.le_refl _)]
        by_cases hc : t.length < c
        · -- the new character is the last one of its text
          rw [findAt_last (eq_none_of_rel (hend hc ▸ hmatch t.length hi)) (by rw [shiftAt_of_lt hc, hlength])]
          exact .nil
        · rw [findAt_of_le p skip' (by rw [shiftAt_of_le (by omega)]; omega)]
          exact .nil
    · -- at the new character, its text takes a step alone
      have hlt : i' < t'.length := by omega
      have hpast : Beside i' i' (i' + 1) := .inl (shiftAt_of_le (Nat.le_refl _)).symm
      have hpos := shiftAt_lt_iff (i := i') hskip
      rw [shiftAt_of_le (Nat.le_refl _)] at hpos
      cases skip' with
      | zero =>
        obtain rfl : skip = 0 := by omega
        rw [findAt_of_none p hlt hgap]
        exact ih _ (by omega) hi hpast hpast rfl
      | succ skip' =>
        rw [findAt_succ p skip' hlt]
        refine ih _ (by omega) hi hpast ?_ rfl
        rwa [Nat.add_right_comm]

theorem rel_search (hp : p.Steady first) (hs : first = false ∨ s.pre = []) :
    Option.Rel (Match.Twin s) (p.search s.text) (p.search s.wide) :=
  rel_searchAt hp hs (Nat.zero_le _) s.at_zero

theorem rel_findAll (hp : p.Steady first) (hs : first = false ∨ s.pre = []) :
    List.Forall₂ (fun x x' => p.matchAt (cursorAt s.text x.start) = some x ∧ x.Twin s x')
      (p.findAll s.text) (p.findAll s.wide) := by
  refine (List.forall₂_and_left _ _).mpr ⟨fun x hx => (matchAt_of_mem_findAt (findAll_eq p _ ▸ hx)).2, ?_⟩
  exact forall₂_findAt length_wide (matchAt_gap hp) (fun _ hi => rel_matchAt hp.crosses hp.blind hs hi)
    (fun h => absurd h (by simp [Seam.text])) (fun _ _ h => h.finish) (Nat.zero_le _) s.at_zero s.at_zero

theorem occursIn_widens (hp : p.Steady false) {u u' : List Char} (h : Widens u u') :
    p.occursIn u' = p.occursIn u := by
  rcases h with rfl | ⟨s, rfl, rfl⟩
  · rfl
  · exact (isSome_of_rel (rel_search hp (.inl rfl))).symm

end Pattern

/-! ### Marked texts -/

theorem Capture.Twin.widens {s : Seam} {c c' : Capture} (h : c.Twin s c') : Widens c.text c'.text := by
  obtain ⟨a, b, rfl, rfl⟩ := h
  exact widens_between (s.at_shift a) (s.at_shift b)

theorem Capture.Twin.text_eq {s : Seam} {c c' : Capture} (h : c.Twin s c') (hn : '\n' ∉ c.text) :
    c'.text = c.text := by
  obtain ⟨a, b, rfl, rfl⟩ := h
  exact between_shift hn

theorem Captures.Twin.rel_capture? {s : Seam} {x x' : Match} (h : Captures.Twin s x.captures x'.captures)
    (l : Nat) : Option.Rel (Capture.Twin s) (x.capture? l) (x'.capture? l) := by
  unfold Match.capture?
  generalize x.captures = m at h ⊢
  generalize x'.captures = m' at h ⊢
  induction h with
  | nil => exact .none
  | @cons e e' _ _ he _ ih =>
    rw [List.find?_cons, List.find?_cons, ← he.1]
    split
    · exact .some he.2
    · exact ih

namespace Match.Twin
variable {s : Seam} {x x' : Match} (h : x.Twin s x')
include h

theorem rel_capture? (l : Nat) : Option.Rel (Capture.Twin s) (x.capture? l) (x'.capture? l) :=
  h.captures.rel_capture? l

theorem widens_group (l : Nat) : Widens (x.group l) (x'.group l) := by
  have h := h.rel_capture? l
  unfold Match.group
  generalize x.capture? l = y at h ⊢
  generalize x'.capture? l = y' at h ⊢
  cases h with
  | some hc => exact hc.widens
  | none => exact .refl _

theorem text_capture? (hs : s.pre = []) (l : Nat) : (x'.capture? l).map (·.text) = (x.capture? l).map (·.text) := by
  have h := h.rel_capture? l
  generalize x.capture? l = y at h ⊢
  generalize x'.capture? l = y' at h ⊢
  cases h with
  | some hc =>
    obtain ⟨a, b, rfl, rfl⟩ := hc
    exact congrArg some (between_shift_of_le (by simp [hs]) b)
  | none => rfl

end Match.Twin

/-! ### Patterns that are put together -/

namespace Pattern
variable {first : Bool} {o : Outlook}

@[simp] theorem blind_append {p q : Pattern} : (p ++ q).Blind ↔ p.Blind ∧ q.Blind := Iff.rfl

@[simp] theorem blind_opt {p : Pattern} : (opt p).Blind ↔ p.Blind := and_iff_left trivial

@[simp] theorem blind_some1 {p : Pattern} : (some1 p).Blind ↔ p.Blind := and_self_iff

@[simp] theorem blind_many {p : Pattern} : (many p).Blind ↔ p.Blind := Iff.rfl

@[simp] theorem blind_mark {l : Nat} {p : Pattern} : (mark l p).Blind ↔ p.Blind := Iff.rfl

@[simp] theorem blind_one {accepts : Char → Bool} : (one accepts).Blind := trivial

@[simp] theorem blind_char (c : Char) : (char c).Blind := trivial

@[simp] theorem blind_anyOf (s : String) : (anyOf s).Blind := trivial

@[simp] theorem blind_noneOf (s : String) : (noneOf s).Blind := trivial

@[simp] theorem blind_oneOf {l : List Pattern} : (oneOf l).Blind ↔ ∀ p ∈ l, p.Blind := by
  induction l with
  | nil => simp [oneOf]
  | cons p l ih =>
    cases l with
    | nil => simp [oneOf]
    | cons q l =>
      have hcons : (oneOf (p :: q :: l)).Blind ↔ p.Blind ∧ (oneOf (q :: l)).Blind := Iff.rfl
      rw [hcons, ih]
      exact List.forall_mem_cons.symm

@[simp] theorem blind_lit (s : String) : (lit s).Blind := by
  unfold lit
  induction s.toList with
  | nil => trivial
  | cons c l ih => exact ⟨trivial, ih⟩

@[simp] theorem blind_wordEdge : wordEdge.Blind := by
  rintro a b (rfl | rfl) <;> exact ⟨rfl, rfl⟩

@[simp] theorem blind_notBefore (s : String) : (notBefore s).Blind := fun _ _ _ => ⟨rfl, rfl⟩

@[simp] theorem blind_lineEnd : lineEnd.Blind := fun _ _ _ => ⟨rfl, rfl⟩

@[simp] theorem blind_textEnd : textEnd.Blind := fun _ _ _ => ⟨rfl, rfl⟩

@[simp] theorem blind_blanks : blanks.Blind := trivial

@[simp] theorem blind_blanks1 : blanks1.Blind := ⟨trivial, trivial⟩

@[simp] theorem blind_wordChar : wordChar.Blind := trivial

@[simp] theorem blind_digit : digit.Blind := trivial

@[simp] theorem blind_inLine : inLine.Blind := trivial

@[simp] theorem blind_anyChar : anyChar.Blind := trivial

@[simp] theorem blind_name : name.Blind := ⟨trivial, trivial⟩

@[simp] theorem blind_ident : ident.Blind := ⟨trivial, trivial⟩

@[simp] theorem blind_word (s : String) : (word s).Blind := by simp [word]

theorem crosses_append {p q : Pattern} :
    (p ++ q).crosses first o = (q.crosses first o && p.crosses first (q.before o)) := rfl

theorem before_append {p q : Pattern} : (p ++ q).before o = p.before (q.before o) := rfl

theorem crosses_lit {s : String} (h : Namelike s.toList) : (lit s).crosses first o = true := by
  obtain ⟨hline, -⟩ := h
  unfold lit
  generalize s.toList = l at hline
  induction l with
  | nil => rfl
  | cons c l ih =>
    rw [List.mem_cons, not_or] at hline
    rw [List.foldr_cons, crosses, ih hline.2, char, crosses, beq_false_of_ne hline.1]
    simp

theorem before_lit {s : String} (h : Namelike s.toList) : (lit s).before o = .blocked := by
  obtain ⟨-, c, l, hl, hspace, htab⟩ := h
  rw [lit, hl, List.foldr_cons, before, char, before, beq_false_of_ne hspace.symm, beq_false_of_ne htab.symm]
  rfl

end Pattern

end ContractAudit.Text

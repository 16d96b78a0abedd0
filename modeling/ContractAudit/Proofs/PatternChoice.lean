import ContractAudit.Proofs.PatternRuns

/-! # Which match a pattern prefers

A pattern takes a text between two others (`Takes`) if what follows is asked first at the end of that text;
then its answer is the answer. -/

namespace ContractAudit.Text
open Pattern List Cursor

def Cursor.after (u v : List Char) : Cursor := ⟨u.getLast?, u.length, v⟩

theorem cursorAt_append (u v : List Char) : cursorAt (u ++ v) u.length = .after u v := by
  rw [cursorAt, take_left, drop_left]
  rfl

theorem cursorAt_eq_after {t : List Char} {i : Nat} (h : i ≤ t.length) :
    cursorAt t i = .after (t.take i) (t.drop i) := by
  rw [cursorAt, Cursor.after, length_take, Nat.min_eq_left h]

namespace Pattern
variable {p q : Pattern} {u v w x t : List Char} {m m' m'' : Captures} {accepts : Char → Bool}
variable {d : Cursor} {n : Captures} {α : Type}

/-! ### Ways from a place -/

theorem exists_after_of_many {Q : List Char → Prop} (hnil : Q []) (happend : ∀ {w w'}, Q w → Q w' → Q (w ++ w'))
    (hp : ∀ {u t m d n}, p.Path (.after u t) m d n → ∃ w v, t = w ++ v ∧ Q w ∧ d = .after (u ++ w) v)
    (h : (many p).Path (.after u t) m d n) : ∃ w v, t = w ++ v ∧ Q w ∧ d = .after (u ++ w) v := by
  have hloop : ∀ x y : Cursor × Captures, Relation.ReflTransGen (fun x y => p.Path x.1 x.2 y.1 y.2) x y →
      ∀ u t, x.1 = .after u t → ∃ w v, t = w ++ v ∧ Q w ∧ y.1 = .after (u ++ w) v := by
    intro x y hxy
    induction hxy with
    | refl => exact fun u t hx => ⟨[], t, rfl, hnil, by rw [append_nil]; exact hx⟩
    | tail _ hstep ih =>
      intro u t hx
      obtain ⟨w, v, rfl, hw, hy⟩ := ih u t hx
      rw [hy] at hstep
      obtain ⟨w', v', rfl, hw', hd⟩ := hp hstep
      exact ⟨w ++ w', v', by rw [append_assoc], happend hw hw', by rw [hd, append_assoc]⟩
  exact hloop _ _ h u t rfl

theorem exists_after_of_path (h : p.Path (.after u t) m d n) : ∃ w v, t = w ++ v ∧ d = .after (u ++ w) v := by
  induction p generalizing u t m d n with
  | empty => exact ⟨[], t, rfl, by rw [append_nil]; exact h.1⟩
  | one accepts =>
    obtain ⟨a, r, hrest, -, rfl, -⟩ := h
    refine ⟨[a], r, hrest, ?_⟩
    simp [Cursor.after]
  | here holds => exact ⟨[], t, rfl, by rw [append_nil]; exact h.2.1⟩
  | seq p q ihp ihq =>
    obtain ⟨e, l, hp, hq⟩ := h
    obtain ⟨w, v, rfl, rfl⟩ := ihp hp
    obtain ⟨w', v', rfl, rfl⟩ := ihq hq
    exact ⟨w ++ w', v', by rw [append_assoc], by rw [append_assoc]⟩
  | alt p q ihp ihq => exact h.elim ihp ihq
  | many p ih | few p ih =>
    obtain ⟨w, v, ht, -, hd⟩ := exists_after_of_many (Q := fun _ => True) trivial (fun _ _ => trivial)
      (fun h => by simpa using ih h) h
    exact ⟨w, v, ht, hd⟩
  | mark j p ih =>
    obtain ⟨l, h, -⟩ := h
    exact ih h

theorem path_one (h : (one accepts).Path (.after u t) m d n) :
    ∃ a v, t = a :: v ∧ accepts a = true ∧ d = .after (u ++ [a]) v := by
  obtain ⟨a, r, hrest, ha, rfl, -⟩ := h
  refine ⟨a, r, hrest, ha, ?_⟩
  simp [Cursor.after]

theorem path_lit {s : List Char} (h : (s.foldr (fun c p => seq (char c) p) empty).Path (.after u t) m d n) :
    ∃ v, t = s ++ v ∧ d = .after (u ++ s) v := by
  induction s generalizing u t m with
  | nil => exact ⟨t, rfl, by rw [append_nil]; exact h.1⟩
  | cons c s ih =>
    obtain ⟨e, l, hc, hs⟩ := h
    obtain ⟨a, r, rfl, ha, rfl⟩ := path_one hc
    obtain ⟨v, rfl, rfl⟩ := ih hs
    obtain rfl : a = c := by simpa using ha
    exact ⟨v, rfl, by rw [append_assoc]; rfl⟩

theorem path_many_one (h : (many (one accepts)).Path (.after u t) m d n) :
    ∃ w v, t = w ++ v ∧ w.all accepts = true ∧ d = .after (u ++ w) v := by
  refine exists_after_of_many (Q := fun w => w.all accepts = true) rfl (fun hw hw' => by rw [all_append, hw, hw']; rfl)
    (fun h => ?_) h
  obtain ⟨a, v, ht, ha, hd⟩ := path_one h
  exact ⟨[a], v, ht, by simp [ha], hd⟩

theorem path_some1_cons (h : (some1 (one accepts)).Path (.after u t) m d n) :
    ∃ b w v, t = b :: w ++ v ∧ accepts b = true ∧ w.all accepts = true ∧ d = .after (u ++ b :: w) v := by
  obtain ⟨e, l, hone, hmany⟩ := h
  obtain ⟨b, r, rfl, hb, rfl⟩ := path_one hone
  obtain ⟨w, v, rfl, hw, rfl⟩ := path_many_one hmany
  exact ⟨b, w, v, rfl, hb, hw, by rw [append_assoc]; rfl⟩

theorem path_some1_one (h : (some1 (one accepts)).Path (.after u t) m d n) :
    ∃ w v, t = w ++ v ∧ w ≠ [] ∧ w.all accepts = true ∧ d = .after (u ++ w) v := by
  obtain ⟨b, w, v, rfl, hb, hw, rfl⟩ := path_some1_cons h
  exact ⟨b :: w, v, rfl, cons_ne_nil b w, by rw [all_cons, hb, hw]; rfl, rfl⟩

def Fails (p : Pattern) (u t : List Char) : Prop := ∀ m d n, ¬ p.Path (.after u t) m d n

theorem Fails.run {k : Continuation α} (h : p.Fails u t) : p.run (.after u t) m k = none := by
  cases hrun : p.run (.after u t) m k with
  | none => rfl
  | some a =>
    obtain ⟨d, n, hpath, -⟩ := path_of_run p hrun
    exact absurd hpath (h m d n)

theorem Fails.matchAt (h : p.Fails u t) : p.matchAt (.after u t) = none := h.run

theorem Fails.seq (h : p.Fails u t) (q : Pattern) : (p ++ q).Fails u t := by
  rintro m d n ⟨e, l, hp, -⟩
  exact h m e l hp

theorem fails_lit {s : String} (c : Char) (hs : s.toList.head? = some c) (h : t.head? ≠ some c) :
    (lit s).Fails u t := by
  intro m d n hpath
  obtain ⟨v, rfl, -⟩ := path_lit hpath
  obtain ⟨r, hr⟩ := head?_eq_some_iff.mp hs
  exact h (by rw [hr]; rfl)

/-! ### What is preferred -/

/-- Between two texts the pattern takes a third: what follows is asked at its end before it is asked
    anywhere else. -/
structure Takes (p : Pattern) (u w v : List Char) (m m' : Captures) : Prop where
  run_eq : ∀ {α : Type} (k : Continuation α), (k (.after (u ++ w) v) m').isSome = true →
    p.run (.after u (w ++ v)) m k = k (.after (u ++ w) v) m'

theorem takes_one {a : Char} (h : accepts a = true) : (one accepts).Takes u [a] v m m := by
  refine ⟨fun k _ => ?_⟩
  have hnext : (⟨some a, u.length + 1, v⟩ : Cursor) = .after (u ++ [a]) v := by simp [Cursor.after]
  simp only [run, Cursor.after, singleton_append, h, if_true, hnext]

theorem takes_empty : empty.Takes u [] v m m := by
  refine ⟨fun k _ => ?_⟩
  rw [append_nil]
  rfl

theorem takes_here {f : Option Char → Option Char → Bool} (h : f u.getLast? v.head? = true) :
    (here f).Takes u [] v m m := by
  refine ⟨fun k _ => ?_⟩
  rw [append_nil]
  simp only [run, Cursor.after, nil_append, h, if_true]

theorem Takes.seq (hp : p.Takes u w (x ++ v) m m') (hq : q.Takes (u ++ w) x v m' m'') :
    (p ++ q).Takes u (w ++ x) v m m'' := by
  refine ⟨fun {α} k hk => ?_⟩
  have hend : u ++ (w ++ x) = u ++ w ++ x := (append_assoc ..).symm
  rw [hend] at hk ⊢
  have hnext : q.run (.after (u ++ w) (x ++ v)) m' k = k (.after (u ++ w ++ x) v) m'' := hq.run_eq k hk
  rw [append_assoc w]
  exact (hp.run_eq (fun c n => q.run c n k) (by rw [hnext]; exact hk)).trans hnext

theorem Takes.left (hp : p.Takes u w v m m') (q : Pattern) : (alt p q).Takes u w v m m' := by
  refine ⟨fun {α} k hk => ?_⟩
  obtain ⟨a, ha⟩ := Option.isSome_iff_exists.mp hk
  rw [run, hp.run_eq k hk, ha]
  rfl

theorem Takes.right (hp : p.Fails u (w ++ v)) (hq : q.Takes u w v m m') : (alt p q).Takes u w v m m' := by
  refine ⟨fun {α} k hk => ?_⟩
  rw [run, hp.run, hq.run_eq k hk]
  rfl

theorem Fails.opt (h : p.Fails u v) : (opt p).Takes u [] v m m := .right h takes_empty

theorem Fails.many (h : p.Fails u v) : (many p).Takes u [] v m m := by
  refine ⟨fun k _ => ?_⟩
  rw [append_nil, nil_append, Pattern.run]
  cases v with
  | nil => rfl
  | cons a v =>
    show (p.run (.after u (a :: v)) m _ <|> k (.after u (a :: v)) m) = _
    rw [h.run]
    rfl

theorem Takes.mark (j : Nat) (hp : p.Takes u w v m m') :
    (mark j p).Takes u w v m ((j, ⟨u.length, w ++ v, w.length⟩) :: m') := by
  refine ⟨fun {α} k hk => ?_⟩
  have hlength : (after (u ++ w) v).offset - (after u (w ++ v)).offset = w.length := by
    simp [Cursor.after]
  rw [run]
  refine (hp.run_eq _ ?_).trans ?_
  · rw [hlength]
    exact hk
  · rw [hlength]
    rfl

theorem takes_char (c : Char) : (char c).Takes u [c] v m m := takes_one (by simp)

theorem takes_lit (s : String) : (lit s).Takes u s.toList v m m := by
  unfold lit
  induction s.toList generalizing u with
  | nil => exact takes_empty
  | cons c s ih => exact (takes_char c).seq ih

theorem run_one_step (k : Continuation α) (a : Char) :
    (one accepts).run (.after u (a :: v)) m (fun c n => if u.length < c.offset then k c n else none) =
      if accepts a then k (.after (u ++ [a]) v) m else none := by
  have hnext : (⟨some a, u.length + 1, v⟩ : Cursor) = .after (u ++ [a]) v := by simp [Cursor.after]
  rw [← hnext]
  simp [run, Cursor.after]

theorem orElse_of_none {a b : Option α} (h : a = none) : (a <|> b) = b := by
  rw [h]
  rfl

theorem repeatGreedy_eq_none {k : Continuation α} {b : List Char}
    (h : ∀ w v, t = w ++ v → w.all accepts = true → k (.after (u ++ w) v) m = none) :
    repeatGreedy (one accepts).run b (.after u t) m k = none := by
  have hnil := h [] t rfl rfl
  rw [append_nil] at hnil
  induction b generalizing u t with
  | nil => exact hnil
  | cons _ b ih =>
    refine (orElse_of_none ?_).trans hnil
    cases t with
    | nil => rfl
    | cons a t =>
      refine (run_one_step _ a).trans ?_
      split
      · next ha =>
        have hrest : ∀ w v, t = w ++ v → w.all accepts = true → k (.after (u ++ [a] ++ w) v) m = none := by
          intro w v ht hw
          rw [append_assoc]
          exact h (a :: w) v (by rw [ht]; rfl) (by rw [all_cons, ha, hw]; rfl)
        exact ih hrest (by simpa using hrest [] t rfl rfl)
      · rfl

/-- A greedy repetition goes as far as what follows it allows. -/
theorem takes_many_seq (hw : w.all accepts = true) (hq : q.Takes (u ++ w) x v m m')
    (hlonger : ∀ a b, x ++ v = a ++ b → a ≠ [] → a.all accepts = true → q.Fails (u ++ w ++ a) b) :
    (many (one accepts) ++ q).Takes u (w ++ x) v m m' := by
  refine ⟨fun {α} k hk => ?_⟩
  rw [← append_assoc] at hk ⊢
  obtain ⟨y, hy⟩ := Option.isSome_iff_exists.mp hk
  have hnext := (hq.run_eq k hk).trans hy
  have hloop : ∀ w b u, w.all accepts = true → w.length ≤ b.length → q.run (.after (u ++ w) (x ++ v)) m k = some y →
      (∀ a b, x ++ v = a ++ b → a ≠ [] → a.all accepts = true → q.Fails (u ++ w ++ a) b) →
      repeatGreedy (one accepts).run b (.after u (w ++ (x ++ v))) m (fun c n => q.run c n k) = some y := by
    intro w
    induction w with
    | nil =>
      intro b u _ _ hnext hlonger
      rw [append_nil] at hnext hlonger
      cases b with
      | nil => exact hnext
      | cons _ b =>
        refine (orElse_of_none ?_).trans hnext
        generalize x ++ v = t at hlonger
        cases t with
        | nil => rfl
        | cons a t =>
          refine (run_one_step _ a).trans ?_
          split
          · next ha =>
            refine repeatGreedy_eq_none fun w v ht hw => ?_
            rw [append_assoc]
            exact (hlonger (a :: w) v (by rw [ht]; rfl) (cons_ne_nil a w) (by rw [all_cons, ha, hw]; rfl)).run
          · rfl
    | cons a w ih =>
      intro b u hw hb hnext hlonger
      rw [all_cons, Bool.and_eq_true] at hw
      have hend : u ++ a :: w = u ++ [a] ++ w := by simp
      rw [hend] at hnext hlonger
      cases b with
      | nil => cases hb
      | cons _ b =>
        have hstep := (run_one_step (u := u) (m := m) (v := w ++ (x ++ v))
          (fun c n => repeatGreedy (one accepts).run b c n fun c n => q.run c n k) a).trans
            ((if_pos hw.1).trans (ih b (u ++ [a]) hw.2 (Nat.le_of_succ_le_succ hb) hnext hlonger))
        exact congrArg (· <|> q.run (.after u (a :: w ++ (x ++ v))) m k) hstep
  rw [append_assoc]
  exact (hloop w (w ++ (x ++ v)) u hw (by simp) hnext hlonger).trans hy.symm

/-- A lazy repetition goes as far as what follows it needs. -/
theorem takes_few_seq (j : Nat) (hw : w.all accepts = true)
    (hq : q.Takes (u ++ w) x v ((j, ⟨u.length, w ++ (x ++ v), w.length⟩) :: m) m')
    (hshorter : ∀ a b, w = a ++ b → b ≠ [] → q.Fails (u ++ a) (b ++ (x ++ v))) :
    (mark j (few (one accepts)) ++ q).Takes u (w ++ x) v m m' := by
  refine ⟨fun {α} k hk => ?_⟩
  rw [← append_assoc] at hk ⊢
  have hnext := hq.run_eq k hk
  have hloop : ∀ b c a, w = a ++ b → b.length ≤ c.length →
      repeatLazy (one accepts).run c (.after (u ++ a) (b ++ (x ++ v))) m (fun d n =>
        q.run d ((j, ⟨u.length, w ++ (x ++ v), d.offset - u.length⟩) :: n) k) = k (.after (u ++ w ++ x) v) m' := by
    intro b
    induction b with
    | nil =>
      intro c a ha _
      rw [append_nil] at ha
      subst ha
      have hlength : (after (u ++ w) (x ++ v)).offset - u.length = w.length := by simp [Cursor.after]
      obtain ⟨y, hy⟩ := Option.isSome_iff_exists.mp hk
      cases c with
      | nil =>
        rw [repeatLazy, nil_append, hlength]
        exact hnext
      | cons _ c =>
        rw [repeatLazy, nil_append, hlength, hnext, hy]
        rfl
    | cons d b ih =>
      intro c a ha hc
      cases c with
      | nil => cases hc
      | cons _ c =>
        refine (orElse_of_none (hshorter a (d :: b) ha (cons_ne_nil d b)).run).trans ?_
        have hd : accepts d = true := all_eq_true.mp hw d (ha ▸ mem_append_right a (.head b))
        refine (run_one_step _ d).trans ((if_pos hd).trans ?_)
        rw [append_assoc]
        exact ih c (a ++ [d]) (by rw [ha, append_assoc]; rfl) (Nat.le_of_succ_le_succ hc)
  rw [append_assoc]
  have hstart := hloop w (w ++ (x ++ v)) [] rfl (by simp)
  rw [append_nil] at hstart
  exact hstart

theorem takes_many_one (hw : w.all accepts = true) (hv : v.head?.any accepts = false) :
    (many (one accepts)).Takes u w v m m := by
  have hseq : (many (one accepts) ++ empty).Takes u (w ++ []) v m m := by
    refine takes_many_seq hw takes_empty fun a b hab hne ha => ?_
    obtain ⟨c, a, rfl⟩ := exists_cons_of_ne_nil hne
    rw [nil_append] at hab
    rw [all_cons, Bool.and_eq_true] at ha
    rw [hab, cons_append, head?_cons, Option.any_some, ha.1] at hv
    cases hv
  rw [append_nil] at hseq
  exact ⟨fun k hk => hseq.run_eq k hk⟩

theorem takes_some1_one (hw : w.all accepts = true) (hne : w ≠ []) (hv : v.head?.any accepts = false) :
    (some1 (one accepts)).Takes u w v m m := by
  cases w with
  | nil => exact absurd rfl hne
  | cons a w =>
    rw [all_cons, Bool.and_eq_true] at hw
    exact (takes_one hw.1).seq (takes_many_one hw.2 hv)

theorem takes_wordEdge (hu : u.getLast?.any isWordChar = false) (hv : v.head?.any isWordChar = true) :
    wordEdge.Takes u [] v m m := takes_here (by rw [hu, hv]; rfl)

theorem Takes.matchAt (h : p.Takes u w v [] m') :
    p.matchAt (.after u (w ++ v)) = some ⟨u.length, .after (u ++ w) v, m'⟩ := h.run_eq _ rfl

/-! ### All matches -/

theorem findAt_skip (p : Pattern) {i n : Nat} (h : i + n ≤ t.length) : p.findAt n t i = p.findAt 0 t (i + n) := by
  induction n generalizing i with
  | zero => rfl
  | succ n ih =>
    rw [findAt_succ p n (by omega), ih (by omega)]
    congr 1
    omega

/-- The matches of a text are the listed ones, if these lie apart from each other in order, and a
    match that begins anywhere begins in one of them. -/
theorem findAt_eq_of_spans {ms : List Match} {i : Nat}
    (hms : ∀ x ∈ ms, p.matchAt (cursorAt t x.start) = some x ∧ x.start < x.finish ∧ x.finish ≤ t.length)
    (happart : ms.Pairwise fun x y => x.finish ≤ y.start) (hi : ∀ x ∈ ms, i ≤ x.start)
    (hother : ∀ j, i ≤ j → j < t.length → p.matchAt (cursorAt t j) ≠ none → ∃ x ∈ ms, x.start ≤ j ∧ j < x.finish) :
    p.findAt 0 t i = ms := by
  induction hn : t.length - i using Nat.strongRecOn generalizing i ms with
  | _ n ih =>
    subst hn
    by_cases hlt : i < t.length
    · cases ms with
      | nil =>
        have hnone : p.matchAt (cursorAt t i) = none := by
          refine Classical.byContradiction fun hsome => ?_
          obtain ⟨x, hx, -⟩ := hother i (Nat.le_refl i) hlt hsome
          cases hx
        rw [findAt_of_none p hlt hnone]
        exact ih _ (by omega) hms happart (by simp) (fun j hj => hother j (by omega)) rfl
      | cons x ms =>
        obtain ⟨hmatch, hpos, hend⟩ := hms x (.head _)
        obtain ⟨hx, happart'⟩ := pairwise_cons.mp happart
        have hix := hi x (.head _)
        by_cases heq : i = x.start
        · subst heq
          rw [findAt_of_some p hlt hmatch, findAt_skip p (by omega),
            show x.start + 1 + (x.finish - x.start - 1) = x.finish by omega]
          congr 1
          refine ih _ (by omega) (fun y hy => hms y (.tail _ hy)) happart' hx (fun j hj hjt hsome => ?_) rfl
          obtain ⟨y, hy, hyj, hjy⟩ := hother j (by omega) hjt hsome
          rcases mem_cons.mp hy with rfl | hy
          · omega
          · exact ⟨y, hy, hyj, hjy⟩
        · have hnone : p.matchAt (cursorAt t i) = none := by
            refine Classical.byContradiction fun hsome => ?_
            obtain ⟨y, hy, hyi, -⟩ := hother i (Nat.le_refl i) hlt hsome
            rcases mem_cons.mp hy with rfl | hy
            · omega
            · have := hx y hy
              omega
          rw [findAt_of_none p hlt hnone]
          refine ih _ (by omega) hms happart (fun y hy => ?_) (fun j hj => hother j (by omega)) rfl
          rcases mem_cons.mp hy with rfl | hy
          · omega
          · have := hx y hy
            omega
    · rw [findAt_of_le p 0 (by omega)]
      cases ms with
      | nil => rfl
      | cons x ms =>
        have := hms x (.head _)
        have := hi x (.head _)
        omega

theorem findAll_eq_nil (h : ∀ u v, t = u ++ v → p.Fails u v) : p.findAll t = [] := by
  rw [findAll_eq]
  refine findAt_eq_of_spans (by simp) .nil (by simp) fun j _ hj hsome => absurd ?_ hsome
  rw [cursorAt_eq_after (by omega)]
  exact (h _ _ (take_append_drop j t).symm).matchAt

/-- A search goes on from behind a text in which no way leads onward. -/
theorem searchFrom_skip (hfails : ∀ a b, w = a ++ b → b ≠ [] → p.Fails (u ++ a) (b ++ v)) :
    p.searchFrom u.getLast? u.length (w ++ v) = p.searchFrom (u ++ w).getLast? (u ++ w).length v := by
  induction w generalizing u with
  | nil => rw [append_nil, nil_append]
  | cons c w ih =>
    have hnone : p.matchAt ⟨u.getLast?, u.length, c :: (w ++ v)⟩ = none := by
      have hstart := hfails [] (c :: w) rfl (cons_ne_nil c w)
      rw [append_nil] at hstart
      exact hstart.matchAt
    have hnext := ih (u := u ++ [c]) fun a b hab hb => by
      rw [append_assoc]
      exact hfails (c :: a) b (by rw [hab]; rfl) hb
    rw [append_assoc, singleton_append, getLast?_concat, length_append, length_singleton] at hnext
    rw [cons_append, searchFrom, hnone]
    exact hnext

theorem search_eq_none (h : ∀ u v, t = u ++ v → p.Fails u v) : p.search t = none := by
  have hskip := searchFrom_skip (u := []) (w := t) (v := []) fun a b hab _ => by simpa using h a b hab
  rw [append_nil] at hskip
  exact hskip.trans (h t [] (append_nil t).symm).matchAt

theorem searchFrom_of_matchAt {y : Match} (h : p.matchAt (.after u v) = some y) :
    p.searchFrom u.getLast? u.length v = some y := by
  have hat : p.matchAt ⟨u.getLast?, u.length, v⟩ = some y := h
  cases v with
  | nil => exact hat
  | cons c v => rw [searchFrom, hat]

theorem search_eq_some {y : Match} (hfails : ∀ a b, u = a ++ b → b ≠ [] → p.Fails a (b ++ v))
    (h : p.matchAt (.after u v) = some y) : p.search (u ++ v) = some y :=
  (searchFrom_skip (u := []) hfails).trans (searchFrom_of_matchAt h)

theorem isSome_search (h : (p.matchAt (.after u v)).isSome = true) : (p.search (u ++ v)).isSome = true := by
  have hfrom : ∀ b a, u = a ++ b → (p.searchFrom a.getLast? a.length (b ++ v)).isSome = true := by
    intro b
    induction b with
    | nil =>
      intro a ha
      rw [append_nil] at ha
      subst ha
      obtain ⟨y, hy⟩ := Option.isSome_iff_exists.mp h
      rw [nil_append, searchFrom_of_matchAt hy]
      rfl
    | cons c b ih =>
      intro a ha
      rw [cons_append, searchFrom]
      split
      · rfl
      · have hnext := ih (a ++ [c]) (by rw [ha, append_assoc, singleton_append])
        rwa [getLast?_concat, length_append, length_singleton] at hnext
  exact hfrom u [] rfl

/-! ### Longest stretches -/

def RunIn (accepts : Char → Bool) (w t : List Char) : Prop :=
  ∃ a b, t = a ++ w ++ b ∧ w ≠ [] ∧ w.all accepts = true ∧ a.getLast?.any accepts = false ∧
    b.head?.any accepts = false

theorem any_head?_dropWhile (accepts : Char → Bool) (t : List Char) :
    (t.dropWhile accepts).head?.any accepts = false := by
  have hhead := head?_dropWhile_not accepts t
  cases h : (t.dropWhile accepts).head? with
  | none => rfl
  | some c =>
    rw [h] at hhead
    exact hhead

theorem runIn_cons {c : Char} (hc : accepts c = false) : RunIn accepts w (c :: t) ↔ RunIn accepts w t := by
  constructor
  · rintro ⟨a, b, h, hne, hall, ha, hb⟩
    cases a with
    | nil =>
      obtain ⟨d, w, rfl⟩ := exists_cons_of_ne_nil hne
      obtain rfl : c = d := (List.cons.inj h).1
      rw [all_cons, hc] at hall
      cases hall
    | cons d a =>
      refine ⟨a, b, (List.cons.inj h).2, hne, hall, ?_, hb⟩
      cases hlast : a.getLast? with
      | none => rfl
      | some e =>
        rw [getLast?_cons, hlast] at ha
        exact ha
  · rintro ⟨a, b, rfl, hne, hall, ha, hb⟩
    refine ⟨c :: a, b, rfl, hne, hall, ?_, hb⟩
    cases hlast : a.getLast? with
    | none =>
      rw [getLast?_cons, hlast]
      exact hc
    | some e =>
      rw [getLast?_cons, hlast]
      rw [hlast] at ha
      exact ha

theorem runIn_append_of_none (hx : ∀ c ∈ x, accepts c = false) : RunIn accepts w (x ++ t) ↔ RunIn accepts w t := by
  induction x with
  | nil => rfl
  | cons c x ih => exact (runIn_cons (hx c (.head _))).trans (ih fun d hd => hx d (.tail _ hd))

theorem any_getLast?_of_all (hne : x ≠ []) (hx : x.all accepts = true) : x.getLast?.any accepts = true := by
  rw [getLast?_eq_some_getLast hne]
  exact all_eq_true.mp hx _ (getLast_mem hne)

theorem any_head?_of_all (hne : x ≠ []) (hx : x.all accepts = true) (t : List Char) :
    (x ++ t).head?.any accepts = true := by
  obtain ⟨c, x, rfl⟩ := exists_cons_of_ne_nil hne
  exact all_eq_true.mp hx c (.head x)

theorem runIn_append (hne : x ≠ []) (hx : x.all accepts = true) (ht : t.head?.any accepts = false) :
    RunIn accepts w (x ++ t) ↔ w = x ∨ RunIn accepts w t := by
  constructor
  · rintro ⟨a, b, h, hwne, hw, ha, hb⟩
    rw [append_assoc] at h
    rcases append_eq_append_iff.mp h with ⟨y, rfl, rfl⟩ | ⟨y, rfl, hy⟩
    · refine .inr ⟨y, b, (append_assoc ..).symm, hwne, hw, ?_, hb⟩
      cases hlast : y.getLast? with
      | none => rfl
      | some e =>
        rw [getLast?_append, hlast] at ha
        exact ha
    · -- the stretch begins with the text
      obtain rfl : a = [] := by
        refine Classical.byContradiction fun hane => ?_
        rw [all_append, Bool.and_eq_true] at hx
        rw [any_getLast?_of_all hane hx.1] at ha
        cases ha
      rw [nil_append] at hx hne ⊢
      rcases append_eq_append_iff.mp hy with ⟨z, rfl, rfl⟩ | ⟨z, rfl, rfl⟩
      · by_cases hz : z = []
        · exact .inl (by rw [hz, append_nil])
        · rw [all_append, Bool.and_eq_true] at hx
          rw [any_head?_of_all hz hx.2] at hb
          cases hb
      · by_cases hz : z = []
        · exact .inl (by rw [hz, append_nil])
        · rw [all_append, Bool.and_eq_true] at hw
          rw [any_head?_of_all hz hw.2] at ht
          cases ht
  · rintro (rfl | ⟨a, b, rfl, hwne, hw, ha, hb⟩)
    · exact ⟨[], t, rfl, hne, hx, rfl, ht⟩
    · refine ⟨x ++ a, b, by simp only [append_assoc], hwne, hw, ?_, hb⟩
      cases hlast : a.getLast? with
      | none =>
        obtain rfl : a = [] := getLast?_eq_none_iff.mp hlast
        rw [nil_append, any_head?_of_all hwne hw] at ht
        cases ht
      | some e =>
        rw [hlast] at ha
        rw [getLast?_append, hlast]
        exact ha

theorem findAt_some1_of_not (c : Char) (hc : accepts c = false) :
    (some1 (one accepts)).findAt 0 (u ++ c :: v) u.length =
    (some1 (one accepts)).findAt 0 (u ++ c :: v) (u.length + 1) := by
  have hfails : (some1 (one accepts)).Fails u (c :: v) := by
    intro m d l hpath
    obtain ⟨w, r, hw, hne, hall, -⟩ := path_some1_one hpath
    obtain ⟨d, w, rfl⟩ := exists_cons_of_ne_nil hne
    obtain rfl : c = d := (List.cons.inj hw).1
    rw [all_cons, hc] at hall
    cases hall
  exact findAt_of_none _ (by simp) (by rw [cursorAt_append]; exact hfails.matchAt)

theorem findAt_some1_of_all (hne : x ≠ []) (hx : x.all accepts = true) (hv : v.head?.any accepts = false) :
    (some1 (one accepts)).findAt 0 (u ++ (x ++ v)) u.length =
      ⟨u.length, .after (u ++ x) v, []⟩ :: (some1 (one accepts)).findAt 0 (u ++ (x ++ v)) (u ++ x).length := by
  have hpos : 0 < x.length := length_pos_iff.mpr hne
  have hmatch : (some1 (one accepts)).matchAt (cursorAt (u ++ (x ++ v)) u.length) =
      some ⟨u.length, .after (u ++ x) v, []⟩ := by
    rw [cursorAt_append]
    exact (takes_some1_one hx hne hv).matchAt
  have hend : u.length + 1 + ((u ++ x).length - u.length - 1) = (u ++ x).length := by
    rw [length_append]
    omega
  rw [findAt_of_some _ (by simp; omega) hmatch]
  show _ :: findAt _ ((u ++ x).length - u.length - 1) _ _ = _
  rw [findAt_skip _ (by rw [hend]; simp), hend]

theorem mem_findAt_some1_iff (u v : List Char) : (∃ y ∈ (some1 (one accepts)).findAt 0 (u ++ v) u.length,
    ((u ++ v).drop y.start).take (y.finish - y.start) = w) ↔ RunIn accepts w v := by
  induction hn : v.length using Nat.strongRecOn generalizing u v with
  | _ n ih =>
    cases v with
    | nil =>
      rw [findAt_of_le _ _ (by simp)]
      constructor
      · rintro ⟨y, hy, -⟩
        cases hy
      · rintro ⟨a, b, h, hne, -⟩
        simp only [nil_eq, append_eq_nil_iff] at h
        exact absurd h.1.2 hne
    | cons c v =>
      rw [length_cons] at hn
      cases hc : accepts c with
      | false =>
        rw [findAt_some1_of_not c hc, runIn_cons hc]
        simpa using ih v.length (by omega) (u ++ [c]) v rfl
      | true =>
        obtain ⟨x, r, hcv, hne, hx, hr⟩ : ∃ x r, c :: v = x ++ r ∧ x ≠ [] ∧ x.all accepts = true ∧
            r.head?.any accepts = false := by
          refine ⟨(c :: v).takeWhile accepts, (c :: v).dropWhile accepts,
            takeWhile_append_dropWhile.symm, ?_, all_takeWhile, any_head?_dropWhile accepts _⟩
          rw [takeWhile_cons_of_pos hc]
          exact cons_ne_nil c _
        have hpos : 0 < x.length := length_pos_iff.mpr hne
        have hsum := congrArg List.length hcv
        rw [length_cons, length_append] at hsum
        have hfinish : (Match.mk u.length (.after (u ++ x) r) []).finish = u.length + x.length := length_append
        rw [hcv, findAt_some1_of_all hne hx hr, runIn_append hne hx hr, ← ih r.length (by omega) (u ++ x) r rfl,
          append_assoc]
        simp only [mem_cons, exists_eq_or_imp, hfinish, drop_left, Nat.add_sub_cancel_left, take_left]
        exact or_congr_left eq_comm

theorem mem_findAll_some1_iff :
    (∃ y ∈ (some1 (one accepts)).findAll t, (t.drop y.start).take (y.finish - y.start) = w) ↔ RunIn accepts w t :=
  mem_findAt_some1_iff [] t

end Pattern

end ContractAudit.Text

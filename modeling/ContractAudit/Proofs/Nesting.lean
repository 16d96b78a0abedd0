import Mathlib.Logic.ExistsUnique
import ContractAudit.Proofs.ItemSpans

/-! # Blocks nest

The end of a block is found by counting brackets from the one that opens it. -/

namespace ContractAudit.Source
open Text List Pattern

/-- A stretch of a text from one offset to another, both of them included. -/
structure Span where
  start : Nat
  stop : Nat
deriving DecidableEq, Repr

namespace Span

def Disjoint (a b : Span) : Prop := a.stop < b.start ∨ b.stop < a.start

def Inside (a b : Span) : Prop := b.start ≤ a.start ∧ a.stop ≤ b.stop

end Span

variable {t : List Char} {p q : Nat}

section Counting
variable {o c : Char} {depth depth' n e k : Nat} {l : List Char}

theorem closeFrom_of_le (hd : depth' ≤ depth) (h : closeFrom o c depth n l = some e) :
    ∃ e', closeFrom o c depth' n l = some e' ∧ e' ≤ e := by
  induction l generalizing depth depth' n with
  | nil => cases h
  | cons a l ih =>
    have hend := (closeFrom_bounds h).1
    rw [closeFrom] at h ⊢
    split at h
    · next ha =>
      rw [if_pos ha]
      exact ih (Nat.succ_le_succ hd) h
    · next ha =>
      rw [if_neg ha]
      split at h
      · next hc =>
        rw [if_pos hc]
        by_cases hd' : depth' ≤ 1
        · exact ⟨n, if_pos hd', hend⟩
        · rw [if_neg (by omega)] at h
          rw [if_neg hd']
          exact ih (Nat.sub_le_sub_right hd 1) h
      · next hc =>
        rw [if_neg hc]
        exact ih hd h

theorem closeFrom_append (depth n : Nat) (x y : List Char) :
    (∃ e, closeFrom o c depth n (x ++ y) = some e ∧ e < n + x.length) ∨
      ∃ d, closeFrom o c depth n (x ++ y) = closeFrom o c d (n + x.length) y := by
  induction x generalizing depth n with
  | nil => exact .inr ⟨depth, rfl⟩
  | cons a x ih =>
    have hlength : n + (a :: x).length = n + 1 + x.length := by rw [length_cons]; omega
    rw [cons_append, closeFrom, hlength]
    split
    · exact ih _ _
    split
    · split
      · exact .inl ⟨n, rfl, by omega⟩
      · exact ih _ _
    · exact ih _ _

def bracketRise (o c a : Char) : Int := if a = o then 1 else if a = c then -1 else 0

/-- How many more brackets a text opens than it closes. -/
def rise (o c : Char) : List Char → Int
  | [] => 0
  | a :: s => bracketRise o c a + rise o c s

theorem closeFrom_cons (hd : 1 ≤ depth) (n : Nat) (a : Char) (l : List Char) :
    ∃ d : Nat, (d : Int) = depth + bracketRise o c a ∧
      closeFrom o c depth n (a :: l) = if d = 0 then some n else closeFrom o c d (n + 1) l := by
  rw [closeFrom]
  unfold bracketRise
  by_cases ho : a = o
  · refine ⟨depth + 1, by simp [ho], ?_⟩
    rw [if_pos (by simpa using ho), if_neg (Nat.succ_ne_zero depth)]
  by_cases hc : a = c
  · refine ⟨depth - 1, by rw [if_neg ho, if_pos hc]; omega, ?_⟩
    rw [if_neg (by simpa using ho), if_pos (by simpa using hc)]
    simp only [show depth ≤ 1 ↔ depth - 1 = 0 by omega]
  · refine ⟨depth, by simp [ho, hc], ?_⟩
    rw [if_neg (by simpa using ho), if_neg (by simpa using hc), if_neg (by omega)]

/-- A count comes to its end where, for the first time, all brackets are closed that have been opened. -/
theorem closeFrom_eq_some_iff (hd : 1 ≤ depth) : closeFrom o c depth n l = some (n + k) ↔ k < l.length ∧
      depth + rise o c (l.take (k + 1)) = 0 ∧ ∀ j < k, 0 < depth + rise o c (l.take (j + 1)) := by
  induction l generalizing depth n k with
  | nil => simp [closeFrom]
  | cons a l ih =>
    obtain ⟨d, hd', hcons⟩ := closeFrom_cons (o := o) (c := c) hd n a l
    have hrise (i : Nat) : depth + rise o c ((a :: l).take (i + 1)) = d + rise o c (l.take i) := by
      rw [take_succ_cons, rise, ← Int.add_assoc, hd']
    simp only [hrise, hcons, length_cons]
    by_cases hzero : d = 0
    · rw [if_pos hzero, hzero]
      cases k with
      | zero => simp [rise]
      | succ k =>
        -- the count is at its end already, and the place before is not open any more
        refine iff_of_false (by simp) fun h => ?_
        simpa [rise] using h.2.2 0 (Nat.succ_pos k)
    · rw [if_neg hzero]
      cases k with
      | zero =>
        refine iff_of_false (fun h => ?_) fun h => ?_
        · have := (closeFrom_bounds h).1
          omega
        · exact hzero (by simpa [rise] using h.2.1)
      | succ k =>
        rw [Nat.add_comm k 1, ← Nat.add_assoc, ih (Nat.pos_of_ne_zero hzero), Nat.add_comm 1 k]
        refine and_congr (by omega) (and_congr Iff.rfl ⟨fun h j hj => ?_, fun h j hj => h (j + 1) (by omega)⟩)
        cases j with
        | zero =>
          simp only [take_zero, rise]
          omega
        | succ j => exact h j (by omega)

end Counting

section Ends
variable {o c : Char}

/-- The bracket that opens at a place is closed at another: there, for the first time, as many brackets
    are closed as have been opened. -/
structure Closes (o c : Char) (t : List Char) (p e : Nat) : Prop where
  le : p ≤ e
  lt : e < t.length
  closed : rise o c (between t p (e + 1)) = 0
  opened : ∀ k, p ≤ k → k < e → 0 < rise o c (between t p (k + 1))

theorem closeFrom_eq_some_iff_closes (hp : t[p]? = some o) {e : Nat} :
    closeFrom o c 0 p (t.drop p) = some e ↔ Closes o c t p e := by
  have hlt := (List.getElem?_eq_some_iff.mp hp).1
  have hfirst : closeFrom o c 0 p (t.drop p) = closeFrom o c 1 (p + 1) (t.drop (p + 1)) := by
    rw [Seam.drop_of_getElem? hp, closeFrom, if_pos (by simp)]
  have hrise (k : Nat) : rise o c (between t p (p + k + 1)) = 1 + rise o c ((t.drop (p + 1)).take k) := by
    rw [between, Seam.drop_of_getElem? hp, show p + k + 1 - p = k + 1 by omega, take_succ_cons, rise, bracketRise,
      if_pos rfl]
  constructor
  · intro h
    rw [hfirst] at h
    obtain ⟨k, rfl⟩ := Nat.exists_eq_add_of_le (closeFrom_bounds h).1
    obtain ⟨hk, hclosed, hopen⟩ := (closeFrom_eq_some_iff (Nat.le_refl 1)).mp h
    rw [length_drop] at hk
    rw [Nat.add_right_comm]
    refine ⟨by omega, by omega, by rw [Nat.add_assoc p k 1, hrise]; exact hclosed, fun j hj hjk => ?_⟩
    obtain ⟨i, rfl⟩ := Nat.exists_eq_add_of_le hj
    rw [hrise]
    cases i with
    | zero => exact Int.one_pos
    | succ i => exact hopen i (by omega)
  · intro h
    obtain ⟨k, rfl⟩ := Nat.exists_eq_add_of_le h.le
    have hclosed := h.closed
    rw [hrise] at hclosed
    cases k with
    | zero => simp [rise] at hclosed
    | succ k =>
      have hlt := h.lt
      rw [hfirst, Nat.add_comm k 1, ← Nat.add_assoc, closeFrom_eq_some_iff (Nat.le_refl 1), length_drop]
      refine ⟨by omega, hclosed, fun j hj => ?_⟩
      have hopen := h.opened (p + (j + 1)) (by omega) (by omega)
      rwa [hrise] at hopen

theorem blockEnd_spec (hoc : closer? o = some c) (hp : t[p]? = some o) :
    Closes o c t p (blockEnd t p) ∨ (∀ e, ¬ Closes o c t p e) ∧ blockEnd t p + 1 = t.length := by
  have hlt := (List.getElem?_eq_some_iff.mp hp).1
  rw [Seam.blockEnd_of_some hp hoc]
  cases hclose : closeFrom o c 0 p (t.drop p) with
  | some e => exact .inl ((closeFrom_eq_some_iff_closes hp).mp hclose)
  | none =>
    refine .inr ⟨fun e he => ?_, Nat.sub_add_cancel (by omega)⟩
    rw [← closeFrom_eq_some_iff_closes hp, hclose] at he
    cases he

theorem blockEnd_nested (hoc : closer? o = some c) (hp : t[p]? = some o) (hq : t[q]? = some o)
    (h : p ≤ q) : blockEnd t p < q ∨ blockEnd t q ≤ blockEnd t p := by
  have hlt := (List.getElem?_eq_some_iff.mp hq).1
  have hsplit : t.drop p = between t p q ++ t.drop q := by
    have hdrop : (t.drop p).drop (q - p) = t.drop q := by rw [drop_drop, Nat.add_sub_cancel' h]
    rw [between, ← hdrop, take_append_drop]
  have hlength := Seam.add_length_between h hlt.le
  have hend := (blockEnd_bounds hlt).2
  rw [Seam.blockEnd_of_some hp hoc, hsplit]
  rcases closeFrom_append (o := o) (c := c) 0 p (between t p q) (t.drop q) with ⟨e, he, hlt⟩ | ⟨depth, hgo⟩
  · rw [he]
    left
    rwa [hlength] at hlt
  · right
    rw [hgo, hlength]
    cases hclose : closeFrom o c depth q (t.drop q) with
    | none =>
      rw [Option.getD_none]
      omega
    | some e =>
      obtain ⟨e', he', hle⟩ := closeFrom_of_le (Nat.zero_le depth) hclose
      rwa [Seam.blockEnd_of_some hq hoc, he']

theorem matchDelimiter_of_getElem? (hoc : closer? o = some c) (hp : t[p]? = some o) :
    matchDelimiter t p = .ok (blockEnd t p) := by
  unfold blockEnd matchDelimiter
  simp only [hp, hoc]
  cases closeFrom o c 0 p (t.drop p) <;> rfl

def blockSpan (t : List Char) (p : Nat) : Span := ⟨p, blockEnd t p⟩

theorem blockSpan_nested (hoc : closer? o = some c) (hp : t[p]? = some o) (hq : t[q]? = some o)
    (h : p ≤ q) : (blockSpan t p).Disjoint (blockSpan t q) ∨ (blockSpan t q).Inside (blockSpan t p) := by
  rcases blockEnd_nested hoc hp hq h with hlt | hle
  · exact .inl (.inl hlt)
  · exact .inr ⟨h, hle⟩

end Ends

/-- The stretch is the body of the function: it opens where the body of the function with that head
    opens, ends where the brace is closed, and has the text of the body. -/
structure IsBody (masked : List Char) (f : Function) (b : Span) : Prop where
  head : ∃ x ∈ functionHead.findAll masked, x.start = f.offset ∧ bodyBrace? masked x = some b.start
  stop : matchDelimiter masked b.start = .ok b.stop
  text : f.body = String.ofList (between masked b.start (b.stop + 1))

section Bodies
variable {f g : Function} {a b : Span}

theorem IsBody.opens (h : IsBody t f b) : t[b.start]? = some '{' := by
  obtain ⟨x, hx, -, hb⟩ := h.head
  exact (bodyBrace?_bounds (finish_bounds_of_mem_findAll hx).2 hb).2.2

theorem IsBody.eq_blockSpan (h : IsBody t f b) : b = blockSpan t b.start := by
  have hstop := h.stop
  rw [matchDelimiter_of_getElem? rfl h.opens] at hstop
  exact congrArg (Span.mk b.start) (Except.ok.inj hstop).symm

theorem IsBody.unique (ha : IsBody t f a) (hb : IsBody t f b) : a = b := by
  obtain ⟨x, hx, hxf, hxa⟩ := ha.head
  obtain ⟨y, hy, hyf, hyb⟩ := hb.head
  have hmatch := (matchAt_of_mem_findAt (findAll_eq _ _ ▸ hx)).2
  rw [hxf, ← hyf, (matchAt_of_mem_findAt (findAll_eq _ _ ▸ hy)).2] at hmatch
  cases hmatch
  rw [ha.eq_blockSpan, hb.eq_blockSpan, Option.some.inj (hxa.symm.trans hyb)]

theorem exists_isBody {text : String} (hf : f ∈ (Model.ofText text).functions) :
    ∃! b, IsBody (mask text.toList) f b := by
  obtain ⟨x, hx, hf⟩ := mem_filterMap.mp hf
  obtain ⟨brace, hat⟩ := functionAt_of_function? hf
  obtain ⟨-, -, hopen⟩ := bodyBrace?_bounds (finish_bounds_of_mem_findAll hx).2 hat.opens
  have hbody : IsBody (mask text.toList) f (blockSpan (mask text.toList) brace) :=
    ⟨⟨x, hx, hat.offset.symm, hat.opens⟩, matchDelimiter_of_getElem? rfl hopen, hat.body⟩
  exact ⟨_, hbody, fun b hb => hb.unique hbody⟩

theorem IsBody.nested (ha : IsBody t f a) (hb : IsBody t g b) : a.Disjoint b ∨ a.Inside b ∨ b.Inside a := by
  rw [ha.eq_blockSpan, hb.eq_blockSpan]
  rcases Nat.le_total a.start b.start with hle | hle
  · rcases blockSpan_nested rfl ha.opens hb.opens hle with h | h
    · exact .inl h
    · exact .inr (.inr h)
  · rcases blockSpan_nested rfl hb.opens ha.opens hle with h | h
    · exact .inl h.symm
    · exact .inr (.inl h)

end Bodies

def ImplBlock.span (b : ImplBlock) : Span := ⟨b.start, b.stop⟩

def ImplBlock.Encloses (b : ImplBlock) (f : Function) : Prop := b.start < f.offset ∧ f.offset < b.stop

theorem span_of_mem_implBlocks {b : ImplBlock} (h : b ∈ implBlocks t) :
    t[b.start]? = some '{' ∧ b.span = blockSpan t b.start := by
  rw [implBlocks_eq] at h
  obtain ⟨x, -, hx⟩ := mem_filterMap.mp h
  unfold implBlock? at hx
  split at hx
  · obtain ⟨hopen, hx⟩ := Option.ite_none_right_eq_some.mp hx
    cases hx
    exact ⟨beq_iff_eq.mp hopen, rfl⟩
  · cases hx

theorem inside_of_encloses {b c : ImplBlock} {f : Function} (hb : b ∈ implBlocks t) (hc : c ∈ implBlocks t)
    (hbf : b.Encloses f) (hcf : c.Encloses f) (h : c.start ≤ b.start) : b.span.Inside c.span := by
  obtain ⟨hopen, hspan⟩ := span_of_mem_implBlocks hb
  obtain ⟨hopen', hspan'⟩ := span_of_mem_implBlocks hc
  rcases blockSpan_nested rfl hopen' hopen h with hdisjoint | hinside
  · rw [← hspan, ← hspan'] at hdisjoint
    simp only [Span.Disjoint, ImplBlock.span, ImplBlock.Encloses] at hdisjoint hbf hcf
    omega
  · rwa [hspan, hspan']

theorem firstMax_eq_none {α : Type} {key : α → Nat} {l : List α} (h : firstMax key l = none) : l = [] := by
  cases l with
  | nil => rfl
  | cons a l =>
    rw [firstMax] at h
    split at h
    · cases h
    · split at h <;> cases h

theorem firstMax_spec {α : Type} {key : α → Nat} {l : List α} {a : α} (h : firstMax key l = some a) :
    a ∈ l ∧ ∀ b ∈ l, key b ≤ key a := by
  induction l generalizing a with
  | nil => cases h
  | cons c l ih =>
    rw [firstMax] at h
    split at h
    · next hnone =>
      cases h
      rw [firstMax_eq_none hnone]
      simp
    · next b hb =>
      obtain ⟨hmem, hmax⟩ := ih hb
      split at h
      · next hle =>
        cases h
        refine ⟨.head _, fun d hd => ?_⟩
        rcases mem_cons.mp hd with rfl | hd
        · exact Nat.le_refl _
        · exact (hmax d hd).trans hle
      · next hlt =>
        cases h
        refine ⟨.tail _ hmem, fun d hd => ?_⟩
        rcases mem_cons.mp hd with rfl | hd
        · exact (Nat.not_le.mp hlt).le
        · exact hmax d hd

/-- A function inside of blocks belongs to the innermost one. -/
theorem container_innermost {text : String} {f : Function} (hf : f ∈ (Model.ofText text).functions)
    (h : ∃ b ∈ implBlocks (mask text.toList), b.Encloses f) :
    ∃ b ∈ implBlocks (mask text.toList), b.Encloses f ∧ f.container = some b.name ∧
      ∀ c ∈ implBlocks (mask text.toList), c.Encloses f → b.span.Inside c.span := by
  obtain ⟨x, -, hf⟩ := mem_filterMap.mp hf
  obtain ⟨brace, hat⟩ := functionAt_of_function? hf
  have hcontainer := hat.container
  rw [← hat.offset] at hcontainer
  have hmem (b : ImplBlock) : b ∈ (implBlocks (mask text.toList)).filter
      (fun b => b.start < f.offset && f.offset < b.stop) ↔ b ∈ implBlocks (mask text.toList) ∧ b.Encloses f := by
    rw [mem_filter, Bool.and_eq_true, decide_eq_true_iff, decide_eq_true_iff]
    exact Iff.rfl
  unfold containerOf at hcontainer
  split at hcontainer
  · next b hb =>
    obtain ⟨hb, hmax⟩ := firstMax_spec hb
    obtain ⟨hb, hbf⟩ := (hmem b).mp hb
    exact ⟨b, hb, hbf, hcontainer, fun c hc hcf => inside_of_encloses hb hc hbf hcf (hmax c ((hmem c).mpr ⟨hc, hcf⟩))⟩
  · next hnone =>
    obtain ⟨b, hb⟩ := h
    have hnil : _ = [] := firstMax_eq_none hnone
    exact absurd ((hmem b).mpr hb) (hnil ▸ not_mem_nil)

/-- The place ends the block of a brace: the brace is closed there, or it is never closed and the text
    ends there. -/
def EndsBlock (t : List Char) (p e : Nat) : Prop :=
  Closes '{' '}' t p e ∨ (∀ k, ¬ Closes '{' '}' t p k) ∧ e + 1 = t.length

/-- Blocks nest in every text. A brace is matched with the one that closes it, or with the end of the
    text if none does, and of two braces the block of the second one lies in the block of the first or
    after it. So the bodies of two functions of a model are disjoint or one lies in the other, and a
    function that is declared inside of `impl` blocks belongs to the innermost of them. -/
theorem blocks_nest :
    (∀ (t : List Char) (p q : Nat), p < q → t[p]? = some '{' → t[q]? = some '{' →
      ∃ e e', matchDelimiter t p = .ok e ∧ matchDelimiter t q = .ok e' ∧ EndsBlock t p e ∧ EndsBlock t q e' ∧
        ((Span.mk p e).Disjoint ⟨q, e'⟩ ∨ (Span.mk q e').Inside ⟨p, e⟩)) ∧
    ∀ text : String,
      (∀ f ∈ (Model.ofText text).functions, ∃! b, IsBody (mask text.toList) f b) ∧
      (∀ f ∈ (Model.ofText text).functions, ∀ g ∈ (Model.ofText text).functions, ∀ a b,
        IsBody (mask text.toList) f a → IsBody (mask text.toList) g b →
          a.Disjoint b ∨ a.Inside b ∨ b.Inside a) ∧
      ∀ f ∈ (Model.ofText text).functions, (∃ b ∈ implBlocks (mask text.toList), b.Encloses f) →
        ∃ b ∈ implBlocks (mask text.toList), b.Encloses f ∧ f.container = some b.name ∧
          ∀ c ∈ implBlocks (mask text.toList), c.Encloses f → b.span.Inside c.span := by
  refine ⟨fun t p q hpq hp hq => ?_, fun text => ⟨fun f hf => exists_isBody hf,
    fun f _ g _ a b ha hb => ha.nested hb, fun f hf h => container_innermost hf h⟩⟩
  exact ⟨_, _, matchDelimiter_of_getElem? rfl hp, matchDelimiter_of_getElem? rfl hq, blockEnd_spec rfl hp,
    blockEnd_spec rfl hq, blockSpan_nested rfl hp hq hpq.le⟩

/-- A function in two `impl` blocks, the outer one of which is not closed. -/
def unclosedSample : String := "impl A \x7b impl B \x7b fn f() \x7b\x7d \x7d"

theorem unclosedSample_blocks_nest :
    (∃ e e', matchDelimiter (mask unclosedSample.toList) 7 = .ok e ∧
      matchDelimiter (mask unclosedSample.toList) 16 = .ok e' ∧
      EndsBlock (mask unclosedSample.toList) 7 e ∧ EndsBlock (mask unclosedSample.toList) 16 e' ∧
      ((Span.mk 7 e).Disjoint ⟨16, e'⟩ ∨ (Span.mk 16 e').Inside ⟨7, e⟩)) ∧
    ∃ f ∈ (Model.ofText unclosedSample).functions, (∃! b, IsBody (mask unclosedSample.toList) f b) ∧
      ∃ b ∈ implBlocks (mask unclosedSample.toList), b.Encloses f ∧ f.container = some b.name ∧
        ∀ c ∈ implBlocks (mask unclosedSample.toList), c.Encloses f → b.span.Inside c.span := by
  have hsample : ∃ f ∈ (Model.ofText unclosedSample).functions,
      ∃ b ∈ implBlocks (mask unclosedSample.toList), b.start < f.offset ∧ f.offset < b.stop := by decide +kernel
  obtain ⟨f, hf, hblocks⟩ := hsample
  obtain ⟨hbraces, hmodel⟩ := blocks_nest
  refine ⟨hbraces _ 7 16 (by decide) (by decide +kernel) (by decide +kernel), f, hf, (hmodel _).1 f hf, ?_⟩
  exact (hmodel unclosedSample).2.2 f hf hblocks

end ContractAudit.Source

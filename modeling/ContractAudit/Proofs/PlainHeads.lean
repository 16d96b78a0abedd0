import ContractAudit.Proofs.PlainTexts

/-! # The heads of items

The head of an item is found where the item begins: its word stands nowhere else, and what a head
allows before the word can only be the visibility of the item itself (`le_of_leads`). -/

namespace ContractAudit.Source.Plain
open Text Pattern List
variable {xs : List (Item × Gap)} {r g : List Char}

variable {u v t : List Char} {m n : Captures} {c : Cursor}

/-! ### What comes before the word -/

/-- What a head allows before its word: nothing, or a text that ends with white space and the
    character before that. The character is no brace, and it is the end of `pub` if it is a `b`. -/
def Leads (x : List Char) : Prop :=
  x = [] ∨ ∃ y c b, x = y ++ c :: b ∧ b.all isBlank = true ∧ isBlank c = false ∧ c ≠ '}' ∧
    (c = 'b' → y = ['p', 'u'])

/-- What a head can have between the visibility and its word. -/
def Ends (x : List Char) : Prop :=
  ∃ y c b, x = y ++ c :: b ∧ b.all isBlank = true ∧ isBlank c = false ∧ c ≠ '}' ∧ c ≠ 'b'

theorem Ends.prepend {x' : List Char} (h : Ends x') (x : List Char) : Ends (x ++ x') := by
  obtain ⟨y, c, b, rfl, h⟩ := h
  exact ⟨x ++ y, c, b, (append_assoc ..).symm, h⟩

theorem Leads.append {x x' : List Char} (h : Leads x) (h' : x' = [] ∨ Ends x') : Leads (x ++ x') := by
  rcases h' with rfl | h'
  · rwa [append_nil]
  · obtain ⟨y, c, b, hx, hb, hc, hbrace, hne⟩ := h'.prepend x
    exact .inr ⟨y, c, b, hx, hb, hc, hbrace, fun h => absurd h hne⟩

theorem leads_of_visibility (h : visibility.Path (.after u t) m c n) :
    ∃ x v, t = x ++ v ∧ c = .after (u ++ x) v ∧ Leads x := by
  rcases h with ⟨c₂, m₂, ⟨c₁, m₁, hpub, hparen⟩, hblanks⟩ | ⟨rfl, -⟩
  · obtain ⟨v, rfl, rfl, -⟩ := path_wordEdge_lit ⟨by decide, by decide⟩ hpub
    rcases hparen with ⟨c₀, m₀, hinner, hclose⟩ | ⟨rfl, -⟩
    · obtain ⟨y, v, rfl, rfl⟩ := exists_after_of_path hinner
      obtain ⟨a, v, rfl, ha, rfl⟩ := path_one hclose
      obtain ⟨b, g, r, rfl, hb, hg, rfl⟩ := path_some1_cons hblanks
      obtain rfl : a = ')' := by simpa using ha
      refine ⟨"pub".toList ++ y ++ ')' :: b :: g, r, by simp, by simp, .inr
        ⟨_, ')', b :: g, rfl, ?_, by decide, by decide, fun h => absurd h (by decide)⟩⟩
      rw [all_cons, hb, hg]
      rfl
    · obtain ⟨b, g, r, rfl, hb, hg, rfl⟩ := path_some1_cons hblanks
      refine ⟨"pub".toList ++ b :: g, r, by simp, by simp, .inr
        ⟨['p', 'u'], 'b', b :: g, rfl, ?_, by decide, by decide, fun _ => rfl⟩⟩
      rw [all_cons, hb, hg]
      rfl
  · exact ⟨[], t, rfl, by rw [append_nil], .inl rfl⟩

theorem ends_of_path {p : Pattern} (h : (p ++ blanks1).Path (.after u t) m c n)
    (hp : ∀ c n, p.Path (.after u t) m c n → ∃ y d v, t = y ++ d :: v ∧ c = .after (u ++ y ++ [d]) v ∧
      isBlank d = false ∧ d ≠ '}' ∧ d ≠ 'b') : ∃ x v, t = x ++ v ∧ c = .after (u ++ x) v ∧ Ends x := by
  obtain ⟨c₁, m₁, hpath, hblanks⟩ := h
  obtain ⟨y, d, v, rfl, rfl, hd, hbrace, hne⟩ := hp _ _ hpath
  obtain ⟨b, g, r, rfl, hb, hg, rfl⟩ := path_some1_cons hblanks
  refine ⟨y ++ d :: b :: g, r, by simp, by simp, y, d, b :: g, rfl, ?_, hd, hbrace, hne⟩
  rw [all_cons, hb, hg]
  rfl

theorem path_lit_concat {s : String} (y : List Char) (d : Char) (hs : s.toList = y ++ [d])
    (hd : isBlank d = false ∧ d ≠ '}' ∧ d ≠ 'b') (h : (lit s).Path (.after u t) m c n) :
    ∃ y d v, t = y ++ d :: v ∧ c = .after (u ++ y ++ [d]) v ∧ isBlank d = false ∧ d ≠ '}' ∧ d ≠ 'b' := by
  obtain ⟨v, rfl, rfl⟩ := path_lit h
  exact ⟨y, d, v, by simp [hs], by simp [hs], hd⟩

def modifiers : Pattern :=
  .many (.oneOf [.lit "const", .lit "async", .lit "unsafe", .lit "default"] ++ .blanks1)

def linkage : Pattern :=
  .opt (.lit "extern" ++ .blanks1 ++ .opt (.char '"' ++ .many (.noneOf "\"") ++ .char '"' ++ .blanks1))

theorem ends_of_modifiers (h : modifiers.Path (.after u t) m c n) :
    ∃ x v, t = x ++ v ∧ c = .after (u ++ x) v ∧ (x = [] ∨ Ends x) := by
  rcases Relation.ReflTransGen.cases_tail h with heq | ⟨⟨c', n'⟩, hfirst, hlast⟩
  · cases heq
    exact ⟨[], t, rfl, by rw [append_nil], .inl rfl⟩
  · obtain ⟨x, v, rfl, rfl⟩ := exists_after_of_path (p := modifiers) hfirst
    obtain ⟨x', v', rfl, rfl, hends⟩ := ends_of_path hlast (by
      intro c n hword
      rcases hword with hword | hword | hword | hword
      · exact path_lit_concat "cons".toList 't' rfl (by decide) hword
      · exact path_lit_concat "asyn".toList 'c' rfl (by decide) hword
      · exact path_lit_concat "unsaf".toList 'e' rfl (by decide) hword
      · exact path_lit_concat "defaul".toList 't' rfl (by decide) hword)
    exact ⟨x ++ x', v', by simp, by simp, .inr (hends.prepend x)⟩

theorem ends_of_linkage (h : linkage.Path (.after u t) m c n) :
    ∃ x v, t = x ++ v ∧ c = .after (u ++ x) v ∧ (x = [] ∨ Ends x) := by
  rcases h with ⟨c₁, m₁, hextern, hopt⟩ | ⟨rfl, -⟩
  · obtain ⟨x, v, rfl, rfl, hends⟩ := ends_of_path hextern
      fun c n hword => path_lit_concat "exter".toList 'n' rfl (by decide) hword
    rcases hopt with hopt | ⟨rfl, -⟩
    · obtain ⟨x', v', rfl, rfl, hends'⟩ := ends_of_path hopt (by
        rintro c n ⟨c₀, m₀, hinner, hclose⟩
        obtain ⟨y, v, rfl, rfl⟩ := exists_after_of_path hinner
        obtain ⟨a, v, rfl, ha, rfl⟩ := path_one hclose
        obtain rfl : a = '"' := by simpa using ha
        exact ⟨y, '"', v, rfl, rfl, by decide, by decide, by decide⟩)
      exact ⟨x ++ x', v', by simp, by simp, .inr (hends'.prepend x)⟩
    · exact ⟨x, v, rfl, rfl, .inr hends⟩
  · exact ⟨[], t, rfl, by rw [append_nil], .inl rfl⟩

theorem leads_of_function (h : (visibility ++ modifiers ++ linkage).Path (.after u t) m c n) :
    ∃ x v, t = x ++ v ∧ c = .after (u ++ x) v ∧ Leads x := by
  obtain ⟨c₂, m₂, ⟨c₁, m₁, hvisibility, hmodifiers⟩, hlinkage⟩ := h
  obtain ⟨x, v, rfl, rfl, hx⟩ := leads_of_visibility hvisibility
  obtain ⟨x', v', rfl, rfl, hx'⟩ := ends_of_modifiers hmodifiers
  obtain ⟨x'', v'', rfl, rfl, hx''⟩ := ends_of_linkage hlinkage
  exact ⟨x ++ x' ++ x'', v'', by simp, by simp, (hx.append hx').append hx''⟩

/-! ### What comes before an item -/

/-- The text before an item: white space, after a brace if it is not the first. -/
def Rests (u : List Char) : Prop :=
  u.all isBlank = true ∨ ∃ y g : List Char, u = y ++ '}' :: g ∧ g.all isBlank = true

theorem Rests.getLast? (h : Rests u) : u.getLast?.any isWordChar = false := by
  cases hlast : u.getLast? with
  | none => rfl
  | some d =>
    have hmem := mem_of_getLast? hlast
    rcases h with h | ⟨y, g, rfl, hg⟩
    · exact isWordChar_of_isBlank (all_eq_true.mp h d hmem)
    · rw [getLast?_append, getLast?_cons, Option.some_or, Option.some.injEq] at hlast
      cases hg' : g.getLast? with
      | none =>
        rw [hg'] at hlast
        subst hlast
        decide
      | some e =>
        rw [hg'] at hlast
        subst hlast
        exact isWordChar_of_isBlank (all_eq_true.mp hg _ (mem_of_getLast? hg'))

theorem rests_of_mem_placed {y : List Char × Item} (hu : Rests u) (h : y ∈ placed u xs) : Rests y.1 := by
  induction xs generalizing u with
  | nil => cases h
  | cons x xs ih =>
    rcases mem_cons.mp h with rfl | h
    · exact hu
    · refine ih (.inr ⟨u ++ x.1.front, x.2.text, ?_, x.2.blank⟩) h
      simp [Item.text]

theorem exists_of_mem_placed {y : List Char × Item} (h : y ∈ placed u xs) :
    ∃ v, u ++ itemsText xs = y.1 ++ y.2.text ++ v := by
  induction xs generalizing u with
  | nil => cases h
  | cons x xs ih =>
    rcases mem_cons.mp h with rfl | h
    · exact ⟨x.2.text ++ itemsText xs, by simp [itemsText]⟩
    · obtain ⟨v, hv⟩ := ih h
      exact ⟨v, by rw [← hv]; simp [itemsText]⟩

theorem length_le_of_mem_placed {y : List Char × Item} (h : y ∈ placed u xs) : u.length ≤ y.1.length := by
  induction xs generalizing u with
  | nil => cases h
  | cons x xs ih =>
    rcases mem_cons.mp h with rfl | h
    · exact Nat.le_refl _
    · have := ih h
      simp only [length_append] at this
      omega

theorem pairwise_placed (u : List Char) (xs : List (Item × Gap)) :
    (placed u xs).Pairwise fun y z => y.1.length + y.2.text.length ≤ z.1.length := by
  induction xs generalizing u with
  | nil => exact .nil
  | cons x xs ih =>
    refine .cons (fun z hz => ?_) (ih _)
    have := length_le_of_mem_placed hz
    simp only [length_append] at this ⊢
    omega

theorem eq_of_append_blank {y y' b b' : List Char} {d d' : Char} (h : y ++ d :: b = y' ++ d' :: b')
    (hb : b.all isBlank = true) (hb' : b'.all isBlank = true) (hd : isBlank d = false)
    (hd' : isBlank d' = false) : y = y' ∧ d = d' := by
  have hdrop (y b : List Char) (d : Char) (hb : b.all isBlank = true) (hd : isBlank d = false) :
      (y ++ d :: b).reverse.dropWhile isBlank = d :: y.reverse := by
    have hall : ∀ c ∈ b.reverse, isBlank c = true := fun c hc =>
      all_eq_true.mp hb c (mem_reverse.mp hc)
    rw [reverse_append, reverse_cons, append_assoc, dropWhile_append_of_pos hall,
      singleton_append, dropWhile_cons_of_neg (by simp [hd])]
  have heq := hdrop y b d hb hd
  rw [h, hdrop y' b' d' hb' hd', List.cons.injEq] at heq
  exact ⟨(reverse_inj.mp heq.2).symm, heq.1.symm⟩

theorem le_of_leads {x : List Char} (hu : Rests u) {v : Option Space} {i : Nat}
    {r' : List Char} (ht : u ++ visibilityText v ++ r = t.take i ++ x ++ r') (hi : i ≤ t.length)
    (hx : Leads x) (hlength : i + x.length = u.length + (visibilityText v).length) : u.length ≤ i := by
  have htake : (t.take i).length = i := by rw [length_take, Nat.min_eq_left hi]
  obtain ⟨heq, -⟩ := append_inj ht (by simp only [length_append, htake, hlength])
  rcases hx with rfl | ⟨y, d, b, rfl, hb, hd, hbrace, hpub⟩
  · simp only [length_nil] at hlength
    omega
  · rw [← append_assoc] at heq
    cases v with
    | none =>
      rw [visibilityText, append_nil] at heq
      rcases hu with hu | ⟨y', g, rfl, hg⟩
      · rw [heq, all_append, all_cons, hd] at hu
        simp at hu
      · exact absurd (eq_of_append_blank heq hg hb (by decide) hd).2.symm hbrace
    | some g =>
      have hb' : u ++ visibilityText (some g) = u ++ ['p', 'u'] ++ 'b' :: g.text := by
        rw [visibilityText, append_assoc]
        rfl
      obtain ⟨hfront, rfl⟩ := eq_of_append_blank (hb'.symm.trans heq) g.blank hb (by decide) hd
      rw [hpub rfl] at hfront
      exact Nat.le_of_eq (by rw [← htake, append_cancel_right hfront])

/-! ### Reading a head -/

theorem dropWhile_isBlank (hg : g.all isBlank = true) (hr : r.head?.any isBlank = false) :
    (g ++ r).dropWhile isBlank = r := by
  rw [dropWhile_append_of_pos (all_eq_true.mp hg)]
  cases r with
  | nil => rfl
  | cons d r => rw [dropWhile_cons_of_neg (by simpa using hr)]

theorem fails_blanks_char {d : Char} (hg : g.all isBlank = true)
    (hr : r.head?.any isBlank = false) (hne : r.head? ≠ some d) (hd : isBlank d = false) :
    (blanks ++ char d).Fails u (g ++ r) := by
  rintro m c n ⟨c₁, m₁, hblanks, hchar⟩
  obtain ⟨w, v, hw, hall, rfl⟩ := path_many_one hblanks
  obtain ⟨a, v, rfl, ha, -⟩ := path_one hchar
  obtain rfl : a = d := by simpa using ha
  have heq := dropWhile_isBlank (r := a :: v) hall (by simpa using hd)
  rw [← hw, dropWhile_isBlank hg hr] at heq
  exact hne (by rw [heq]; rfl)

theorem takes_restriction (hg : g.all isBlank = true) (hr : r.head?.any isBlank = false) (hne : r.head? ≠ some '(') :
    (opt (blanks ++ char '(' ++ many (noneOf ")") ++ char ')')).Takes u [] (g ++ r) m m :=
  (((fails_blanks_char hg hr hne (by decide)).seq _).seq _).opt

theorem takes_visibility (hu : u.getLast?.any isWordChar = false) (v : Option Space)
    (hr : r.head?.any isBlank = false) (hp : r.head? ≠ some 'p') (hparen : r.head? ≠ some '(') :
    visibility.Takes u (visibilityText v) r m m := by
  cases v with
  | none =>
    refine Fails.opt ?_
    rintro m c n ⟨c₂, m₂, ⟨c₁, m₁, hpub, -⟩, -⟩
    obtain ⟨v, rfl, -⟩ := path_wordEdge_lit ⟨by decide, by decide⟩ hpub
    exact hp rfl
  | some g =>
    have hedge : wordEdge.Takes u [] ("pub".toList ++ (g.text ++ r)) m m := takes_wordEdge hu (by rfl)
    have hlit : (lit "pub").Takes (u ++ []) "pub".toList ([] ++ (g.text ++ r)) m m := takes_lit "pub"
    have hnone : (opt (blanks ++ char '(' ++ many (noneOf ")") ++ char ')')).Takes
        (u ++ ([] ++ "pub".toList)) [] (g.text ++ r) m m := takes_restriction g.blank hr hparen
    have hblanks : blanks1.Takes (u ++ ([] ++ "pub".toList ++ [])) g.text r m m :=
      takes_some1_one g.blank g.nonempty hr
    exact ((Takes.seq (x := []) (hedge.seq hlit) hnone).seq hblanks).left empty

theorem takes_function (hu : u.getLast?.any isWordChar = false) (v : Option Space)
    (hr : r.head? = some 'f') : (visibility ++ modifiers ++ linkage).Takes u (visibilityText v) r m m := by
  have hvisibility : visibility.Takes u (visibilityText v) ([] ++ r) m m :=
    takes_visibility hu v (by rw [nil_append, hr]; decide) (by simp [hr]) (by simp [hr])
  have hmodifiers : modifiers.Takes (u ++ visibilityText v) [] ([] ++ r) m m := by
    refine Fails.many (Fails.seq ?_ _)
    rintro m c n (hword | hword | hword | hword)
    · exact fails_lit 'c' rfl (by simp [hr]) m c n hword
    · exact fails_lit 'a' rfl (by simp [hr]) m c n hword
    · exact fails_lit 'u' rfl (by simp [hr]) m c n hword
    · exact fails_lit 'd' rfl (by simp [hr]) m c n hword
  have hlinkage : linkage.Takes (u ++ (visibilityText v ++ [])) [] r m m :=
    (((fails_lit 'e' rfl (by simp [hr])).seq _).seq _).opt
  have hall := (hvisibility.seq hmodifiers).seq hlinkage
  rwa [append_nil, append_nil] at hall

theorem takes_ident (n : Name) (hr : r.head?.any isIdentChar = false) : ident.Takes u n.text r m m := by
  have h := n.identifier
  unfold isIdentifier at h
  split at h
  · cases h
  · next d s hn =>
    rw [Bool.and_eq_true] at h
    rw [hn]
    exact (takes_one h.1).seq (takes_many_one h.2 hr)

theorem head?_name (n : Name) (r : List Char) : ∃ d, (n.text ++ r).head? = some d ∧ isIdentStart d = true := by
  have h := n.identifier
  unfold isIdentifier at h
  split at h
  · cases h
  · next d s hn =>
    rw [Bool.and_eq_true] at h
    exact ⟨d, by rw [hn]; rfl, h.1⟩

theorem takes_head {p : Pattern} {w : String} {x : Item} (hw : x.word = w.toList)
    (hp : p.Takes u (visibilityText x.visibility) (w.toList ++ (x.gap.text ++ (x.name.text ++ r))) [] [])
    (hu : u.getLast?.any isWordChar = false) (hr : r.head?.any isIdentChar = false) :
    (p ++ wordEdge ++ lit w ++ blanks1 ++ mark 1 ident).Takes u (x.lead ++ x.name.text) r []
      [(1, ⟨(u ++ x.lead).length, x.name.text ++ r, x.name.text.length⟩)] := by
  obtain ⟨d, hd, hstart⟩ := head?_name x.name r
  have hword : IsWord w.toList := hw ▸ isWord_of_mem x.word_mem
  have hlast : (u ++ visibilityText x.visibility).getLast?.any isWordChar = false := by
    cases hv : x.visibility with
    | none => rwa [visibilityText, append_nil]
    | some g =>
      obtain ⟨e, he⟩ := Option.ne_none_iff_exists'.mp (mt getLast?_eq_none_iff.mp g.nonempty)
      rw [visibilityText, ← append_assoc, getLast?_append, he]
      exact isWordChar_of_isBlank (all_eq_true.mp g.blank e (mem_of_getLast? he))
  have hedge : wordEdge.Takes (u ++ visibilityText x.visibility) []
      (w.toList ++ (x.gap.text ++ (x.name.text ++ r))) [] [] :=
    takes_wordEdge hlast (any_head?_of_isWord hword _)
  have hblanks : blanks1.Takes (u ++ (visibilityText x.visibility ++ [] ++ w.toList)) x.gap.text
      (x.name.text ++ r) [] [] :=
    takes_some1_one x.gap.blank x.gap.nonempty (by rw [hd]; exact isBlank_of_isIdentStart hstart)
  have hall := ((Takes.seq (x := []) hp hedge).seq (takes_lit w)).seq hblanks
  rw [append_nil, ← hw] at hall
  exact hall.seq ((takes_ident x.name hr).mark 1)

/-! ### All heads -/

def headMatch (t : List Char) (y : List Char × Item) : Match :=
  ⟨y.1.length, cursorAt t (y.1 ++ (y.2.lead ++ y.2.name.text)).length,
    [(1, ⟨(y.1 ++ y.2.lead).length, t.drop (y.1 ++ y.2.lead).length, y.2.name.text.length⟩)]⟩

theorem headMatch_eq {y : List Char × Item} (ht : t = y.1 ++ (y.2.lead ++ y.2.name.text ++ r)) :
    headMatch t y = ⟨y.1.length, .after (y.1 ++ (y.2.lead ++ y.2.name.text)) r,
      [(1, ⟨(y.1 ++ y.2.lead).length, y.2.name.text ++ r, y.2.name.text.length⟩)]⟩ := by
  have hcursor : cursorAt t (y.1 ++ (y.2.lead ++ y.2.name.text)).length =
      .after (y.1 ++ (y.2.lead ++ y.2.name.text)) r := by
    rw [ht, ← append_assoc, cursorAt_append]
  have hdrop : t.drop (y.1 ++ y.2.lead).length = y.2.name.text ++ r := by
    rw [ht, append_assoc, ← append_assoc, drop_left]
  rw [headMatch, hcursor, hdrop]

theorem Program.exists_of_mem_placed {q : Program} {y : List Char × Item} (h : y ∈ q.placed) :
    ∃ v, q.text = y.1 ++ (y.2.lead ++ y.2.name.text ++ (y.2.rest ++ '}' :: v)) := by
  obtain ⟨v, hv⟩ := Plain.exists_of_mem_placed h
  refine ⟨v, ?_⟩
  rw [Program.text, hv, Item.text, Item.front]
  simp

theorem Item.head?_rest (x : Item) (v : List Char) : (x.rest ++ v).head?.any isIdentChar = false := by
  cases x with
  | function f => rfl
  | struct s =>
    rw [Item.rest, append_assoc, head?_append]
    cases hg : s.beforeFields.text.head? with
    | none => rfl
    | some d =>
      exact isIdentChar_of_isBlank (all_eq_true.mp s.beforeFields.blank d (mem_of_mem_head? hg))

/-- The pattern reads what can come before the word of a head. -/
structure ReadsLead (p : Pattern) (w : String) : Prop where
  mem : w.toList ∈ itemWords
  leads : ∀ {u t : List Char} {m n : Captures} {c : Cursor}, p.Path (.after u t) m c n →
    ∃ x v, t = x ++ v ∧ c = .after (u ++ x) v ∧ Leads x
  takes : ∀ {u r : List Char} (v : Option Space), u.getLast?.any isWordChar = false →
    r.head? = w.toList.head? → p.Takes u (visibilityText v) r [] []

theorem readsLead_function : ReadsLead (visibility ++ modifiers ++ linkage) "fn" where
  mem := .head _
  leads := leads_of_function
  takes v hu hr := takes_function hu v hr

theorem readsLead_struct : ReadsLead visibility "struct" where
  mem := .tail _ (.head _)
  leads := leads_of_visibility
  takes v hu hr := takes_visibility hu v (by rw [hr]; decide) (by rw [hr]; decide) (by rw [hr]; decide)

namespace ReadsLead
variable {p : Pattern} {w : String} {q : Program} {y : List Char × Item}

theorem rests (hy : y ∈ q.placed) : Rests y.1 := rests_of_mem_placed (.inl q.before.blank) hy

theorem matchAt_head (h : ReadsLead p w) (hy : y ∈ q.placed) (hyw : y.2.word = w.toList) :
    (p ++ wordEdge ++ lit w ++ blanks1 ++ mark 1 ident).matchAt (cursorAt q.text y.1.length) =
      some (headMatch q.text y) := by
  obtain ⟨v, hv⟩ := Program.exists_of_mem_placed hy
  have hlast := (rests hy).getLast?
  have hhead (r : List Char) : (w.toList ++ r).head? = w.toList.head? := by
    obtain ⟨d, s, hs⟩ := exists_cons_of_ne_nil (isWord_of_mem h.mem).1
    rw [hs]
    rfl
  have hmatch := (takes_head hyw (h.takes y.2.visibility hlast (hhead _)) hlast (y.2.head?_rest ('}' :: v))).matchAt
  rwa [headMatch_eq hv, hv, cursorAt_append]

theorem finish_headMatch (hy : y ∈ q.placed) :
    y.1.length < (headMatch q.text y).finish ∧ (headMatch q.text y).finish ≤ q.text.length ∧
      (headMatch q.text y).finish ≤ y.1.length + y.2.text.length := by
  obtain ⟨v, hv⟩ := Program.exists_of_mem_placed hy
  have hlength := congrArg List.length hv
  have hword := length_pos_iff.mpr (isWord_of_mem y.2.word_mem).1
  simp only [headMatch, Match.finish, cursorAt, Item.text, Item.front, Item.lead, length_append] at hlength ⊢
  omega

/-- A head that begins anywhere begins in that of an item. -/
theorem exists_placed_of_matchAt (h : ReadsLead p w) {j : Nat} (hj : j < q.text.length)
    (hsome : (p ++ wordEdge ++ lit w ++ blanks1 ++ mark 1 ident).matchAt (cursorAt q.text j) ≠ none) :
    ∃ y ∈ q.placed, y.2.word = w.toList ∧ y.1.length ≤ j ∧ j < (headMatch q.text y).finish := by
  obtain ⟨z, hz⟩ := Option.ne_none_iff_exists'.mp hsome
  rw [cursorAt_eq_after (Nat.le_of_lt hj)] at hz
  obtain ⟨-, c, n, hpath, -⟩ := path_of_matchAt hz
  obtain ⟨x, v, l, hxv, hp, hat⟩ := wordAt_of_path (isWord_of_mem h.mem) hpath
  rw [take_append_drop] at hat
  have htake : (q.text.take j).length = j := by rw [length_take, Nat.min_eq_left (Nat.le_of_lt hj)]
  have hx : Leads x := by
    obtain ⟨x', v', hxv', hcursor, hx'⟩ := h.leads hp
    have hlength := congrArg Cursor.offset hcursor
    simp only [Cursor.after, length_append] at hlength
    rwa [(append_inj (hxv.symm.trans hxv') (by omega)).1]
  obtain ⟨y, hy, hyw, hplace⟩ := q.exists_placed_of_wordAt h.mem hat
  rw [htake] at hplace
  obtain ⟨r, hr⟩ := Program.exists_of_mem_placed hy
  have htext : y.1 ++ visibilityText y.2.visibility ++ (y.2.word ++ y.2.gap.text ++ y.2.name.text ++
      (y.2.rest ++ '}' :: r)) = q.text.take j ++ x ++ v := by
    rw [append_assoc (q.text.take j), ← hxv, take_append_drop, hr, Item.lead]
    simp only [append_assoc]
  refine ⟨y, hy, hyw, le_of_leads (rests hy) htext (Nat.le_of_lt hj) hx hplace, ?_⟩
  have hword := length_pos_iff.mpr (isWord_of_mem y.2.word_mem).1
  simp only [headMatch, Match.finish, cursorAt, Item.lead, length_append]
  omega

theorem findAll_heads (h : ReadsLead p w) (q : Program) :
    (p ++ wordEdge ++ lit w ++ blanks1 ++ mark 1 ident).findAll q.text =
      (q.placed.filter fun y => y.2.word == w.toList).map (headMatch q.text) := by
  rw [findAll_eq]
  refine findAt_eq_of_spans (fun z hz => ?_) ?_ (fun _ _ => Nat.zero_le _) fun j _ hj hsome => ?_
  · obtain ⟨y, hy, rfl⟩ := mem_map.mp hz
    obtain ⟨hy, hyw⟩ := mem_filter.mp hy
    obtain ⟨hpos, hend, -⟩ := finish_headMatch hy
    exact ⟨h.matchAt_head hy (by simpa using hyw), hpos, hend⟩
  · refine pairwise_map.mpr (List.Pairwise.imp_of_mem ?_ ((pairwise_placed _ _).filter _))
    intro y z hy _ hyz
    exact Nat.le_trans (finish_headMatch (mem_filter.mp hy).1).2.2 hyz
  · obtain ⟨y, hy, hyw, hle, hlt⟩ := h.exists_placed_of_matchAt hj hsome
    exact ⟨headMatch q.text y, mem_map_of_mem (mem_filter.mpr ⟨hy, by simpa using hyw⟩), hle, hlt⟩

end ReadsLead

theorem findAll_functionHead (q : Program) : functionHead.findAll q.text =
    (q.placed.filter fun y => y.2.word == "fn".toList).map (headMatch q.text) :=
  readsLead_function.findAll_heads q

theorem findAll_structHead (q : Program) : structHead.findAll q.text =
    (q.placed.filter fun y => y.2.word == "struct".toList).map (headMatch q.text) :=
  readsLead_struct.findAll_heads q

/-! ### What is not there -/

theorem findAll_moduleHead (q : Program) : moduleHead.findAll q.text = [] := by
  refine findAll_eq_nil fun u v huv => ?_
  rintro m c n ⟨c₃, m₃, ⟨c₂, m₂, ⟨c₁, m₁, hpath, -⟩, -⟩, -⟩
  obtain ⟨x, r, l, -, -, hat⟩ := wordAt_of_path (isWord_of_mem (w := "mod".toList) (by decide)) hpath
  rw [← huv] at hat
  exact q.lacks (by decide) (by decide) (by decide) _ hat

theorem implBlocks_eq (q : Program) : implBlocks q.text = [] := by
  have hnone : (word "impl").findAll q.text = [] := findAll_eq_nil fun u v huv =>
    fails_word (isWord_of_mem (by decide)) (huv ▸ q.lacks (by decide) (by decide) (by decide))
  rw [implBlocks, hnone]
  rfl

theorem attributeSpans_eq (q : Program) : attributeSpans q.text = [] := by
  have hnone : attributeHead.findAll q.text = [] := by
    refine findAll_eq_nil fun u v huv => ?_
    rintro m c n ⟨c₂, m₂, ⟨c₁, m₁, hhash, -⟩, -⟩
    obtain ⟨a, r, rfl, ha, -⟩ := path_one hhash
    obtain rfl : a = '#' := by simpa using ha
    exact (clean_program q).hash (huv ▸ mem_append_right u (.head r))
  rw [attributeSpans, hnone]
  rfl

end ContractAudit.Source.Plain

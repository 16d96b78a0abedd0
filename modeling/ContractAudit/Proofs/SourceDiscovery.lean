import ContractAudit.Files.Discovery
import ContractAudit.Proofs.FileTree
import ContractAudit.Proofs.Sorting

/-! # Finding sources

A walk goes through the files of a directory before those below it, each by name, and so meets each file of
the directories it enters once. -/

namespace ContractAudit.Text
open List FilePath Node.Holding

/-- Only a letter itself and its capital have it as their small letter, for the letters of the suffix of
    sources. -/
theorem eq_or_of_smallLetter {c x : Char} (hx : x ∈ ['.', 'r', 's']) (h : smallLetter c = x) :
    c = x ∨ c = x.toUpper := by
  have hascii : ((List.range 128).all fun n => ['.', 'r', 's'].all fun x =>
      (Char.ofNat n).toLower != x || (Char.ofNat n == x || Char.ofNat n == x.toUpper)) = true := by decide +kernel
  have hruns : (lowerRuns.all fun r => decide (115 < r.first + r.shift) ||
      decide (r.first = r.last ∧ r.first + r.shift = 107)) = true := by decide +kernel
  have hvalue : x.toNat ∈ [46, 114, 115] := by
    simp only [mem_cons, not_mem_nil, or_false] at hx
    rcases hx with rfl | rfl | rfl <;> decide
  simp only [mem_cons, not_mem_nil, or_false] at hvalue
  rcases smallLetter_cases c with ⟨hc, hlower⟩ | ⟨hc, ⟨-, hi⟩ | hsame | ⟨r, hr, hfirst, hlast, hpartner⟩⟩
  · have := all_eq_true.mp (all_eq_true.mp hascii c.toNat (mem_range.mpr hc)) x hx
    simpa [Char.ofNat_toNat, ← hlower, h] using this
  · rw [← h, hi] at hvalue
    exact absurd hvalue (by decide)
  · rw [← h, hsame] at hvalue
    omega
  · have hr := all_eq_true.mp hruns r hr
    simp only [Bool.or_eq_true, decide_eq_true_eq] at hr
    rw [← h, hpartner] at hvalue
    rcases toNat_ofNat_cases (c.toNat + r.shift).toNat with heq | heq
    · omega
    · rw [heq] at hvalue
      exact absurd hvalue (by decide)

theorem lowerFrom_eq_cons {x : Char} {s t : List Char} {b : Bool} (hx : x ∈ ['.', 'r', 's'])
    (h : lowerFrom b s = x :: t) : ∃ c r b', s = c :: r ∧ (c = x ∨ c = x.toUpper) ∧ lowerFrom b' r = t := by
  have hne : x ∉ ['i', 'σ', 'ς'] := by
    simp only [mem_cons, not_mem_nil, or_false] at hx
    rcases hx with rfl | rfl | rfl <;> decide
  cases s with
  | nil => cases h
  | cons c r =>
    rw [lowerFrom] at h
    split at h
    · rw [lowerSigma] at h
      split at h <;> (cases h; exact absurd (by decide) hne)
    · rw [lowerChar] at h
      split at h
      · cases h
        exact absurd (by decide) hne
      · obtain ⟨hc, hr⟩ := List.cons.inj h
        exact ⟨c, r, _, rfl, eq_or_of_smallLetter hx hc, hr⟩

theorem lowerFrom_ne_nil (b : Bool) (c : Char) (r : List Char) : lowerFrom b (c :: r) ≠ [] := by
  rw [lowerFrom, lowerChar]
  split
  · simp
  · split <;> simp

theorem lower_eq_rs_iff {s : String} : lower s = ".rs" ↔
    ∃ r ∈ ['r', 'R'], ∃ t ∈ ['s', 'S'], s.toList = ['.', r, t] := by
  constructor
  · intro h
    have hchars : ".rs".toList = ['.', 'r', 's'] := rfl
    have h : lowerFrom false s.toList = ['.', 'r', 's'] := by rw [← hchars, ← h, lower, String.toList_ofList]
    obtain ⟨c, r, b, hs, hc, h⟩ := lowerFrom_eq_cons (by decide) h
    obtain ⟨d, r, b, rfl, hd, h⟩ := lowerFrom_eq_cons (by decide) h
    obtain ⟨e, r, b, rfl, he, h⟩ := lowerFrom_eq_cons (by decide) h
    obtain rfl : r = [] := by
      cases r with
      | nil => rfl
      | cons f r => exact absurd h (lowerFrom_ne_nil b f r)
    obtain rfl : c = '.' := hc.elim id id
    exact ⟨d, by simpa using hd, e, by simpa using he, hs⟩
  · rintro ⟨r, hr, t, ht, hs⟩
    rw [lower, hs]
    simp only [mem_cons, not_mem_nil, or_false] at hr ht
    rcases hr with rfl | rfl <;> rcases ht with rfl | rfl <;> decide

end ContractAudit.Text

namespace ContractAudit
open List FilePath Node.Holding

theorem isSourcePath_iff {root : String} {dirs : List String} {name : String} :
    isSourcePath ⟨root, dirs ++ [name]⟩ = true ↔
      ∃ stem, stem ≠ [] ∧ ∃ r ∈ ['r', 'R'], ∃ s ∈ ['s', 'S'], name.toList = stem ++ ['.', r, s] := by
  have hname : (FilePath.mk root (dirs ++ [name])).name = name := by simp [FilePath.name]
  have hsource (p : FilePath) : isSourcePath p = true ↔ Text.lower p.suffix = ".rs" := by
    unfold isSourcePath languageOfSuffix?
    split
    · next h => exact ⟨fun _ => h, fun _ => rfl⟩
    · next h => exact ⟨fun h' => absurd h' Bool.false_ne_true, fun h' => absurd h' h⟩
  rw [hsource, Text.lower_eq_rs_iff]
  constructor
  · rintro ⟨r, hr, s, hs, hsuffix⟩
    obtain ⟨stem, hne, hstem⟩ := exists_stem (p := ⟨root, dirs ++ [name]⟩) (fun h => by simp [h] at hsuffix)
    exact ⟨stem, hne, r, hr, s, hs, by rw [← hname, hstem, hsuffix]⟩
  · rintro ⟨stem, hne, r, hr, s, hs, hstem⟩
    refine ⟨r, hr, s, hs, ?_⟩
    have hdot : '.' ∉ [r, s] := by
      simp only [mem_cons, not_mem_nil, or_false] at hr hs ⊢
      rcases hr with rfl | rfl <;> rcases hs with rfl | rfl <;> decide
    rw [suffix, hname, hstem, suffixStart?_append stem hdot (cons_ne_nil _ _), if_neg hne]
    simp

namespace Node
variable {n : Node} {es : List (String × Node)} {enter : String → Bool} {held : List (String × Holding)}
  {name : String} {parts : List String} {f : File}

/-- The names in each directory are distinct. -/
inductive IsTree : Node → Prop where
  | file (f : File) : IsTree (.file f)
  | dir {es : List (String × Node)} (distinct : (es.map (·.1)).Nodup) (below : ∀ e ∈ es, e.2.IsTree) : IsTree (.dir es)

/-! ### What a walk meets -/

theorem mem_gather : (parts, f) ∈ gather held ↔ (∃ name, (name, .file f) ∈ held ∧ parts = [name]) ∨
      ∃ name files p, (name, .below files) ∈ held ∧ (p, f) ∈ files ∧ parts = name :: p := by
  simp only [gather, mem_append, mem_filterMap, mem_flatMap, mem_mergeSort]
  refine or_congr ⟨?_, ?_⟩ ⟨?_, ?_⟩
  · rintro ⟨⟨name, h⟩, hmem, heq⟩
    cases h <;> cases heq
    exact ⟨name, hmem, rfl⟩
  · rintro ⟨name, hmem, rfl⟩
    exact ⟨_, hmem, rfl⟩
  · rintro ⟨⟨name, h⟩, hmem, hin⟩
    cases h with
    | file => cases hin
    | below files =>
      obtain ⟨⟨p, g⟩, hp, heq⟩ := mem_map.mp hin
      cases heq
      exact ⟨name, files, p, hmem, hp, rfl⟩
  · rintro ⟨name, files, p, hmem, hp, rfl⟩
    exact ⟨_, hmem, mem_map.mpr ⟨_, hp, rfl⟩⟩

theorem mem_holdings {h : Holding} : (name, h) ∈ holdings enter es ↔ (∃ f, (name, .file f) ∈ es ∧ h = .file f) ∨
      ∃ es', (name, .dir es') ∈ es ∧ enter name = true ∧ h = .below ((Node.dir es').files enter) := by
  induction es with
  | nil => simp [holdings]
  | cons e es ih =>
    obtain ⟨name', n⟩ := e
    rw [holdings, mem_append, ih]
    cases n with
    | file f =>
      simp only [holding, Prod.mk.injEq, mem_cons]
      grind
    | dir es' =>
      by_cases henter : enter name' = true
      · simp only [holding, henter, if_true, Prod.mk.injEq, mem_cons]
        grind
      · simp only [holding, henter, Prod.mk.injEq, mem_cons]
        grind

/-- The files that a walk meets are those that names lead to through directories that are entered. -/
theorem IsTree.mem_files (h : n.IsTree) : (parts, f) ∈ n.files enter ↔
    parts ≠ [] ∧ n.reach? parts = some (.file f) ∧ ∀ d ∈ parts.dropLast, enter d = true := by
  induction h generalizing parts with
  | file g =>
    cases parts <;> simp [files, reach?, entries]
  | @dir es distinct below ih =>
    rw [files, mem_gather]
    simp only [mem_holdings]
    cases parts with
    | nil => simp
    | cons p ps =>
      simp only [reach?, entries, Option.bind_eq_some_iff, lookup_eq_some_iff_mem distinct]
      constructor
      · rintro (⟨name, hheld, heq⟩ | ⟨name, files, q, hheld, hq, heq⟩)
        · cases heq
          obtain ⟨_, hmem, hf⟩ | ⟨_, _, _, hf⟩ := hheld
          · cases hf
            exact ⟨cons_ne_nil _ _, ⟨_, hmem, rfl⟩, fun d hd => absurd hd not_mem_nil⟩
          · cases hf
        · cases heq
          obtain ⟨_, _, hf⟩ | ⟨es', hmem, henter, hf⟩ := hheld
          · cases hf
          · cases hf
            obtain ⟨hne, hreach, hall⟩ := (ih _ hmem).mp hq
            refine ⟨cons_ne_nil _ _, ⟨_, hmem, hreach⟩, ?_⟩
            rw [dropLast_cons_of_ne_nil hne]
            exact forall_mem_cons.mpr ⟨henter, hall⟩
      · rintro ⟨-, ⟨m, hmem, hreach⟩, hall⟩
        cases ps with
        | nil =>
          cases hreach
          exact .inl ⟨p, .inl ⟨f, hmem, rfl⟩, rfl⟩
        | cons q ps =>
          obtain ⟨henter, hall⟩ := forall_mem_cons.mp hall
          cases m with
          | file g => cases hreach
          | dir es' =>
            exact .inr ⟨p, _, q :: ps, .inr ⟨es', hmem, henter, rfl⟩,
              (ih _ hmem).mpr ⟨cons_ne_nil _ _, hreach, hall⟩, rfl⟩

/-! ### The order of a walk -/

/-- Where the paths part, a file comes before a directory, and of two files or two directories the one with
    the smaller name comes first. -/
def WalkedBefore (p q : List String) : Prop :=
  ∃ d x p' y q', p = d ++ x :: p' ∧ q = d ++ y :: q' ∧ (p' = [] ∧ q' ≠ [] ∨ (p' = [] ↔ q' = []) ∧ x < y)

theorem WalkedBefore.cons {p q : List String} (h : WalkedBefore p q) (name : String) :
    WalkedBefore (name :: p) (name :: q) := by
  obtain ⟨d, x, p', y, q', rfl, rfl, h⟩ := h
  exact ⟨name :: d, x, p', y, q', rfl, rfl, h⟩

theorem WalkedBefore.asymm {p q : List String} (h : WalkedBefore p q) : ¬WalkedBefore q p := by
  rintro ⟨e, u, q'', v, p'', hq, hp, h'⟩
  obtain ⟨d, x, p', y, q', rfl, rfl, h⟩ := h
  -- one of the common beginnings goes on from the other; if it is longer, the paths do not part there
  rcases append_eq_append_iff.mp hp with ⟨as, rfl, hx⟩ | ⟨as, rfl, hv⟩ <;>
    rw [append_assoc, append_cancel_left_eq] at hq <;> cases as <;>
    grind [String.lt_asymm, String.lt_irrefl, append_eq_nil_iff]

theorem names_holdings_sublist : ((holdings enter es).map (·.1)).Sublist (es.map (·.1)) := by
  induction es with
  | nil => exact List.Sublist.refl _
  | cons e es ih =>
    obtain ⟨name, n⟩ := e
    rw [holdings, map_append, map_cons]
    cases n with
    | file f => exact ih.cons_cons name
    | dir es' =>
      rw [holding]
      split
      · exact ih.cons_cons name
      · exact ih.cons name

theorem pairwise_gather (hdistinct : (held.map (·.1)).Nodup) (hbelow : ∀ name files, (name, .below files) ∈ held →
      (files.map (·.1)).Pairwise WalkedBefore ∧ ∀ e ∈ files, e.1 ≠ []) :
    ((gather held).map (·.1)).Pairwise WalkedBefore := by
  have hsorted : (held.mergeSort fun a b => decide (a.1 ≤ b.1)).Pairwise fun a b => a.1 < b.1 := by
    have hle := pairwise_mergeSort (fun a b c => isOrder_text.trans a.1 b.1 c.1)
      (fun a b => isOrder_text.total a.1 b.1) held
    have hperm := (mergeSort_perm held fun a b => decide (a.1 ≤ b.1)).map (·.1)
    have hne := pairwise_map.mp (hperm.nodup_iff.mpr hdistinct)
    refine (hle.and hne).imp fun h => ?_
    exact Std.lt_of_le_of_ne (of_decide_eq_true h.1) h.2
  simp only [gather, map_append, pairwise_append, pairwise_map, pairwise_filterMap, pairwise_flatMap]
  have hinner {x y : String} {files : List (List String × File)} {b : List String × File}
      (hfiles : (x, .below files) ∈ held) (hb : b ∈ files.map fun g => (y :: g.1, g.2)) :
      ∃ q, b.1 = y :: q ∧ q ≠ [] := by
    obtain ⟨g, hg, rfl⟩ := mem_map.mp hb
    exact ⟨g.1, rfl, (hbelow x files hfiles).2 g hg⟩
  refine ⟨hsorted.imp ?_, ⟨?_, hsorted.imp_of_mem ?_⟩, ?_⟩
  · rintro ⟨x, h⟩ ⟨y, k⟩ hxy a ha b hb
    cases h <;> cases ha
    cases k <;> cases hb
    exact ⟨[], x, [], y, [], rfl, rfl, .inr ⟨Iff.rfl, hxy⟩⟩
  · rintro ⟨x, h⟩ hmem
    cases h with
    | file => exact .nil
    | below files =>
      obtain ⟨hfiles, -⟩ := hbelow x files (mem_mergeSort.mp hmem)
      exact pairwise_map.mpr ((pairwise_map.mp hfiles).imp fun h => h.cons x)
  · rintro ⟨x, h⟩ ⟨y, k⟩ hx hy hxy a ha b hb
    cases h with
    | file => cases ha
    | below files =>
      cases k with
      | file => cases hb
      | below files' =>
        obtain ⟨p, hp, hpne⟩ := hinner (mem_mergeSort.mp hx) ha
        obtain ⟨q, hq, hqne⟩ := hinner (mem_mergeSort.mp hy) hb
        exact ⟨[], x, p, y, q, hp, hq, .inr ⟨by simp [hpne, hqne], hxy⟩⟩
  · intro a ha b hb
    obtain ⟨a, hin, rfl⟩ := mem_map.mp ha
    obtain ⟨b, hin', rfl⟩ := mem_map.mp hb
    obtain ⟨⟨x, h⟩, hx, hown⟩ := mem_filterMap.mp hin
    obtain ⟨⟨y, k⟩, hy, hb⟩ := mem_flatMap.mp hin'
    cases h <;> cases hown
    cases k with
    | file => cases hb
    | below files =>
      obtain ⟨q, hq, hqne⟩ := hinner (mem_mergeSort.mp hy) hb
      exact ⟨[], x, [], y, q, rfl, hq, .inl ⟨rfl, hqne⟩⟩

theorem IsTree.pairwise_files (h : n.IsTree) : ((n.files enter).map (·.1)).Pairwise WalkedBefore := by
  induction h with
  | file f => exact .nil
  | @dir es distinct below ih =>
    rw [files]
    refine pairwise_gather (distinct.sublist names_holdings_sublist) fun name files hmem => ?_
    obtain ⟨_, _, hf⟩ | ⟨es', hes', -, hf⟩ := mem_holdings.mp hmem
    · cases hf
    · cases hf
      exact ⟨ih _ hes', fun e he => ((below (name, .dir es') hes').mem_files.mp he).1⟩

end Node

/-! ### What is ignored -/

namespace Text

/-- The text falls into pieces, one for each part: any text, or a character that the part takes. -/
inductive Spells : List GlobPart → List Char → Prop where
  | nil : Spells [] []
  | anyText {ps : List GlobPart} {s : List Char} (t : List Char) (h : Spells ps s) : Spells (.anyText :: ps) (t ++ s)
  | char {p : GlobPart} {c : Char} {ps : List GlobPart} {s : List Char} (hp : p ≠ .anyText) (hc : p.takes c = true)
      (h : Spells ps s) : Spells (p :: ps) (c :: s)

theorem globMatches_iff {ps : List GlobPart} {s : List Char} : globMatches ps s = true ↔ Spells ps s := by
  constructor
  · intro h
    induction ps generalizing s with
    | nil =>
      rw [globMatches, List.isEmpty_iff] at h
      exact h ▸ .nil
    | cons p ps ih =>
      by_cases hp : p = .anyText
      · subst hp
        induction s with
        | nil => exact .anyText [] (ih (by rwa [globMatches] at h))
        | cons c s ihs =>
          rw [globMatches, Bool.or_eq_true] at h
          rcases h with h | h
          · exact .anyText [] (ih h)
          · cases ihs h with
            | anyText t hrest => exact .anyText (c :: t) hrest
            | char hp => exact absurd rfl hp
      · cases s with
        | nil => simp [globMatches_cons_nil hp] at h
        | cons c s =>
          rw [globMatches_cons_cons hp, Bool.and_eq_true] at h
          exact .char hp h.1 (ih h.2)
  · intro h
    induction h with
    | nil => simp [globMatches]
    | @anyText ps s t _ ih =>
      induction t with
      | nil =>
        cases s <;> simp [globMatches, ih]
      | cons c t iht => simp [globMatches, iht]
    | @char p c ps s hp hc _ ih => rw [globMatches_cons_cons hp, hc, ih]; rfl

end Text

namespace Discovery

/-- The text goes on behind the pattern, without the slashes at its end, and a slash. -/
def LiesBelow (pattern text : String) : Prop :=
  ∃ base n rest, pattern.toList = base ++ replicate n '/' ∧ base.getLast? ≠ some '/' ∧
    text.toList = base ++ '/' :: rest

theorem dropSlashes_eq {pattern : String} {base : List Char} {n : Nat}
    (hpattern : pattern.toList = base ++ replicate n '/') (hbase : base.getLast? ≠ some '/') :
    (dropSlashes pattern).toList = base := by
  have hdrop : base.reverse.dropWhile (· == '/') = base.reverse := by
    cases h : base.reverse with
    | nil => rfl
    | cons c r =>
      have hc : c ≠ '/' := by rintro rfl; simp [← head?_reverse, h] at hbase
      simp [hc]
  rw [dropSlashes, String.toList_ofList, hpattern, reverse_append, reverse_replicate,
    dropWhile_append_of_pos (by simp), hdrop, reverse_reverse]

theorem exists_slashes (pattern : String) : ∃ n, pattern.toList = (dropSlashes pattern).toList ++ replicate n '/' ∧
    (dropSlashes pattern).toList.getLast? ≠ some '/' := by
  have htake : pattern.toList.reverse.takeWhile (· == '/') =
      replicate (pattern.toList.reverse.takeWhile (· == '/')).length '/' := by
    refine eq_replicate_iff.mpr ⟨rfl, fun c hc => ?_⟩
    simpa using all_eq_true.mp all_takeWhile c hc
  refine ⟨(pattern.toList.reverse.takeWhile (· == '/')).length, ?_, ?_⟩
  · rw [dropSlashes, String.toList_ofList, ← reverse_replicate, ← htake, ← reverse_append,
      takeWhile_append_dropWhile, reverse_reverse]
  · have hhead := head?_dropWhile_not (· == '/') pattern.toList.reverse
    rw [dropSlashes, String.toList_ofList, getLast?_reverse]
    intro h
    simp [h] at hhead

theorem isIgnored_iff {patterns : List String} {text : String} : isIgnored patterns text = true ↔
    ∃ p ∈ patterns, Text.Spells (Text.globParts p.toList) text.toList ∨ LiesBelow p text := by
  simp only [isIgnored, any_eq_true, Bool.or_eq_true, Text.globMatch_eq, Text.globMatches_iff]
  refine exists_congr fun p => and_congr_right fun _ => or_congr_right ?_
  rw [String.toList_append, isPrefixOf_iff_prefix]
  constructor
  · rintro ⟨rest, hrest⟩
    obtain ⟨n, hn, hlast⟩ := exists_slashes p
    exact ⟨_, n, rest, hn, hlast, by simpa using hrest.symm⟩
  · rintro ⟨base, n, rest, hn, hlast, htext⟩
    rw [dropSlashes_eq hn hlast, htext]
    exact ⟨rest, by simp⟩

/-! ### The sources below a directory -/

variable {t n : Node} {root : FilePath} {es : List (String × Node)} {patterns parts : List String} {f : File}

theorem mem_sourcesBelow (h : n.IsTree) : (parts, f) ∈ sourcesBelow patterns n ↔
    parts ≠ [] ∧ n.reach? parts = some (.file f) ∧ (∀ d ∈ parts.dropLast, isEntered d = true) ∧
      isWanted patterns parts = true := by
  rw [sourcesBelow, mem_filter, h.mem_files, and_assoc, and_assoc]

theorem pairwise_sourcesBelow (h : n.IsTree) : ((sourcesBelow patterns n).map (·.1)).Pairwise Node.WalkedBefore :=
  h.pairwise_files.sublist (filter_sublist.map _)

theorem sources_eq (hroot : t.find root = .ok (.dir es)) : sources t root patterns =
    (sourcesBelow patterns (.dir es)).map fun e => (⟨root.root, root.parts ++ e.1⟩, e.2) := by
  rw [sources, hroot]

theorem isEntered_iff {d : String} : isEntered d = true ↔ d ∉ skippedDirectories ∧ d.toList.head? ≠ some '.' := by
  rw [isEntered, Bool.and_eq_true]
  refine and_congr (by simp) ?_
  cases d.toList.head? <;> simp

/-- The sources below a directory are its files with the suffix of a source, in any case, that are reached
    without a directory that is skipped and that no pattern ignores. Each stands there once. -/
theorem sources_exact (hroot : t.find root = .ok (.dir es)) (htree : (Node.dir es).IsTree) (patterns : List String) :
    ((sources t root patterns).map (·.1)).Nodup ∧ ∀ path f, (path, f) ∈ sources t root patterns ↔
      ∃ dirs name, path = ⟨root.root, root.parts ++ (dirs ++ [name])⟩ ∧
        (Node.dir es).reach? (dirs ++ [name]) = some (.file f) ∧
        (∃ stem, stem ≠ [] ∧ ∃ r ∈ ['r', 'R'], ∃ s ∈ ['s', 'S'], name.toList = stem ++ ['.', r, s]) ∧
        (∀ d ∈ dirs, d ∉ skippedDirectories ∧ d.toList.head? ≠ some '.') ∧
        ∀ p ∈ patterns, ¬Text.Spells (Text.globParts p.toList) ("/".intercalate (dirs ++ [name])).toList ∧
          ¬LiesBelow p ("/".intercalate (dirs ++ [name])) := by
  have hwanted (dirs : List String) (name : String) : isWanted patterns (dirs ++ [name]) = true ↔
      (∃ stem, stem ≠ [] ∧ ∃ r ∈ ['r', 'R'], ∃ s ∈ ['s', 'S'], name.toList = stem ++ ['.', r, s]) ∧
      ∀ p ∈ patterns, ¬Text.Spells (Text.globParts p.toList) ("/".intercalate (dirs ++ [name])).toList ∧
        ¬LiesBelow p ("/".intercalate (dirs ++ [name])) := by
    rw [isWanted, Bool.and_eq_true, isSourcePath_iff, Bool.not_eq_true', Bool.eq_false_iff, ne_eq, isIgnored_iff]
    simp only [not_exists, not_and, not_or]
  rw [sources_eq hroot]
  refine ⟨?_, fun path f => ?_⟩
  · rw [map_map]
    refine pairwise_map.mpr ((pairwise_map.mp (pairwise_sourcesBelow htree)).imp fun h heq => ?_)
    have hparts := append_cancel_left (mk.inj heq).2
    exact h.asymm (hparts ▸ hparts ▸ h)
  · rw [mem_map]
    constructor
    · rintro ⟨⟨parts, f⟩, hmem, heq⟩
      cases heq
      obtain ⟨hne, hreach, hentered, hwant⟩ := (mem_sourcesBelow htree).mp hmem
      obtain ⟨dirs, name, rfl⟩ := (eq_nil_or_concat' parts).resolve_left hne
      rw [dropLast_concat] at hentered
      obtain ⟨hsuffix, hignored⟩ := (hwanted dirs name).mp hwant
      exact ⟨dirs, name, rfl, hreach, hsuffix, fun d hd => isEntered_iff.mp (hentered d hd), hignored⟩
    · rintro ⟨dirs, name, rfl, hreach, hsuffix, hentered, hignored⟩
      refine ⟨(dirs ++ [name], f), (mem_sourcesBelow htree).mpr ⟨by simp, hreach, fun d hd => ?_, ?_⟩, rfl⟩
      · rw [dropLast_concat] at hd
        exact isEntered_iff.mpr (hentered d hd)
      · exact (hwanted dirs name).mpr ⟨hsuffix, hignored⟩

theorem units_paths (hroot : t.find root = .ok (.dir es)) (htree : (Node.dir es).IsTree) :
    (units t root patterns).map (·.path) = ((sourcesBelow patterns (.dir es)).map (·.1)).map ("/".intercalate ·) := by
  have hfile : t.isFile root = false := by rw [Node.isFile, hroot]
  rw [units, sources_eq hroot, hfile]
  simp only [map_map, Bool.false_eq_true, if_false]
  refine map_congr_left fun e he => ?_
  obtain ⟨hne, -⟩ := (mem_sourcesBelow (f := e.2) htree).mp he
  have hrelative : relativeTo? ⟨root.root, root.parts ++ e.1⟩ root = some ⟨"", e.1⟩ := by
    simp [relativeTo?]
  simp [unitOf, ScanUnit.of, hrelative, toText, hne]

/-- Sources are found in the order of a walk. -/
theorem discovery_order (hroot : t.find root = .ok (.dir es)) (htree : (Node.dir es).IsTree)
    (patterns : List String) : ∃ found : List (List String),
      (sources t root patterns).map (·.1) = found.map (fun parts => ⟨root.root, root.parts ++ parts⟩) ∧
      (units t root patterns).map (·.path) = found.map ("/".intercalate ·) ∧ found.Pairwise Node.WalkedBefore := by
  refine ⟨_, ?_, units_paths hroot htree, pairwise_sourcesBelow htree⟩
  rw [sources_eq hroot, map_map, map_map]
  rfl

/-- A directory with a source in it, and a source beside it. -/
def sampleProject : Node := .dir [("a", .dir [("x.rs", .file ⟨[], false⟩)]), ("b.rs", .file ⟨[], false⟩)]

theorem isTree_sampleProject : sampleProject.IsTree := by
  refine .dir (by decide) fun e he => ?_
  simp only [mem_cons, not_mem_nil, or_false] at he
  rcases he with rfl | rfl
  · exact .dir (by decide) fun e he => mem_singleton.mp he ▸ .file _
  · exact .file _

theorem sources_exact_sampleProject : (⟨"", ["a", "x.rs"]⟩, ⟨[], false⟩) ∈ sources sampleProject ⟨"", []⟩ [] ∧
      (⟨"", ["a", "x.rs"]⟩, ⟨[], false⟩) ∉ sources sampleProject ⟨"", []⟩ ["a/"] := by
  refine ⟨((sources_exact rfl isTree_sampleProject []).2 _ _).mpr ⟨["a"], "x.rs", rfl, rfl, ?_, by decide, by simp⟩,
    fun h => ?_⟩
  · exact ⟨['x'], by decide, 'r', by decide, 's', by decide, rfl⟩
  · obtain ⟨dirs, name, hpath, -, -, -, hignored⟩ := ((sources_exact rfl isTree_sampleProject ["a/"]).2 _ _).mp h
    have hparts : ["a", "x.rs"] = dirs ++ [name] := (mk.inj hpath).2
    refine (hignored "a/" (.head _)).2 ?_
    rw [← hparts]
    exact ⟨['a'], 1, "x.rs".toList, by decide, by decide, by decide⟩

theorem discovery_order_sampleProject : ∃ found : List (List String),
    (units sampleProject ⟨"", []⟩ []).map (·.path) = found.map ("/".intercalate ·) ∧
      found.Pairwise Node.WalkedBefore := by
  have hroot : sampleProject.find ⟨"", []⟩ = .ok sampleProject := rfl
  obtain ⟨found, -, hpaths, hwalk⟩ := discovery_order hroot isTree_sampleProject []
  exact ⟨found, hpaths, hwalk⟩

/-- The source `b.rs` comes before `a/x.rs`. -/
theorem discovery_not_ascending : (units sampleProject ⟨"", []⟩ []).map (·.path) = ["b.rs", "a/x.rs"] ∧
    ¬((units sampleProject ⟨"", []⟩ []).map (·.path)).Pairwise (· < ·) := by
  have hpaths : (units sampleProject ⟨"", []⟩ []).map (·.path) = ["b.rs", "a/x.rs"] := by
    have hunits : (units sampleProject ⟨"", []⟩ []).map (·.path) =
        ((sourcesBelow [] sampleProject).map (·.1)).map ("/".intercalate ·) := units_paths rfl isTree_sampleProject
    have hgather (files : List (List String × File)) : gather [("a", .below files), ("b.rs", .file ⟨[], false⟩)] =
          (["b.rs"], ⟨[], false⟩) :: files.map fun e => ("a" :: e.1, e.2) := by
      rw [gather, mergeSort_of_pairwise (by simp +decide)]
      simp
    have hfiles : sampleProject.files isEntered = [(["b.rs"], ⟨[], false⟩), (["a", "x.rs"], ⟨[], false⟩)] := by
      have hentered : isEntered "a" = true := by decide
      have hbelow : gather [("x.rs", .file ⟨[], false⟩)] = [(["x.rs"], ⟨[], false⟩)] := by
        simp [gather]
      simp [sampleProject, Node.files, Node.holdings, Node.holding, hentered, hgather, hbelow]
    have hwanted : isWanted [] ["b.rs"] = true ∧ isWanted [] ["a", "x.rs"] = true := by decide +kernel
    rw [hunits, sourcesBelow, hfiles]
    simp [hwanted]
  rw [hpaths]
  exact ⟨rfl, by decide⟩

end Discovery

end ContractAudit

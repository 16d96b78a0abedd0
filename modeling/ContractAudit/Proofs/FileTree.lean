import ContractAudit.Files.Tree
import ContractAudit.Proofs.Checked

/-! # Changing a tree of files

A walk ends at the place that its components name once each `..` has taken back the one before
(`reach?_place`). -/

namespace ContractAudit
open List FilePath

namespace FilePath
variable {name : String} {p q : FilePath}

theorem slash_not_mem_of_mem_parts {text c : String} (h : c ∈ (ofString text).parts) : '/' ∉ c.toList := by
  obtain ⟨part, hpart, rfl⟩ := mem_map.mp h
  rw [String.toList_ofList]
  exact Text.not_mem_of_mem_splitOnChar (mem_filter.mp hpart).1

theorem rootSlashes_of_not_mem {s : List Char} (h : '/' ∉ s) : rootSlashes s = 0 := by
  unfold rootSlashes
  split <;> simp_all

theorem ofString_component (hslash : '/' ∉ name.toList) (hempty : name ≠ "") (hdot : name ≠ ".") :
    ofString name = ⟨"", [name]⟩ := by
  have hne : name.toList ≠ [] := fun h => hempty (String.toList_inj.mp h)
  have hne' : name.toList ≠ ['.'] := fun h => hdot (String.toList_inj.mp h)
  rw [ofString, rootSlashes_of_not_mem hslash, Text.splitOnChar_of_not_mem hslash]
  simp [hne, hne']

theorem suffixStart?_append (stem : List Char) {ext : List Char} (hdot : '.' ∉ ext) (hne : ext ≠ []) :
    suffixStart? (stem ++ '.' :: ext) = if stem = [] then none else some stem.length := by
  have hnone : ext.reverse.findIdx? (· == '.') = none := by
    simpa using fun c hc (h : c = '.') => hdot (h ▸ hc)
  have hfind : (stem ++ '.' :: ext).reverse.findIdx? (· == '.') = some ext.length := by
    rw [reverse_append, reverse_cons, append_assoc, findIdx?_append, hnone]
    simp [findIdx?_cons]
  have hlength := length_pos_iff.mpr hne
  have hstart : stem.length + (ext.length + 1) - 1 - ext.length = stem.length := by omega
  rw [suffixStart?, hfind]
  simp only [length_append, length_cons, hstart]
  cases stem <;> simp [hlength]

theorem exists_stem (h : p.suffix ≠ "") : ∃ stem, stem ≠ [] ∧ p.name.toList = stem ++ p.suffix.toList := by
  unfold suffix at h ⊢
  split at h
  · next i hi =>
    refine ⟨p.name.toList.take i, ?_, by rw [String.toList_ofList, take_append_drop]⟩
    have hpos : 0 < i := by
      unfold suffixStart? at hi
      grind
    have hne : p.name.toList ≠ [] := fun hnil => h (by rw [hnil, drop_nil])
    simp [Nat.pos_iff_ne_zero.mp hpos, hne]
  · exact absurd rfl h

theorem suffixStart?_py (stem : List Char) :
    suffixStart? (stem ++ ".py".toList) = if stem = [] then none else some stem.length :=
  suffixStart?_append stem (by decide) (by decide)

theorem name_of_suffix (h : p.suffix = ".py") : ∃ stem, stem ≠ [] ∧ p.name.toList = stem ++ ".py".toList :=
  h ▸ exists_stem (by simp [h])

theorem stem_py {stem : List Char} (h : p.name.toList = stem ++ ".py".toList) :
    p.stem.toList = if stem = [] then ".py".toList else stem := by
  unfold FilePath.stem
  rw [h, suffixStart?_py]
  split
  · next i hi =>
    split at hi
    · cases hi
    · next hne =>
      cases hi
      rw [if_neg hne, String.toList_ofList, take_left]
  · next hi =>
    split at hi
    · next hnil =>
      rw [if_pos hnil, h, hnil]
      rfl
    · cases hi

/-- Of the files whose names end in `.py`, only `.py` can have the stem of another one. -/
theorem name_eq_of_stem (hp : p.suffix = ".py") (hq : ".py".toList <:+ q.name.toList)
    (h : q.stem = p.stem) : q.name = p.name ∨ q.name = ".py" ∧ p.name = ".py.py" := by
  obtain ⟨stem, hne, hname⟩ := name_of_suffix hp
  obtain ⟨stem', hname'⟩ := hq
  have hstem : q.stem.toList = p.stem.toList := by rw [h]
  rw [stem_py hname, stem_py hname'.symm, if_neg hne] at hstem
  split at hstem
  · next hnil =>
    subst hnil hstem
    exact .inr ⟨String.toList_inj.mp hname'.symm, String.toList_inj.mp hname⟩
  · subst hstem
    exact .inl (String.toList_inj.mp (hname'.symm.trans hname.symm))

theorem name_ofString_name (text : String) : (ofString (ofString text).name).name = (ofString text).name := by
  unfold name
  cases hlast : (ofString text).parts.getLast? with
  | none => rfl
  | some c =>
    have hmem := mem_of_getLast? hlast
    obtain ⟨part, hpart, rfl⟩ := mem_map.mp hmem
    have hkeep := (mem_filter.mp hpart).2
    rw [Bool.and_eq_true, Bool.not_eq_true', isEmpty_eq_false_iff, bne_iff_ne] at hkeep
    rw [Option.getD_some, ofString_component (slash_not_mem_of_mem_parts hmem)]
    · rfl
    · exact fun h => hkeep.1 (String.ofList_injective h)
    · exact fun h => hkeep.2 (String.ofList_injective h)

theorem stem_ofString_name (text : String) : (ofString (ofString text).name).stem = (ofString text).stem := by
  rw [stem, stem, name_ofString_name]

theorem stem_of_suffix_eq_empty (h : p.suffix = "") : p.stem = p.name := by
  unfold suffix at h
  unfold stem
  split
  · next i hi =>
    rw [hi] at h
    have hdrop : p.name.toList.drop i = [] := String.ofList_injective h
    have hle := drop_eq_nil_iff.mp hdrop
    rw [take_of_length_le hle, String.ofList_toList]
  · rfl

theorem name_inside (d : FilePath) (name : String) : (d.inside name).name = name := by
  simp [inside, FilePath.name]

theorem inside_name (p : FilePath) (h : p.parts ≠ []) : p.parent.inside p.name = p := by
  rw [inside, parent, name, getLast?_eq_some_getLast h, Option.getD_some]
  exact congrArg (mk p.root) (dropLast_concat_getLast h)

end FilePath

theorem lookup_eq_some_iff_mem {α : Type} {l : List (String × α)} {k : String} {a : α} (h : (l.map (·.1)).Nodup) :
    l.lookup k = some a ↔ (k, a) ∈ l := by
  induction l with
  | nil => simp
  | cons e l ih =>
    obtain ⟨k', b⟩ := e
    rw [map_cons, nodup_cons] at h
    rw [lookup_cons, mem_cons, Prod.mk.injEq]
    by_cases hk : k = k'
    · have hnot : (k', a) ∉ l := fun hmem => h.1 (mem_map.mpr ⟨_, hmem, rfl⟩)
      simp [hk, hnot, eq_comm]
    · have hbeq : (k == k') = false := by simpa using hk
      simp [hbeq, hk, ih h.2]

namespace Node
variable {t n m x : Node} {held : List (String × Node)} {name p q : String} {above : List Node}
  {ps done : List String}
variable {d : FilePath} {n' t' : Node} {f : File}

/-! ### Entries -/

theorem lookup_alterEntry (change : Node → Node) :
    (alterEntry p change held).lookup q = if q = p then (held.lookup p).map change else held.lookup q := by
  induction held with
  | nil => simp [alterEntry]
  | cons e held ih =>
    obtain ⟨k, n⟩ := e
    by_cases hk : k = p
    · subst hk
      by_cases hq : q = k
      · simp [alterEntry, hq]
      · have hqk : (q == k) = false := by simpa using hq
        simp [alterEntry, lookup_cons, hq, hqk]
    · have hpk : (p == k) = false := by simpa using fun h : p = k => hk h.symm
      rw [alterEntry, if_neg (by simpa using hk), lookup_cons, ih, lookup_cons, lookup_cons, hpk]
      by_cases hq : q = p
      · rw [if_pos hq, hq, hpk, if_pos rfl]
      · rw [if_neg hq, if_neg hq]

theorem alterEntry_alterEntry (change change' : Node → Node) :
    alterEntry p change' (alterEntry p change held) = alterEntry p (fun n => change' (change n)) held := by
  induction held with
  | nil => rfl
  | cons e held ih =>
    by_cases he : (e.1 == p) = true
    · simp [alterEntry, he]
    · simp [alterEntry, he, ih]

theorem alterEntry_of_lookup (h : held.lookup p = some m) : alterEntry p (fun _ => m) held = held := by
  induction held with
  | nil => rfl
  | cons e held ih =>
    obtain ⟨k, n⟩ := e
    by_cases hk : k = p
    · subst hk
      simp only [lookup_cons_self, Option.some.injEq] at h
      simp [alterEntry, h]
    · have hpk : (p == k) = false := by simpa using fun h : p = k => hk h.symm
      rw [lookup_cons, hpk] at h
      simp [alterEntry, hk, ih h]

theorem any_of_lookup (h : held.lookup p = some m) : held.any (·.1 == p) = true := by
  obtain ⟨pre, post, rfl, -⟩ := lookup_eq_some_iff.mp h
  simp

theorem any_of_lookup_eq_none (h : held.lookup p = none) : held.any (·.1 == p) = false := by
  rw [any_eq_false]
  intro e he
  have := lookup_eq_none_iff.mp h e he
  simpa [BEq.comm] using this

theorem setEntry_of_lookup (h : held.lookup p = some m) : setEntry held p n = alterEntry p (fun _ => n) held := by
  rw [setEntry, if_pos (any_of_lookup h)]

theorem setEntry_of_lookup_eq_none (h : held.lookup p = none) : setEntry held p n = held ++ [(p, n)] := by
  rw [setEntry, any_of_lookup_eq_none h]
  rfl

theorem lookup_concat (h : held.lookup name = none) :
    (held ++ [(name, x)]).lookup q = if q = name then some x else held.lookup q := by
  rw [lookup_append]
  by_cases hq : q = name
  · simp [hq, h]
  · have hqn : (q == name) = false := by simpa using hq
    simp [hq, hqn, lookup_cons]

/-! ### Places -/

/-- What the components lead to from a node, all of them downwards. -/
def reach? (t : Node) : List String → Option Node
  | [] => some t
  | p :: ps => (t.entries.lookup p).bind (·.reach? ps)

theorem reach?_append (t : Node) (ps qs : List String) : t.reach? (ps ++ qs) = (t.reach? ps).bind (·.reach? qs) := by
  induction ps generalizing t with
  | nil => rfl
  | cons p ps ih =>
    rw [cons_append, reach?, reach?]
    cases t.entries.lookup p with
    | none => rfl
    | some m => exact ih m

theorem entries_of_lookup (h : t.entries.lookup p = some m) : t = .dir t.entries := by
  cases t with
  | file f => cases h
  | dir held => rfl

theorem descend_down (hp : p ≠ "..") (ps : List String) : (Node.dir held).descend above (p :: ps) =
      (held.lookup p).elim (.error .absent) (·.descend (.dir held :: above) ps) := by
  rw [descend.eq_def]
  simp only [beq_iff_eq, hp, if_false]
  cases held.lookup p <;> rfl

/-- What a walk has behind it: the place that it is at, what is there, and what it came through. -/
inductive Trail (t : Node) : List String → Node → List Node → Prop where
  | root : Trail t [] t []
  | down {done : List String} {n m : Node} {above : List Node} {p : String} (h : Trail t done n above)
      (hp : p ≠ "..") (hm : n.entries.lookup p = some m) : Trail t (done ++ [p]) m (n :: above)

theorem Trail.reach?_eq (h : Trail t done n above) : t.reach? done = some n := by
  induction h with
  | root => rfl
  | down _ _ hm ih =>
    rw [reach?_append, ih]
    simp [reach?, hm]

/-- A walk keeps its trail: each `..` takes back the last component. -/
theorem Trail.descend (h : Trail t done n above) (hd : n.descend above ps = .ok m) :
    ∃ above', Trail t (ps.foldl (fun done c => if c == ".." then done.dropLast else done ++ [c]) done) m above' := by
  induction ps generalizing done n above with
  | nil =>
    cases hd
    exact ⟨above, h⟩
  | cons p ps ih =>
    rw [foldl_cons]
    cases n with
    | file f => cases hd
    | dir held =>
      by_cases hp : p = ".."
      · subst hp
        cases h with
        | root => cases hd
        | down h' _ _ =>
          rw [if_pos BEq.rfl, dropLast_concat]
          exact ih h' hd
      · rw [if_neg (by simpa using hp)]
        rw [descend_down hp] at hd
        cases hk : held.lookup p with
        | none =>
          rw [hk] at hd
          cases hd
        | some k =>
          rw [hk] at hd
          exact ih (h.down hp hk) hd

theorem root_of_find (h : t.find d = .ok n) : d.root.isEmpty = true := by
  unfold find at h
  split at h
  · assumption
  · cases h

theorem reach?_place (h : t.find d = .ok n) : t.reach? (place d) = some n := by
  rw [find, if_pos (root_of_find h)] at h
  obtain ⟨_, htrail⟩ := Trail.root.descend h
  exact htrail.reach?_eq

theorem descend_concat (hq : q ≠ "..") (h : n.descend above ps = .ok (.dir held)) :
    n.descend above (ps ++ [q]) = (held.lookup q).elim (.error .absent) .ok := by
  induction ps generalizing n above with
  | nil =>
    cases h
    exact descend_down hq []
  | cons p ps ih =>
    cases n with
    | file f => cases h
    | dir k =>
      rw [cons_append]
      by_cases hp : p = ".."
      · subst hp
        cases above with
        | nil => cases h
        | cons a above => exact ih h
      · rw [descend_down hp] at h ⊢
        cases hm : k.lookup p with
        | none =>
          rw [hm] at h
          cases h
        | some m =>
          rw [hm] at h
          exact ih h

theorem find_inside (h : t.find d = .ok (.dir held)) (hname : name ≠ "..") :
    t.find (d.inside name) = (held.lookup name).elim (.error .absent) .ok := by
  have hroot := root_of_find h
  rw [find, if_pos hroot] at h
  rw [find, if_pos (show (d.inside name).root.isEmpty = true from hroot)]
  exact descend_concat hname h

theorem descend_of_reach? (hup : ".." ∉ ps) (h : t.reach? ps = some n) : t.descend above ps = .ok n := by
  induction ps generalizing t above with
  | nil =>
    cases h
    rfl
  | cons p ps ih =>
    rw [mem_cons, not_or] at hup
    obtain ⟨m, hm, h⟩ := Option.bind_eq_some_iff.mp h
    rw [entries_of_lookup hm, descend_down (Ne.symm hup.1), hm]
    exact ih hup.2 h

theorem place_of_plain (hup : ".." ∉ d.parts) : place d = d.parts := by
  have hgo : ∀ (ps done : List String), ".." ∉ ps →
      ps.foldl (fun done c => if c == ".." then done.dropLast else done ++ [c]) done = done ++ ps := by
    intro ps
    induction ps with
    | nil => simp
    | cons p ps ih =>
      intro done hps
      rw [mem_cons, not_or] at hps
      rw [foldl_cons, if_neg (by simpa using Ne.symm hps.1), ih _ hps.2, append_assoc]
      rfl
  exact hgo d.parts [] hup

theorem place_inside (d : FilePath) (hname : name ≠ "..") : place (d.inside name) = place d ++ [name] := by
  unfold place
  have hparts : (d.inside name).parts = d.parts ++ [name] := rfl
  rw [hparts, foldl_append, foldl_cons, foldl_nil, if_neg (by simpa using hname)]

/-! ### Growing trees -/

/-- The second node is the first one with something put under a new name, somewhere below it. -/
inductive Gains (name : String) (x : Node) : Node → Node → Prop where
  | here {held : List (String × Node)} (h : held.lookup name = none) :
    Gains name x (.dir held) (.dir (held ++ [(name, x)]))
  | under {held : List (String × Node)} {p : String} {m m' : Node} (h : held.lookup p = some m)
      (hm : Gains name x m m') : Gains name x (.dir held) (.dir (alterEntry p (fun _ => m') held))

/-- The second node is the first one, or that with something put under a new name. -/
def Grows (name : String) (x n n' : Node) : Prop := n' = n ∨ Gains name x n n'

theorem Gains.lookup {held' : List (String × Node)} (h : Gains name x (.dir held) (.dir held'))
    (hq : held.lookup q = some m) : ∃ m', held'.lookup q = some m' ∧ Grows name x m m' := by
  cases h with
  | here h =>
    refine ⟨m, ?_, .inl rfl⟩
    rw [lookup_append, hq]
    rfl
  | @under _ p k k' hk hm =>
    by_cases hqp : q = p
    · subst hqp
      cases hk.symm.trans hq
      exact ⟨k', by rw [lookup_alterEntry, if_pos rfl, hk]; rfl, .inr hm⟩
    · exact ⟨m, by rw [lookup_alterEntry, if_neg hqp, hq], .inl rfl⟩

theorem Grows.lookup (h : Grows name x n n') (hn : n.entries.lookup q = some m) :
    ∃ m', n'.entries.lookup q = some m' ∧ Grows name x m m' := by
  rcases h with rfl | h
  · exact ⟨m, hn, .inl rfl⟩
  · cases h with
    | here h => exact Gains.lookup (.here h) hn
    | under h hm => exact Gains.lookup (.under h hm) hn

theorem Grows.isDir (h : Grows name x (.dir held) n') : ∃ held', n' = .dir held' := by
  rcases h with rfl | h
  · exact ⟨held, rfl⟩
  · cases h <;> exact ⟨_, rfl⟩

theorem Grows.entries (h : Grows name x (.dir held) n') :
    ∃ held', n' = .dir held' ∧ ∀ p m, held.lookup p = some m → ∃ m', held'.lookup p = some m' ∧ Grows name x m m' := by
  obtain ⟨held', rfl⟩ := h.isDir
  exact ⟨held', rfl, fun p m hm => h.lookup hm⟩

section related
variable {R : Node → Node → Prop} (hdir : ∀ held n', R (.dir held) n' →
  ∃ held', n' = .dir held' ∧ ∀ p m, held.lookup p = some m → ∃ m', held'.lookup p = some m' ∧ R m m')
include hdir

/-- A walk stays possible where each node gives way to a related one, if what is related to a directory is
    one too and holds related nodes under the same names. -/
theorem descend_of_related {above' : List Node} (h : R n n') (habove : Forall₂ R above above')
    (hd : n.descend above ps = .ok m) : ∃ m', n'.descend above' ps = .ok m' ∧ R m m' := by
  induction ps generalizing n n' above above' with
  | nil =>
    cases hd
    exact ⟨n', rfl, h⟩
  | cons p ps ih =>
    cases n with
    | file f => cases hd
    | dir held =>
      obtain ⟨held', rfl, hheld⟩ := hdir held n' h
      by_cases hp : p = ".."
      · subst hp
        cases habove with
        | nil => cases hd
        | cons ha has => exact ih ha has hd
      · rw [descend_down hp] at hd ⊢
        cases hk : held.lookup p with
        | none =>
          rw [hk] at hd
          cases hd
        | some k =>
          rw [hk] at hd
          obtain ⟨k', hk', hrelated⟩ := hheld p k hk
          rw [hk']
          exact ih hrelated (.cons h habove) hd

theorem find_of_related (h : R t t') (hfind : t.find d = .ok n) (hreach : t'.reach? (place d) = some m) :
    t'.find d = .ok m := by
  have hroot := root_of_find hfind
  rw [find, if_pos hroot] at hfind
  obtain ⟨m', hm', -⟩ := descend_of_related hdir h .nil hfind
  have hfind' : t'.find d = .ok m' := by rw [find, if_pos hroot, hm']
  cases hreach.symm.trans (reach?_place hfind')
  exact hfind'

end related

/-- A place of its own: below a directory that is there, under a name that is not taken. -/
structure Vacant (t : Node) (place : List String) (held : List (String × Node)) (name : String) :
    Prop where
  dir : t.reach? place = some (.dir held)
  free : held.lookup name = none

namespace Vacant
variable {place : List String}

theorem root (h : Vacant t [] held name) : t = .dir held := Option.some.inj h.dir

theorem cons (h : Vacant t (p :: place) held name) :
    ∃ m, t = .dir t.entries ∧ t.entries.lookup p = some m ∧ Vacant m place held name := by
  obtain ⟨m, hm, hdir⟩ := Option.bind_eq_some_iff.mp h.dir
  exact ⟨m, entries_of_lookup hm, hm, hdir, h.free⟩

theorem gains_put (h : Vacant t place held name) (x : Node) : Gains name x t (put x (place ++ [name]) t) := by
  induction place generalizing t with
  | nil =>
    obtain rfl := h.root
    rw [nil_append, put, put, entries, setEntry_of_lookup_eq_none h.free]
    exact .here h.free
  | cons p place ih =>
    obtain ⟨m, ht, hm, hv⟩ := h.cons
    rw [cons_append, put, hm, setEntry_of_lookup hm]
    rw [ht]
    exact .under hm (ih hv)

theorem reach?_put (h : Vacant t place held name) (x : Node) :
    (put x (place ++ [name]) t).reach? place = some (.dir (held ++ [(name, x)])) := by
  induction place generalizing t with
  | nil =>
    obtain rfl := h.root
    rw [nil_append, put, put, entries, setEntry_of_lookup_eq_none h.free]
    rfl
  | cons p place ih =>
    obtain ⟨m, -, hm, hv⟩ := h.cons
    rw [cons_append, put, hm, setEntry_of_lookup hm, reach?, entries, lookup_alterEntry, if_pos rfl, hm]
    exact ih hv

theorem erase_cons (h : ps ≠ []) : erase (p :: ps) (.dir held) = .dir (alterEntry p (erase ps) held) := by
  cases ps with
  | nil => exact absurd rfl h
  | cons q ps => rfl

theorem erase_put (h : Vacant t place held name) (x : Node) :
    erase (place ++ [name]) (put x (place ++ [name]) t) = t := by
  induction place generalizing t with
  | nil =>
    obtain rfl := h.root
    rw [nil_append, put, put, entries, setEntry_of_lookup_eq_none h.free, erase, filter_append]
    have hall : held.filter (·.1 != name) = held := by
      rw [filter_eq_self]
      intro e he
      have := lookup_eq_none_iff.mp h.free e he
      simpa [bne, BEq.comm] using this
    simp [hall]
  | cons p place ih =>
    obtain ⟨m, ht, hm, hv⟩ := h.cons
    rw [cons_append, put, hm, setEntry_of_lookup hm, erase_cons (by simp), alterEntry_alterEntry]
    simp only [Option.getD_some, ih hv]
    rw [alterEntry_of_lookup hm, ← ht]

end Vacant

theorem vacant_place (h : t.find d = .ok (.dir held)) (hname : held.lookup name = none) :
    Vacant t (place d) held name := ⟨reach?_place h, hname⟩

theorem find_put (h : t.find d = .ok (.dir held)) (hname : held.lookup name = none)
    (x : Node) : (put x (place d ++ [name]) t).find d = .ok (.dir (held ++ [(name, x)])) := by
  have hv := vacant_place h hname
  exact find_of_related (fun _ _ => Grows.entries) (.inr (hv.gains_put x)) h (hv.reach?_put x)

/-! ### New directories -/

theorem isDir_iff : t.isDir d = true ↔ ∃ held, t.find d = .ok (.dir held) := by
  unfold isDir
  split
  · next held h => simp [h]
  · next h => simpa using h

theorem makeDir_of_isDir (h : t.isDir d = true) : t.makeDir d = .ok t := by
  obtain ⟨held, hd⟩ := isDir_iff.mp h
  simp [makeDir, hd]

theorem makeDirsBack_of_isDir (h : t.isDir ⟨"", ps.reverse⟩ = true) : t.makeDirsBack ps = .ok t := by
  cases ps with
  | nil => exact makeDir_of_isDir h
  | cons c ps =>
    obtain ⟨held, hd⟩ := isDir_iff.mp h
    simp only [makeDirsBack, hd]
    exact makeDir_of_isDir h

theorem tryDirs_of_isDir (h : t.isDir d = true) : t.tryDirs d = .ok t := by
  obtain ⟨held, hd⟩ := isDir_iff.mp h
  have hroot := root_of_find hd
  have hpath : d = ⟨"", d.parts.reverse.reverse⟩ := by
    rw [reverse_reverse, ← String.isEmpty_iff.mp hroot]
  rw [tryDirs, if_pos hroot]
  exact makeDirsBack_of_isDir (hpath ▸ h)

/-- No file is added, changed or taken away. -/
def SameFiles (t t' : Node) : Prop :=
  ∀ place f, t'.reach? place = some (.file f) ↔ t.reach? place = some (.file f)

theorem SameFiles.refl (t : Node) : SameFiles t t := fun _ _ => Iff.rfl

theorem SameFiles.trans {t₁ t₂ t₃ : Node} (h : SameFiles t₁ t₂) (h' : SameFiles t₂ t₃) : SameFiles t₁ t₃ :=
  fun place f => (h' place f).trans (h place f)

theorem Gains.sameFiles (h : Gains name empty n n') : SameFiles n n' := by
  intro place f
  induction h generalizing place with
  | here hfree =>
    cases place with
    | nil => simp [reach?]
    | cons p place =>
      simp only [reach?, entries, lookup_concat hfree]
      split
      · next hp =>
        subst hp
        rw [hfree]
        cases place <;> simp [reach?, empty, entries]
      · rfl
  | @under held p m m' hm _ ih =>
    cases place with
    | nil => simp [reach?]
    | cons q place =>
      simp only [reach?, entries, lookup_alterEntry]
      split
      · next hq =>
        subst hq
        rw [hm]
        exact ih place
      · rfl

/-- The second tree has the files of the first one but that at a place. -/
structure LosesFile (t : Node) (place : List String) (t' : Node) : Prop where
  isFile : ∃ f, t.reach? place = some (.file f)
  others : ∀ ps f, t'.reach? ps = some (.file f) ↔ ps ≠ place ∧ t.reach? ps = some (.file f)

theorem lookup_filter_ne : (held.filter (·.1 != name)).lookup q = if q = name then none else held.lookup q := by
  induction held with
  | nil => simp
  | cons e held ih =>
    obtain ⟨k, n⟩ := e
    rw [filter_cons, lookup_cons]
    by_cases hk : k = name
    · rw [if_neg (by simpa using hk), ih, hk]
      by_cases hq : q = name
      · rw [if_pos hq, if_pos hq]
      · rw [if_neg hq, if_neg hq, beq_eq_false_iff_ne.mpr hq]
    · rw [if_pos (by simpa using hk), lookup_cons, ih]
      by_cases hq : q = k
      · simp [hq, hk]
      · rw [beq_eq_false_iff_ne.mpr hq]

theorem losesFile_erase (h : t.reach? (ps ++ [name]) = some (.file f)) :
    LosesFile t (ps ++ [name]) (erase (ps ++ [name]) t) := by
  refine ⟨⟨f, h⟩, fun qs g => ?_⟩
  induction ps generalizing t qs with
  | nil =>
    obtain ⟨m, hm, hf⟩ := Option.bind_eq_some_iff.mp h
    cases hf
    obtain ⟨held, rfl⟩ : ∃ held, t = .dir held := ⟨_, entries_of_lookup hm⟩
    rw [nil_append, erase]
    cases qs with
    | nil => simp [reach?]
    | cons q qs =>
      rw [entries] at hm
      simp only [reach?, entries, lookup_filter_ne]
      split
      · next hq =>
        rw [hq, hm]
        cases qs <;> simp [reach?, entries]
      · next hq => simp [hq]
  | cons p ps ih =>
    obtain ⟨m, hm, hrest⟩ := Option.bind_eq_some_iff.mp h
    obtain ⟨held, rfl⟩ : ∃ held, t = .dir held := ⟨_, entries_of_lookup hm⟩
    rw [cons_append, Vacant.erase_cons (by simp)]
    cases qs with
    | nil => simp [reach?]
    | cons q qs =>
      rw [entries] at hm
      simp only [reach?, entries, lookup_alterEntry]
      split
      · next hq =>
        rw [hq, hm]
        simpa using ih hrest qs
      · next hq => simp [hq]

theorem makeDir_of_find (h : (∃ n, t.find d = .ok n) ∨ t.find d = .error .notDirectory) :
    SameFiles t (left (t.makeDir d)) ∧ ∀ t', t.makeDir d = .ok t' → t'.isDir d = true := by
  rcases h with ⟨n, hn⟩ | hn
  · cases n with
    | dir held =>
      have hmake := makeDir_of_isDir (isDir_iff.mpr ⟨held, hn⟩)
      refine ⟨by rw [hmake]; exact .refl t, fun t' ht' => ?_⟩
      cases hmake.symm.trans ht'
      exact isDir_iff.mpr ⟨held, hn⟩
    | file f => simp [makeDir, hn, left, SameFiles.refl]
  · simp [makeDir, hn, left, SameFiles.refl]

theorem makeDir_inside (hd : t.find d = .ok (.dir held)) (name : String) :
    SameFiles t (left (t.makeDir (d.inside name))) ∧
      ∀ t', t.makeDir (d.inside name) = .ok t' → t'.isDir (d.inside name) = true := by
  have hlast := d.name_inside name
  cases hfind : t.find (d.inside name) with
  | ok n => exact makeDir_of_find (.inl ⟨n, hfind⟩)
  | error cause =>
    by_cases hup : name = ".."
    · subst hup
      cases cause <;> simp [makeDir, hfind, hlast, left, SameFiles.refl]
    · rw [find_inside hd hup] at hfind
      cases hk : held.lookup name with
      | some m =>
        rw [hk] at hfind
        cases hfind
      | none =>
        have hmake : t.makeDir (d.inside name) = .ok (put empty (place d ++ [name]) t) := by
          rw [makeDir, find_inside hd hup, hk]
          simp [hlast, hup, place_inside d hup]
        have hnew := find_put hd hk empty
        refine ⟨by rw [hmake]; exact ((vacant_place hd hk).gains_put empty).sameFiles, fun t' ht' => ?_⟩
        cases hmake.symm.trans ht'
        refine isDir_iff.mpr ⟨[], ?_⟩
        rw [find_inside hnew hup, lookup_concat hk, if_pos rfl]
        rfl

theorem inside_reverse (c : String) (ps : List String) :
    (⟨"", (c :: ps).reverse⟩ : FilePath) = inside ⟨"", ps.reverse⟩ c := by
  rw [reverse_cons]
  rfl

theorem sameFiles_makeDirsBack (t : Node) (ps : List String) : SameFiles t (left (t.makeDirsBack ps)) ∧
      ∀ t', t.makeDirsBack ps = .ok t' → t'.isDir ⟨"", ps.reverse⟩ = true := by
  induction ps with
  | nil => exact makeDir_of_find (d := ⟨"", []⟩) (.inl ⟨t, rfl⟩)
  | cons c ps ih =>
    simp only [makeDirsBack]
    split
    · next n hn => exact makeDir_of_find (.inl ⟨n, hn⟩)
    · next hn => exact makeDir_of_find (.inr hn)
    · cases habove : t.makeDirsBack ps with
      | error stop =>
        rw [habove] at ih
        exact ⟨ih.1, fun t' ht' => by cases ht'⟩
      | ok t₁ =>
        rw [habove] at ih
        obtain ⟨held, hheld⟩ := isDir_iff.mp (ih.2 t₁ rfl)
        rw [inside_reverse]
        obtain ⟨hsame, hdir⟩ := makeDir_inside hheld c
        exact ⟨ih.1.trans hsame, hdir⟩

/-- Directories that are made add no file and take none away, wherever that comes to a stop. -/
theorem sameFiles_tryDirs (t : Node) (d : FilePath) : SameFiles t (left (t.tryDirs d)) := by
  unfold tryDirs
  split
  · exact (sameFiles_makeDirsBack t _).1
  · exact .refl t

theorem find_makeDir_inside (hd : t.find d = .ok (.dir held))
    (hname : name ≠ "..") (hx : held.lookup name = none) (h : t.makeDir (d.inside name) = .ok t') :
    t'.find (d.inside name) = .ok (.dir []) := by
  have hfind : t.find (d.inside name) = .error .absent := by
    rw [find_inside hd hname, hx]
    rfl
  have hlast := d.name_inside name
  rw [makeDir, hfind, hlast, if_neg (by simpa using hname), place_inside d hname] at h
  cases h
  rw [find_inside (find_put hd hx empty) hname, lookup_concat hx, if_pos rfl]
  rfl

theorem find_makeDirsBack (h : t.makeDirsBack ps = .ok t') (hup : ".." ∉ ps)
    (hnot : t.isDir ⟨"", ps.reverse⟩ = false) : t'.find ⟨"", ps.reverse⟩ = .ok (.dir []) := by
  induction ps generalizing t t' with
  | nil =>
    cases t with
    | dir held => cases hnot
    | file f => cases h
  | cons c ps ih =>
    rw [mem_cons, not_or] at hup
    obtain ⟨hc, hup⟩ := hup
    simp only [makeDirsBack] at h
    rw [inside_reverse] at h hnot ⊢
    have there (h : t.makeDir (inside ⟨"", ps.reverse⟩ c) = .ok t')
        (hfind : (∃ n, t.find (inside ⟨"", ps.reverse⟩ c) = .ok n) ∨
          t.find (inside ⟨"", ps.reverse⟩ c) = .error .notDirectory) : False := by
      rcases hfind with ⟨n, hn⟩ | hn
      · cases n with
        | dir held => cases hnot.symm.trans (isDir_iff.mpr ⟨held, hn⟩)
        | file f => simp [makeDir, hn] at h
      · simp [makeDir, hn] at h
    split at h
    · next n hn => exact (there h (.inl ⟨n, hn⟩)).elim
    · next hn => exact (there h (.inr hn)).elim
    · next cause hcause hn =>
      obtain ⟨t₁, ht₁, h⟩ := bind_eq_ok.mp h
      obtain ⟨held, hheld, hfree⟩ : ∃ held, t₁.find ⟨"", ps.reverse⟩ = .ok (.dir held) ∧ held.lookup c = none := by
        by_cases habove : t.isDir ⟨"", ps.reverse⟩ = true
        · obtain ⟨held, hheld⟩ := isDir_iff.mp habove
          cases (makeDirsBack_of_isDir habove).symm.trans ht₁
          refine ⟨held, hheld, ?_⟩
          rw [find_inside hheld (Ne.symm hc)] at hn
          cases hk : held.lookup c with
          | none => rfl
          | some m =>
            rw [hk] at hn
            cases hn
        · exact ⟨[], ih ht₁ hup (by simpa using habove), rfl⟩
      exact find_makeDir_inside hheld (Ne.symm hc) hfree h

theorem find_makeDirs (h : t.makeDirs d = .ok t') (hup : ".." ∉ d.parts)
    (hnot : t.isDir d = false) : t'.find d = .ok (.dir []) := by
  have h := mapError_eq_ok.mp h
  unfold tryDirs at h
  split at h
  · next hroot =>
    have hpath : (⟨"", d.parts.reverse.reverse⟩ : FilePath) = d := by
      rw [reverse_reverse, ← String.isEmpty_iff.mp hroot]
    have hmade := find_makeDirsBack h (by simpa using hup) (by rwa [hpath])
    rwa [hpath] at hmade
  · cases h

/-! ### Copies -/

theorem copy_of_free (hd : t.find d = .ok (.dir held)) (hname : name ≠ "..")
    (hfree : held.lookup name = none) (f : File) :
    t.copy name f (d.inside name) = .ok (put (.file f) (place d ++ [name]) t) := by
  have hfind : t.find (d.inside name) = .error .absent := by
    rw [find_inside hd hname, hfree]
    rfl
  have hdir : t.isDir (d.inside name) = false := by rw [isDir, hfind]
  have hparent : (d.inside name).parent = d := by simp [inside, parent]
  simp [copy, hdir, hfind, write, hparent, hd, d.name_inside name, hname, place_inside d hname]

/-! ### Files that are written -/

theorem lookup_setEntry (held : List (String × Node)) (p : String) (n : Node) :
    (setEntry held p n).lookup p = some n := by
  cases h : held.lookup p with
  | none => rw [setEntry_of_lookup_eq_none h, lookup_concat h, if_pos rfl]
  | some m =>
    rw [setEntry_of_lookup h, lookup_alterEntry, if_pos rfl, h]
    rfl

theorem reach?_put (x : Node) (ps : List String) (t : Node) : (put x ps t).reach? ps = some x := by
  induction ps generalizing t with
  | nil => rfl
  | cons p ps ih =>
    rw [put, reach?, entries, lookup_setEntry]
    exact ih _

/-- The second node is the first one, or that with a file in place of another somewhere. -/
inductive Rewrites (f : File) : Node → Node → Prop where
  | same (n : Node) : Rewrites f n n
  | here (old : File) : Rewrites f (.file old) (.file f)
  | under {held : List (String × Node)} {p : String} {m m' : Node} (h : held.lookup p = some m)
      (hm : Rewrites f m m') : Rewrites f (.dir held) (.dir (alterEntry p (fun _ => m') held))

theorem Rewrites.entries (h : Rewrites f (.dir held) n') :
    ∃ held', n' = .dir held' ∧ ∀ p m, held.lookup p = some m → ∃ m', held'.lookup p = some m' ∧ Rewrites f m m' := by
  cases h with
  | same => exact ⟨held, rfl, fun p m hm => ⟨m, hm, .same m⟩⟩
  | @under _ p k k' hk hrewrites =>
    refine ⟨_, rfl, fun q m hm => ?_⟩
    rw [lookup_alterEntry]
    split
    · next hq =>
      subst hq
      cases hk.symm.trans hm
      exact ⟨k', by rw [hk]; rfl, hrewrites⟩
    · exact ⟨m, hm, .same m⟩

theorem rewrites_put {old : File} (h : t.reach? ps = some (.file old)) (f : File) :
    Rewrites f t (put (.file f) ps t) := by
  induction ps generalizing t with
  | nil =>
    cases h
    exact .here old
  | cons p ps ih =>
    obtain ⟨m, hm, h⟩ := Option.bind_eq_some_iff.mp h
    rw [put, hm, setEntry_of_lookup hm]
    rw [entries_of_lookup hm]
    exact .under hm (ih h)

theorem find_put_file {old : File} (h : t.find d = .ok (.file old)) (f : File) :
    (put (.file f) (place d) t).find d = .ok (.file f) :=
  find_of_related (fun _ _ => Rewrites.entries) (rewrites_put (reach?_place h) f) h (reach?_put ..)

theorem find_write (h : t.write d f = .ok t') : ∃ executable, t'.find d = .ok (.file { f with executable }) := by
  cases hfind : t.find d with
  | ok n =>
    cases n with
    | dir held => simp [write, hfind] at h
    | file old =>
      simp only [write, hfind, Except.ok.injEq] at h
      exact ⟨_, h ▸ find_put_file hfind _⟩
  | error cause =>
    simp only [write, hfind] at h
    split at h
    · next held hparent =>
      split at h
      · cases h
      · next hup =>
        cases h
        have hname : d.name ≠ ".." := by simpa using hup
        have hparts : d.parts ≠ [] := by
          intro hnil
          have hsame : d.parent = d := by
            rw [parent, hnil, dropLast_nil, ← hnil]
          rw [hsame, hfind] at hparent
          cases hparent
        rw [← d.inside_name hparts] at hfind ⊢
        have hfree : held.lookup d.name = none := by
          rw [find_inside hparent hname] at hfind
          cases hk : held.lookup d.name with
          | none => rfl
          | some m =>
            rw [hk] at hfind
            cases hfind
        refine ⟨f.executable, ?_⟩
        rw [place_inside _ hname, find_inside (find_put hparent hfree _) hname, lookup_concat hfree, if_pos rfl]
        rfl
    · cases h
    · cases h

theorem exists_write (h : t.write d f = .ok t') (g : File) : ∃ t'', t'.write d g = .ok t'' := by
  obtain ⟨executable, hfind⟩ := find_write h
  exact ⟨_, by rw [write, hfind]⟩

end Node

end ContractAudit

import ContractAudit.Proofs.FileTree
import ContractAudit.Proofs.FailClosed
import ContractAudit.Proofs.Sorting

/-! # Installing a plugin

A file that is put into the store comes in between the files that are there (`install_cases`), so the
plugins loaded from them are those that were loaded before, and one more. -/

namespace ContractAudit
open List Node Registry

namespace PluginStore
variable {s : PluginStore} {t t' : Node} {held : List (String × Node)} {name : String} {f : File}
variable {r : Registry} {res : PluginResult} {path : FilePath} {p : Plugin} {k : Contribution} {t₁ : Node}
variable {m : String} {t₂ : Node} {d : PluginDescriptor}

/-! ### The installed files -/

theorem files_of_find (h : t.find s.dir = .ok (.dir held)) :
    s.files t = (Node.dir held).names.filterMap (pluginFile? s.dir held) := by
  rw [files, h]

theorem files_of_not_isDir (h : t.isDir s.dir = false) : s.files t = [] := by
  unfold files
  split
  · next held hd =>
    rw [isDir, hd] at h
    cases h
  · rfl

theorem mem_names : m ∈ (Node.dir held).names ↔ ∃ n, (m, n) ∈ held := by
  simp [names, entries]

theorem mem_files {e : Entry} (h : e ∈ s.files t) :
    ∃ held m f, t.find s.dir = .ok (.dir held) ∧ held.lookup m = some (.file f) ∧
      isPluginName m = true ∧ e = (s.dir.inside m, f.bytes) := by
  unfold files at h
  split at h
  · next held hd =>
    obtain ⟨m, -, hm⟩ := mem_filterMap.mp h
    unfold pluginFile? at hm
    split at hm
    · next f hf =>
      split at hm
      · next hname =>
        cases hm
        exact ⟨held, m, f, hd, hf, hname, rfl⟩
      · cases hm
    · cases hm
  · cases h

/-- Where no file comes or goes, a directory that was not there has none, if its path never goes back
    up. -/
theorem files_of_sameFiles (h : SameFiles t t') (hup : ".." ∉ s.dir.parts)
    (hnot : t.isDir s.dir = false) : s.files t' = [] := by
  rw [eq_nil_iff_forall_not_mem]
  intro e he
  obtain ⟨held, m, f, hd, hm, -⟩ := mem_files he
  have hreach : t'.reach? (Node.place s.dir ++ [m]) = some (.file f) := by
    rw [reach?_append, reach?_place hd]
    simp [reach?, entries, hm]
  rw [h, reach?_append, place_of_plain hup] at hreach
  obtain ⟨n, hn, hfile⟩ := Option.bind_eq_some_iff.mp hreach
  obtain ⟨k, hk, -⟩ := Option.bind_eq_some_iff.mp hfile
  have hfind : t.find s.dir = .ok n := by
    rw [Node.find, if_pos (Node.root_of_find hd)]
    exact descend_of_reach? hup hn
  rw [entries_of_lookup hk] at hfind
  rw [isDir, hfind] at hnot
  cases hnot

theorem names_concat (held : List (String × Node)) (name : String) (x : Node) :
    ∃ pre post, (Node.dir held).names = pre ++ post ∧
      (Node.dir (held ++ [(name, x)])).names = pre ++ name :: post := by
  have hperm : ((held ++ [(name, x)]).map (·.1)).Perm (name :: held.map (·.1)) := by
    rw [map_append]
    exact perm_append_singleton _ _
  obtain ⟨pre, post, hcons, hall, -⟩ := mergeSort_cons isOrder_text.trans isOrder_text.total name (held.map (·.1))
  exact ⟨pre, post, hall, (mergeSort_eq_of_perm isOrder_text hperm).trans hcons⟩

theorem pluginFile?_concat {x : Node} (hfree : held.lookup name = none) (hm : m ≠ name) :
    pluginFile? s.dir (held ++ [(name, x)]) m = pluginFile? s.dir held m := by
  rw [pluginFile?, lookup_concat hfree, if_neg hm, pluginFile?]

theorem files_put (hd : t.find s.dir = .ok (.dir held)) (hfree : held.lookup name = none) (f : File) :
    ∃ pre post, s.files t = pre ++ post ∧ s.files (put (.file f) (Node.place s.dir ++ [name]) t) =
        pre ++ (if isPluginName name then [(s.dir.inside name, f.bytes)] else []) ++ post := by
  obtain ⟨pre, post, hnames, hnames'⟩ := names_concat held name (.file f)
  have hne : ∀ m ∈ pre ++ post, m ≠ name := by
    rintro m hm rfl
    obtain ⟨n, hn⟩ := mem_names.mp (hnames ▸ hm)
    exact absurd (lookup_eq_none_iff.mp hfree _ hn) (by simp)
  have hsame : ∀ l : List String, (∀ m ∈ l, m ≠ name) →
      l.filterMap (pluginFile? s.dir (held ++ [(name, .file f)])) = l.filterMap (pluginFile? s.dir held) :=
    fun l hl => filterMap_congr fun m hm => pluginFile?_concat hfree (hl m hm)
  have hnew : pluginFile? s.dir (held ++ [(name, .file f)]) name =
      if isPluginName name then some (s.dir.inside name, f.bytes) else none := by
    rw [pluginFile?, lookup_concat hfree, if_pos rfl]
  refine ⟨pre.filterMap (pluginFile? s.dir held), post.filterMap (pluginFile? s.dir held), ?_, ?_⟩
  · rw [files_of_find hd, hnames, filterMap_append]
  · rw [files_of_find (find_put hd hfree _), hnames', filterMap_append, filterMap_cons, hnew,
      hsame pre fun m hm => hne m (mem_append_left _ hm),
      hsame post fun m hm => hne m (mem_append_right _ hm)]
    split <;> simp_all

theorem files_put_hidden (hd : t.find s.dir = .ok (.dir held)) (hfree : held.lookup name = none)
    (hname : isPluginName name = false) (f : File) :
    s.files (put (.file f) (Node.place s.dir ++ [name]) t) = s.files t := by
  obtain ⟨pre, post, hpre, hput⟩ := files_put hd hfree f
  rw [hput, hpre, hname, if_neg Bool.false_ne_true, append_nil]

/-! ### Listing -/

theorem list_congr (h : s.files t' = s.files t) : s.list t' = (s.list t).map fun x => (x.1, t') := by
  simp only [list, registry, loadInto, h]
  cases s.loadAll s.newRegistry (s.files t) <;> rfl

theorem list_of_loadAll (h : s.loadAll s.newRegistry (s.files t) = .ok r) :
    ∃ res, s.list t = .ok (res, t) ∧ res.descriptors = r.descriptors := by
  simp only [list, registry, loadInto, h]
  exact ⟨_, rfl, rfl⟩

theorem loadAll_of_list (h : s.list t = .ok (res, t')) :
    ∃ r, s.loadAll s.newRegistry (s.files t) = .ok r ∧ res.descriptors = r.descriptors := by
  simp only [list, registry, loadInto] at h
  cases hr : s.loadAll s.newRegistry (s.files t) with
  | error e =>
    rw [hr] at h
    cases h
  | ok r =>
    rw [hr] at h
    cases h
    exact ⟨r, rfl, rfl⟩

/-! ### What becomes of an installation -/

/-- The installation has got as far as putting a file into the store: there is such a file, it holds
    a plugin, and that goes together with those that are installed. -/
structure Admitted (s : PluginStore) (t : Node) (path : FilePath) (f : File) (p : Plugin) (r : Registry)
    (k : Contribution) : Prop where
  isFile : t.find path = .ok (.file f)
  suffix : path.suffix = ".py"
  loaded : s.loadAll s.newRegistry (s.files t) = .ok r
  plugin : s.load (path, f.bytes) = .ok p
  accepted : r.check p (some path.toText) = .ok k
  free : t.exists? (s.dir.inside path.name) = false

theorem error_of_loadAll {es : List Entry} {x : StoreFailure} (h : s.loadAll r es = .error x) :
    ∃ e, x.error = .register e := by
  induction es generalizing r with
  | nil => cases h
  | cons e es ih =>
    rw [loadAll] at h
    split at h
    · exact ih h
    · next e _ =>
      cases h
      exact ⟨e, rfl⟩

theorem place_cases (s : PluginStore) (t : Node) (name : String) (f : File) (d : PluginDescriptor) :
    (∃ res, s.place t name f d = .ok (res, t) ∧ res.success = false) ∨ (∃ e, s.place t name f d = .error e) ∨
    ∃ res t₁ t₂, t.exists? (s.dir.inside name) = false ∧ t.makeDirs s.dir = .ok t₁ ∧
      t₁.copy name f (s.dir.inside name) = .ok t₂ ∧
      s.place t name f d = .ok (res, t₂) ∧ res.success = true ∧ res.descriptors = [d] := by
  cases hfree : t.exists? (s.dir.inside name) with
  | true =>
    rw [place, if_pos hfree]
    exact .inl ⟨_, rfl, rfl⟩
  | false =>
    rw [place, hfree, if_neg Bool.false_ne_true]
    cases hmake : t.makeDirs s.dir with
    | error e => exact .inr (.inl ⟨e, rfl⟩)
    | ok t₁ =>
      simp only [bind, Except.bind]
      cases hcopy : t₁.copy name f (s.dir.inside name) with
      | error e => exact .inr (.inl ⟨e, rfl⟩)
      | ok t₂ => exact .inr (.inr ⟨_, t₁, t₂, trivial, rfl, hcopy, rfl, rfl, rfl⟩)

/-- An installation fails and changes nothing, ends without a result before anything is changed, or
    puts a file into the store, where the directory of the store may have to be made first. -/
theorem install_cases (s : PluginStore) (t : Node) (source : String) :
    (∃ res, s.install t source = .ok (res, t) ∧ res.success = false) ∨
    (∃ x, s.install t source = .error x ∧ ∀ e, x.error ≠ .file e) ∨
    (∃ e events, s.install t source = .error ⟨.file e, events⟩) ∨
    ∃ path f p r k res t₁ t₂, (FilePath.ofString source).expandHome? s.home = some path ∧
      s.Admitted t path f p r k ∧ t.makeDirs s.dir = .ok t₁ ∧ t₁.copy path.name f (s.dir.inside path.name) = .ok t₂ ∧
      s.install t source = .ok (res, t₂) ∧ res.success = true ∧ res.descriptors = [k.descriptor] := by
  unfold install
  split
  · exact .inr (.inl ⟨_, rfl, fun e he => by cases he⟩)
  · next path hpath =>
    split
    · next f hf =>
      split
      · exact .inl ⟨_, rfl, rfl⟩
      · next hsuffix =>
        have hsuffix : path.suffix = ".py" := by simpa using hsuffix
        cases hload : s.loadInto t s.newRegistry with
        | error x =>
          obtain ⟨e, he⟩ := error_of_loadAll hload
          exact .inr (.inl ⟨x, rfl, fun e' he' => by cases he.symm.trans he'⟩)
        | ok r =>
          simp only [bind, Except.bind]
          have hopen : r.frozen = false := (loadAll_keeps rfl hload).1
          cases hp : s.load (path, f.bytes) with
          | error x => exact .inl ⟨_, rfl, rfl⟩
          | ok p =>
            cases hc : r.check p (some path.toText) with
            | error x =>
              cases x with
              | faulty e =>
                simp only [register_of_faulty hopen hc, failing]
                exact .inr (.inl ⟨_, rfl, fun e he => by cases he⟩)
              | rejected problem =>
                simp only [register_of_rejected hopen hc, failing]
                split <;> exact .inl ⟨_, rfl, rfl⟩
            | ok k =>
              simp only [register_of_ok hopen hc, failing]
              rcases s.place_cases t path.name f k.descriptor with ⟨res, hplace, hres⟩ | ⟨e, hplace⟩ |
                ⟨res, t₁, t₂, hfree, hmake, hcopy, hplace, hres, hd⟩
              · simp only [hplace]
                exact .inl ⟨_, rfl, hres⟩
              · simp only [hplace]
                exact .inr (.inr (.inl ⟨e, _, rfl⟩))
              · simp only [hplace]
                exact .inr (.inr (.inr ⟨path, f, p, r, k, _, t₁, t₂, hpath, ⟨hf, hsuffix, hload, hp, hc, hfree⟩,
                  hmake, hcopy, rfl, hres, hd⟩))
    · exact .inl ⟨_, rfl, rfl⟩

/-! ### Installed plugins stay -/

theorem name_ne_up (h : path.suffix = ".py") : path.name ≠ ".." := by
  intro hname
  rw [FilePath.suffix, hname] at h
  exact absurd h (by decide)

theorem lookup_of_not_exists (hd : t.find s.dir = .ok (.dir held)) (hname : name ≠ "..")
    (h : t.exists? (s.dir.inside name) = false) : held.lookup name = none := by
  cases hk : held.lookup name with
  | none => rfl
  | some m =>
    rw [exists?, find_inside hd hname, hk] at h
    cases h

/-- What a file stands for does not depend on where it is. -/
theorem load_inside {bytes : List UInt8} (h : s.load (path, bytes) = .ok p)
    (d : FilePath) : s.load (d, bytes) = .ok p := by
  unfold load at h ⊢
  cases hl : s.loader bytes with
  | plugin p =>
    rw [hl] at h
    exact h
  | _ =>
    rw [hl] at h
    cases h

theorem Admitted.loadAll_put
    (h : s.Admitted t path f p r k) (hfiles : s.files t₁ = s.files t) (hd : t₁.find s.dir = .ok (.dir held))
    (hfree : held.lookup path.name = none) (hname : isPluginName path.name = true) : ∃ R, s.loadAll s.newRegistry
        (s.files (put (.file f) (Node.place s.dir ++ [path.name]) t₁)) = .ok R ∧
      Registry.Joins (k.foundAt (some (s.dir.inside path.name).toText)) r R := by
  obtain ⟨pre, post, hpre, hput⟩ := files_put hd hfree f
  rw [hput, if_pos hname, append_assoc, singleton_append]
  refine loadAll_insert rfl ?_ (load_inside h.plugin (s.dir.inside path.name)) h.accepted
  rw [← hpre, hfiles]
  exact h.loaded

theorem Admitted.put_of_copy (h : s.Admitted t path f p r k) (hdir : t.isDir s.dir = true ∨ ".." ∉ s.dir.parts)
    (hmake : t.makeDirs s.dir = .ok t₁) (hcopy : t₁.copy path.name f (s.dir.inside path.name) = .ok t₂) :
    ∃ held, t₁.find s.dir = .ok (.dir held) ∧ held.lookup path.name = none ∧ s.files t₁ = s.files t ∧
      t₂ = put (.file f) (Node.place s.dir ++ [path.name]) t₁ := by
  have hup := name_ne_up h.suffix
  obtain ⟨held, hd, hfree, hfiles⟩ : ∃ held, t₁.find s.dir = .ok (.dir held) ∧
      held.lookup path.name = none ∧ s.files t₁ = s.files t := by
    by_cases hthere : t.isDir s.dir = true
    · obtain ⟨held, hd⟩ := isDir_iff.mp hthere
      rw [makeDirs, tryDirs_of_isDir hthere] at hmake
      cases hmake
      exact ⟨held, hd, lookup_of_not_exists hd hup h.free, rfl⟩
    · have hnot : t.isDir s.dir = false := by simpa using hthere
      have hd := find_makeDirs hmake (hdir.resolve_left hthere) hnot
      refine ⟨[], hd, rfl, ?_⟩
      rw [files_of_find hd, files_of_not_isDir hnot, names]
      simp [entries]
  rw [copy_of_free hd hup hfree] at hcopy
  cases hcopy
  exact ⟨held, hd, hfree, hfiles, rfl⟩

theorem isDir_of_mem_descriptors (hres : s.list t = .ok (res, t))
    (hd : d ∈ res.descriptors) : t.isDir s.dir = true := by
  by_contra hdir
  obtain ⟨r, hr, hdesc⟩ := loadAll_of_list hres
  rw [files_of_not_isDir (by simpa using hdir)] at hr
  cases hr
  rw [hdesc] at hd
  cases hd

theorem Admitted.listed_put (h : s.Admitted t path f p r k) (hmake : t.makeDirs s.dir = .ok t₁)
    (hcopy : t₁.copy path.name f (s.dir.inside path.name) = .ok t₂)
    (hres : s.list t = .ok (res, t)) (hd : d ∈ res.descriptors) :
    ∃ res', s.list t₂ = .ok (res', t₂) ∧ d ∈ res'.descriptors := by
  obtain ⟨held, hheld, hfree, hfiles, rfl⟩ := h.put_of_copy (.inl (isDir_of_mem_descriptors hres hd)) hmake hcopy
  obtain ⟨r', hr', hdesc⟩ := loadAll_of_list hres
  cases h.loaded.symm.trans hr'
  cases hname : isPluginName path.name with
  | true =>
    obtain ⟨R, hR, hjoins⟩ := h.loadAll_put hfiles hheld hfree hname
    obtain ⟨res', hlist, hdesc'⟩ := list_of_loadAll hR
    exact ⟨res', hlist, hdesc' ▸ hjoins.kept.subset (hdesc ▸ hd)⟩
  | false =>
    refine ⟨res, ?_, hd⟩
    rw [list_congr ((files_put_hidden hheld hfree hname f).trans hfiles), hres]
    rfl

def Outcome.succeeded : Outcome → Bool
  | .ok (res, _) => res.success
  | .error _ => false

/-- Every plugin that a listing accepts before an installation is accepted after it, with the same
    description, whatever comes of the installation. One that does not succeed changes no file
    anywhere, and nothing at all where the store has its directory; the files that are installed stay
    the same also where it does not, unless its path leads through what such an installation makes and
    back up. -/
theorem installing_keeps_installed (s : PluginStore) (t : Node) (source : String) :
    (∀ res, s.list t = .ok (res, t) → ∀ d ∈ res.descriptors,
      ∃ res', s.list (s.afterInstall t source) = .ok (res', s.afterInstall t source) ∧
        d ∈ res'.descriptors) ∧
    (Outcome.succeeded (s.install t source) = false →
      Node.SameFiles t (s.afterInstall t source) ∧
      (t.isDir s.dir = true → s.afterInstall t source = t) ∧
      (".." ∉ s.dir.parts → s.files (s.afterInstall t source) = s.files t)) := by
  have unchanged (h : s.afterInstall t source = t) (res : PluginResult) (hres : s.list t = .ok (res, t))
      (d : PluginDescriptor) (hd : d ∈ res.descriptors) :
      ∃ res', s.list (s.afterInstall t source) = .ok (res', s.afterInstall t source) ∧
        d ∈ res'.descriptors := by
    rw [h]
    exact ⟨res, hres, hd⟩
  have untouched (h : s.afterInstall t source = t) :
      SameFiles t (s.afterInstall t source) ∧ (t.isDir s.dir = true → s.afterInstall t source = t) ∧
        (".." ∉ s.dir.parts → s.files (s.afterInstall t source) = s.files t) := by
    rw [h]
    exact ⟨.refl t, fun _ => rfl, fun _ => rfl⟩
  rcases s.install_cases t source with ⟨res, h, hfail⟩ | ⟨x, h, hx⟩ | ⟨e, events, h⟩ |
    ⟨path, f, p, r, k, res, t₁, t₂, -, hadmitted, hmake, hcopy, h, hsuccess, -⟩
  · have hafter : s.afterInstall t source = t := by rw [afterInstall, h]
    exact ⟨unchanged hafter, fun _ => untouched hafter⟩
  · have hafter : s.afterInstall t source = t := by
      rw [afterInstall, h]
      obtain ⟨error, events⟩ := x
      cases error with
      | file e => exact absurd rfl (hx e)
      | _ => rfl
    exact ⟨unchanged hafter, fun _ => untouched hafter⟩
  · have hafter : s.afterInstall t source = left (t.tryDirs s.dir) := by rw [afterInstall, h]
    have hkept (hdir : t.isDir s.dir = true) : s.afterInstall t source = t := by
      rw [hafter, tryDirs_of_isDir hdir]
      rfl
    have hsame : SameFiles t (s.afterInstall t source) := hafter ▸ sameFiles_tryDirs t s.dir
    refine ⟨fun res hres d hd => unchanged (hkept (isDir_of_mem_descriptors hres hd)) res hres d hd,
      fun _ => ⟨hsame, hkept, fun hup => ?_⟩⟩
    cases hdir : t.isDir s.dir with
    | true => rw [hkept hdir]
    | false => rw [files_of_sameFiles hsame hup hdir, files_of_not_isDir hdir]
  · have hafter : s.afterInstall t source = t₂ := by rw [afterInstall, h]
    refine ⟨fun res' hres' d hd => ?_, fun hfail => ?_⟩
    · rw [hafter]
      exact hadmitted.listed_put hmake hcopy hres' hd
    · rw [h] at hfail
      cases hfail.symm.trans hsuccess

/-- A store in which a plugin is installed, as it is loaded from a file with one byte; other files
    hold another one. -/
def sampleShelf : PluginStore where
  dir := ⟨"", ["plugins"]⟩
  loader bytes := .plugin (if bytes.length = 1 then samplePlugin "b" ["y-1"]
    else samplePlugin "a" ["x-1"])

variable (name)

def sampleShelfFiles : Node :=
  .dir [("plugins", .dir [("b.py", .file ⟨[1], false⟩)]), (name, .file ⟨[], false⟩)]

theorem files_sampleShelf : sampleShelf.files (sampleShelfFiles name) = [(⟨"", ["plugins", "b.py"]⟩, [1])] := by
  have hd : (sampleShelfFiles name).find sampleShelf.dir = .ok (.dir [("b.py", .file ⟨[1], false⟩)]) := rfl
  rw [files_of_find hd, names]
  simp only [entries, map_cons, map_nil, mergeSort_singleton]
  rfl

theorem loadAll_sampleShelf :
    ∃ r, sampleShelf.loadAll sampleShelf.newRegistry (sampleShelf.files (sampleShelfFiles name)) = .ok r ∧
      ∃ d ∈ r.descriptors, d.name = "b" := by
  rw [files_sampleShelf]
  exact ⟨_, rfl, _, .head _, rfl⟩

/-- The plugin `b` is still there when `a` is installed before it, and when there is no file to install
    nothing happens. -/
theorem installing_keeps_installed_sampleShelf :
    (∃ res d, sampleShelf.list (sampleShelf.afterInstall (sampleShelfFiles "a.py") "a.py") =
        .ok (res, sampleShelf.afterInstall (sampleShelfFiles "a.py") "a.py") ∧
      d ∈ res.descriptors ∧ d.name = "b") ∧
    Outcome.succeeded (sampleShelf.install (sampleShelfFiles "a.py") "c.py") = false ∧
    sampleShelf.files (sampleShelf.afterInstall (sampleShelfFiles "a.py") "c.py") =
      sampleShelf.files (sampleShelfFiles "a.py") := by
  obtain ⟨r, hr, d, hd, hname⟩ := loadAll_sampleShelf "a.py"
  obtain ⟨res, hlist, hdesc⟩ := list_of_loadAll hr
  have hkept := (installing_keeps_installed sampleShelf (sampleShelfFiles "a.py") "a.py").1
  have hfail := (installing_keeps_installed sampleShelf (sampleShelfFiles "a.py") "c.py").2 rfl
  obtain ⟨res', hlist', hd'⟩ := hkept res hlist d (hdesc ▸ hd)
  exact ⟨⟨res', d, hlist', hd', hname⟩, rfl, hfail.2.2 (by decide)⟩

end PluginStore

end ContractAudit

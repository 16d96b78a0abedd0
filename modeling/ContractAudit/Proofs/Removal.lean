import ContractAudit.Proofs.Installation

/-! # Removing what was installed -/

namespace ContractAudit
open List FilePath Registry

/-- A descriptor says of a plugin what that says of itself. -/
structure Plugin.Describes (p : Plugin) (d : PluginDescriptor) : Prop where
  name : d.name = p.displayName
  version : d.version = (p.version.map Value.plain).getD "0.0.0"
  capabilities : p.declared = .ok (d.capabilities.map .str)
  ruleIds : d.ruleIds = p.offeredRules.map (·.id)

theorem Plugin.declared_of_checkCapabilities {declared : List Value} {capabilities : List String}
    (h : Plugin.checkCapabilities declared = .ok capabilities) : declared = capabilities.map .str := by
  have hstr : Forall₂ (fun c s => c = .str s) declared capabilities := by
    refine (checkCapabilities_eq_ok h).imp fun c s hc => ?_
    unfold capability? at hc
    split at hc
    · split at hc
      · cases hc
        rfl
      · cases hc
    · cases hc
  rwa [← forall₂_eq_eq_eq, forall₂_map_right_iff]

theorem Registry.describes_of_check {r : Registry} {p : Plugin} {path : Option String} {k : Contribution}
    (h : r.check p path = .ok k) : p.Describes k.descriptor := by
  have admits := admits_of_check h
  have hrest : k.descriptor.version = (p.version.map Value.plain).getD "0.0.0" ∧
      p.declared = .ok (k.descriptor.capabilities.map .str) ∧
      k.descriptor.ruleIds = k.rules.map (·.id) := by
    unfold check at h
    split at h
    · cases h
    · split at h
      · cases h
      · split at h
        · cases h
        · split at h <;> cases h
        · split at h
          · cases h
          · next declared hp =>
            obtain ⟨capabilities, hcaps, h⟩ := bind_eq_ok.mp h
            obtain ⟨rules, -, h⟩ := bind_eq_ok.mp h
            obtain ⟨strategies, -, h⟩ := bind_eq_ok.mp h
            split at h
            · cases h
            · cases h
              exact ⟨rfl, hp.trans (congrArg Except.ok (Plugin.declared_of_checkCapabilities hcaps)), rfl⟩
  exact ⟨admits.name, hrest.1, hrest.2.1, hrest.2.2.trans (by rw [admits.rules])⟩

namespace PluginStore
variable {s : PluginStore} {t t' : Node} {name : String}
variable {path : FilePath} {e : Entry} {p : Plugin} {k : Contribution} {events : List AuditEvent} {x : Trial}
variable {source home : String} {held : List (String × Node)} {f : File} {r : Registry}

theorem isPluginName_of_suffix (h : path.suffix = ".py")
    (hname : path.name.toList.head? ≠ some '_') : isPluginName path.name = true := by
  obtain ⟨stem, -, hstem⟩ := name_of_suffix h
  have hsuffix : ".py".toList.isSuffixOf path.name.toList = true := isSuffixOf_iff_suffix.mpr ⟨stem, hstem.symm⟩
  rw [isPluginName, hsuffix, Bool.true_and]
  simpa using hname

theorem slash_not_mem_of_expandHome? (h : (ofString source).expandHome? (ofString home) = some path) :
    ∀ c ∈ path.parts, '/' ∉ c.toList := by
  unfold expandHome? at h
  split at h
  · cases h
    exact fun c hc => slash_not_mem_of_mem_parts hc
  · next first rest hrest =>
    split at h
    · cases h
      exact fun c hc => slash_not_mem_of_mem_parts hc
    · split at h
      · cases h
        intro c hc
        rcases mem_append.mp hc with hc | hc
        · exact slash_not_mem_of_mem_parts hc
        · exact slash_not_mem_of_mem_parts (hrest ▸ mem_cons_of_mem first hc)
      · cases h

theorem ofString_name (hhome : s.home = ofString home)
    (hpath : (ofString source).expandHome? s.home = some path) (hsuffix : path.suffix = ".py") :
    ofString path.name = ⟨"", [path.name]⟩ := by
  obtain ⟨stem, hne, hname⟩ := name_of_suffix hsuffix
  have hempty : path.name ≠ "" := by
    intro h
    rw [h] at hname
    simp at hname
  have hdot : path.name ≠ "." := by
    intro h
    have hlen := congrArg List.length hname
    rw [h, length_append] at hlen
    have hpos := length_pos_iff.mpr hne
    have hpy : ".py".toList.length = 3 := rfl
    have hone : ".".toList.length = 1 := rfl
    omega
  have hmem : path.name ∈ path.parts := by
    unfold name at hempty ⊢
    cases hlast : path.parts.getLast? with
    | none =>
      rw [hlast] at hempty
      exact absurd rfl hempty
    | some c => exact mem_of_getLast? hlast
  rw [hhome] at hpath
  exact ofString_component (slash_not_mem_of_expandHome? hpath _ hmem) hempty hdot

theorem remove_of_files {pre post : List Entry}
    (hname : ofString name = ⟨"", [name]⟩) (hfiles : s.files t = pre ++ e :: post) (he : e.1.name = name)
    (hpre : ∀ x ∈ pre, x.1.name ≠ name ∧ x.1.stem ≠ e.1.stem) (hload : s.load e = .ok p)
    (hcheck : s.newRegistry.check p (some e.1.toText) = .ok k) :
    ∃ res, s.remove t name = .ok (res, t.remove e.1) ∧ res.success = true := by
  have hlast : (⟨"", [name]⟩ : FilePath).name = name := rfl
  have hstem : (⟨"", [name]⟩ : FilePath).stem = e.1.stem := by
    rw [stem, stem, he, hlast]
  have hfind : (s.files t).find? (fun x => x.1.name == name || x.1.stem == e.1.stem) = some e := by
    rw [hfiles, find?_append, find?_eq_none.mpr, find?_cons_of_pos (by simp [he]), Option.none_or]
    intro x hx
    simpa using hpre x hx
  have hprobe : s.probe e = .ok ⟨e, some k.descriptor, (s.newRegistry.add k).events⟩ := by
    rw [probe, hload]
    simp only [register_of_ok rfl hcheck]
    rfl
  simp only [remove, find, hname, hlast, hstem, hfind, hprobe, failing]
  exact ⟨_, rfl, rfl⟩

theorem remove_put (hd : t.find s.dir = .ok (.dir held))
    (hfree : held.lookup name = none) (hname : name ≠ "..") (f : File) :
    (Node.put (.file f) (Node.place s.dir ++ [name]) t).remove (s.dir.inside name) = t := by
  rw [Node.remove, Node.place_inside s.dir hname]
  exact (Node.vacant_place hd hfree).erase_put (.file f)

theorem Admitted.accepted_alone (h : s.Admitted t path f p r k) (found : Option String) :
    s.newRegistry.check p found = .ok (k.foundAt found) := by
  have hw := (loadAll_keeps rfl h.loaded).2
  exact check_of_fits h.accepted hw.host.symm (hw.fits (fits_of_check h.accepted)) found

theorem Admitted.apart (h : s.Admitted t path f p r k) (hheld : t'.find s.dir = .ok (.dir held))
    (hfree : held.lookup path.name = none) (hother : path.name = ".py.py" → ∀ e ∈ s.files t', e.1.name ≠ ".py") :
    ∀ e ∈ s.files t', e.1.name ≠ path.name ∧ e.1.stem ≠ (s.dir.inside path.name).stem := by
  intro e he
  obtain ⟨held', m, g, hheld', hm, hmname, rfl⟩ := mem_files he
  cases hheld.symm.trans hheld'
  have hinside : (s.dir.inside path.name).stem = path.stem := by
    rw [stem, stem, name_inside]
  have hsuffix : ".py".toList <:+ m.toList := isSuffixOf_iff_suffix.mp (Bool.and_eq_true_iff.mp hmname).1
  have hne : m ≠ path.name := by
    rintro rfl
    cases hfree.symm.trans hm
  refine ⟨by rwa [name_inside], fun hstem => ?_⟩
  rcases name_eq_of_stem h.suffix (q := s.dir.inside m)
    (by rwa [name_inside]) (hstem.trans hinside) with hsame | ⟨hpy, hpypy⟩
  · exact hne ((name_inside _ _).symm.trans hsame)
  · exact hother hpypy _ he hpy

/-- The plugin of an installation that succeeds is listed, described as it describes itself, and
    removing the file by its name succeeds and brings back the listing from before. Excepted are a
    name that begins with `_`, the name `.py.py` beside `.py`, and a directory whose path leads back
    up through what was not there. -/
theorem install_list_remove_agree (home : String) (path : FilePath) {source : String} {res : PluginResult}
    (hhome : s.home = FilePath.ofString home)
    (hpath : (FilePath.ofString source).expandHome? s.home = some path)
    (hdir : t.isDir s.dir = true ∨ ".." ∉ s.dir.parts)
    (hinstall : s.install t source = .ok (res, t')) (hres : res.success = true)
    (hname : path.name.toList.head? ≠ some '_') :
    ∃ f p d, t.find path = .ok (.file f) ∧ s.load (path, f.bytes) = .ok p ∧ p.Describes d ∧
      res.descriptors = [d] ∧
      (∃ listed, s.list t' = .ok (listed, t') ∧
        { d with path := some (s.dir.inside path.name).toText } ∈ listed.descriptors) ∧
      ((path.name = ".py.py" → ∀ e ∈ s.files t, e.1.name ≠ ".py") →
        ∃ removed t'', s.remove t' path.name = .ok (removed, t'') ∧ removed.success = true ∧
          s.list t'' = (s.list t).map fun x => (x.1, t'')) := by
  rcases s.install_cases t source with ⟨res', h, hfail⟩ | ⟨x, h, -⟩ | ⟨e, events, h⟩ |
    ⟨path', f, p, r, k, res', t₁, t₂, hpath', hadmitted, hmake, hcopy, h, -, hd⟩
  · cases h.symm.trans hinstall
    cases hfail.symm.trans hres
  · cases h.symm.trans hinstall
  · cases h.symm.trans hinstall
  · cases hpath.symm.trans hpath'
    cases h.symm.trans hinstall
    have hplugin := isPluginName_of_suffix hadmitted.suffix hname
    obtain ⟨held, hheld, hfree, hfiles, rfl⟩ := hadmitted.put_of_copy hdir hmake hcopy
    obtain ⟨R, hR, hjoins⟩ := hadmitted.loadAll_put hfiles hheld hfree hplugin
    obtain ⟨listed, hlist, hdesc⟩ := list_of_loadAll hR
    refine ⟨f, p, k.descriptor, hadmitted.isFile, hadmitted.plugin,
      Registry.describes_of_check hadmitted.accepted, hd, ⟨listed, hlist, hdesc ▸ hjoins.joined⟩,
      fun hother => ?_⟩
    obtain ⟨pre, post, hpre, hput⟩ := files_put hheld hfree f
    rw [if_pos hplugin, List.append_assoc, List.singleton_append] at hput
    have hothers := hadmitted.apart hheld hfree (hfiles ▸ hother)
    obtain ⟨removed, hremove, hsuccess⟩ := remove_of_files (ofString_name hhome hpath hadmitted.suffix) hput
      (name_inside _ _) (fun e he => hothers e (hpre ▸ List.mem_append_left _ he))
      (load_inside hadmitted.plugin _) (hadmitted.accepted_alone _)
    rw [remove_put hheld hfree (name_ne_up hadmitted.suffix)] at hremove
    exact ⟨removed, t₁, hremove, hsuccess, list_congr hfiles⟩

theorem succeeded_iff {o : Outcome} : Outcome.succeeded o = true ↔ ∃ res t, o = .ok (res, t) ∧ res.success = true := by
  cases o with
  | error x => simp [Outcome.succeeded]
  | ok x => simp [Outcome.succeeded, Prod.ext_iff]

/-- The plugin `a` comes and goes beside `b`. -/
theorem install_list_remove_agree_sampleShelf :
    ∃ res t' listed removed t'',
      sampleShelf.install (sampleShelfFiles "a.py") "a.py" = .ok (res, t') ∧ res.success = true ∧
      sampleShelf.list t' = .ok (listed, t') ∧ (∃ d ∈ listed.descriptors, d.name = "a") ∧
      sampleShelf.remove t' "a.py" = .ok (removed, t'') ∧ removed.success = true ∧
      sampleShelf.list t'' = (sampleShelf.list (sampleShelfFiles "a.py")).map fun x => (x.1, t'') := by
  have hinstalled :
      Outcome.succeeded (sampleShelf.install (sampleShelfFiles "a.py") "a.py") = true := by
    decide +kernel
  obtain ⟨res, t', hinstall, hres⟩ := succeeded_iff.mp hinstalled
  obtain ⟨f, p, d, hfind, hload, hdescribes, -, ⟨listed, hlist, hd⟩, hremove⟩ :=
    install_list_remove_agree "" ⟨"", ["a.py"]⟩ rfl rfl (.inl rfl) hinstall hres (by decide)
  obtain ⟨removed, t'', hremoved, hsuccess, hback⟩ := hremove (by decide)
  cases hfind
  cases hload
  exact ⟨res, t', listed, removed, t'', hinstall, hres, hlist, ⟨_, hd, hdescribes.name⟩, hremoved,
    hsuccess, hback⟩

/-- A plugin whose file name begins with `_` is installed, but it is not listed and cannot be removed
    by the name of its file. -/
theorem underscored_plugin_installed_unlisted :
    (sampleShelf.install (.dir [("_a.py", .file ⟨[], false⟩)]) "_a.py").toOption.map
        (fun x => (x.1.success, x.1.descriptors.map (·.name))) = some (true, ["a"]) ∧
    ((sampleShelf.install (.dir [("_a.py", .file ⟨[], false⟩)]) "_a.py").toOption.bind fun x =>
        (sampleShelf.list x.2).toOption.map fun y => y.1.descriptors.map (·.name)) = some [] ∧
    ((sampleShelf.install (.dir [("_a.py", .file ⟨[], false⟩)]) "_a.py").toOption.bind fun x =>
        (sampleShelf.remove x.2 "_a.py").toOption.map (·.1.success)) = some false := by
  decide +kernel

/-! ### Removing by a name -/

/-- The file has the name: the last component of the name is its own name or its stem, or its plugin goes
    by the name. -/
def GoesBy (s : PluginStore) (name : String) (e : Entry) : Prop :=
  e.1.name = (ofString name).name ∨ e.1.stem = (ofString name).name ∨
    ∃ p, s.load e = .ok p ∧ p.displayName = name

/-- The file is taken for one of the name, which has the same stem and another suffix. -/
def MistakenFor (name : String) (e : Entry) : Prop :=
  e.1.stem = (ofString name).stem ∧ e.1.name ≠ (ofString name).name ∧
    e.1.stem ≠ (ofString name).name

theorem failing_eq_ok {ε α : Type} {reason : ε → StoreError} {o : Except ε α} {a : α} :
    failing reason events o = .ok a ↔ o = .ok a := by
  cases o <;> simp [failing]

theorem probe_eq_ok (h : s.probe e = .ok x) :
    x.entry = e ∧ ∀ d ∈ x.descriptor, ∃ p, s.load e = .ok p ∧ p.displayName = d.name := by
  unfold probe at h
  split at h
  · cases h
    exact ⟨rfl, fun d hd => by cases hd⟩
  · next p hp =>
    obtain ⟨r, hr, h⟩ := bind_eq_ok.mp h
    cases h
    refine ⟨rfl, fun d hd => ⟨p, hp, ?_⟩⟩
    unfold register at hr
    split at hr
    · cases hr
    · split at hr
      · next k hk =>
        cases hr
        cases hd
        exact (describes_of_check hk).name.symm
      · cases hr
        cases hd
      · cases hr

theorem goesBy_of_findByName {told : List AuditEvent} {es : List Entry}
    (h : s.findByName name told es = .ok (some x, events)) : x.entry ∈ es ∧ s.GoesBy name x.entry := by
  induction es generalizing told with
  | nil => cases h
  | cons e es ih =>
    obtain ⟨y, hy, hrest⟩ := bind_eq_ok.mp h
    obtain ⟨rfl, hname⟩ := probe_eq_ok (failing_eq_ok.mp hy)
    split at hrest
    · next hd =>
      cases hrest
      obtain ⟨d, hd, heq⟩ := (Option.any_eq_true ..).mp hd
      obtain ⟨p, hp, hpname⟩ := hname d hd
      exact ⟨.head _, .inr (.inr ⟨p, hp, hpname.trans (beq_iff_eq.mp heq)⟩)⟩
    · obtain ⟨hmem, hgoes⟩ := ih hrest
      exact ⟨.tail _ hmem, hgoes⟩

/-- What is found is a file of the store that has the name, or is taken for one. -/
theorem find_eq_some (h : s.find t name = .ok (some x, events)) :
    x.entry ∈ s.files t ∧ (s.GoesBy name x.entry ∨ MistakenFor name x.entry) := by
  simp only [find, stem_ofString_name] at h
  split at h
  · next e he =>
    obtain ⟨y, hy, h⟩ := bind_eq_ok.mp h
    cases h
    obtain ⟨rfl, -⟩ := probe_eq_ok (failing_eq_ok.mp hy)
    refine ⟨mem_of_find?_eq_some he, ?_⟩
    have hmatch := find?_some he
    rw [Bool.or_eq_true, beq_iff_eq, beq_iff_eq] at hmatch
    by_cases hname : x.entry.1.name = (ofString name).name
    · exact .inl (.inl hname)
    · by_cases hstem : x.entry.1.stem = (ofString name).name
      · exact .inl (.inr (.inl hstem))
      · exact .inr ⟨hmatch.resolve_left hname, hname, hstem⟩
  · obtain ⟨hmem, hgoes⟩ := goesBy_of_findByName h
    exact ⟨hmem, .inl hgoes⟩

theorem find_eq_none (h : s.find t name = .ok (none, events))
    (he : e ∈ s.files t) : e.1.name ≠ (ofString name).name ∧ e.1.stem ≠ (ofString name).stem := by
  simp only [find, stem_ofString_name] at h
  split at h
  · obtain ⟨y, -, h⟩ := bind_eq_ok.mp h
    cases h
  · next hnone =>
    have hno := find?_eq_none.mp hnone e he
    rwa [Bool.or_eq_true, beq_iff_eq, beq_iff_eq, not_or] at hno

theorem losesFile_remove (he : e ∈ s.files t) : t.LosesFile (Node.place e.1) (t.remove e.1) := by
  obtain ⟨held, m, f, hd, hm, hname, rfl⟩ := mem_files he
  have hup : m ≠ ".." := by
    rintro rfl
    exact absurd hname (by decide)
  have hreach : t.reach? (Node.place s.dir ++ [m]) = some (.file f) := by
    rw [Node.reach?_append, Node.reach?_place hd]
    simp [Node.reach?, Node.entries, hm]
  rw [Node.remove, Node.place_inside s.dir hup]
  exact Node.losesFile_erase hreach

theorem not_mistakenFor (he : e ∈ s.files t) (h : (ofString name).suffix = "" ∨
      (ofString name).suffix = ".py" ∧ (ofString name).name ≠ ".py.py") : ¬ MistakenFor name e := by
  rintro ⟨hstem, hname, hne⟩
  rcases h with hempty | ⟨hpy, hother⟩
  · exact hne (hstem.trans (stem_of_suffix_eq_empty hempty))
  · obtain ⟨held, m, f, -, -, hm, rfl⟩ := mem_files he
    have hsuffix : ".py".toList <:+ (s.dir.inside m).name.toList := by
      rw [name_inside]
      exact isSuffixOf_iff_suffix.mp (Bool.and_eq_true_iff.mp hm).1
    rcases name_eq_of_stem hpy hsuffix hstem with hsame | ⟨-, hsame⟩
    · exact hname hsame
    · exact hother hsame

/-- Removing by a name takes away one file and no other, and that file has the name or is taken for one
    that has; where there is none, nothing is taken away. A file is taken for another only by a name with
    a suffix of its own. -/
theorem removal_takes_named (s : PluginStore) (t : Node) (name : String) :
    (∀ res t', s.remove t name = .ok (res, t') → res.success = true →
      ∃ e ∈ s.files t, (s.GoesBy name e ∨ MistakenFor name e) ∧ t.LosesFile (Node.place e.1) t') ∧
    (∀ res t', s.remove t name = .ok (res, t') → res.success = false → t' = t ∧
      ∀ e ∈ s.files t, e.1.name ≠ (FilePath.ofString name).name ∧ e.1.stem ≠ (FilePath.ofString name).stem) ∧
    ((∀ e ∈ s.files t, ¬ s.GoesBy name e ∧ ¬ MistakenFor name e) →
      Outcome.succeeded (s.remove t name) = false) ∧
    ((FilePath.ofString name).suffix = "" ∨
        (FilePath.ofString name).suffix = ".py" ∧ (FilePath.ofString name).name ≠ ".py.py" →
      ∀ e ∈ s.files t, ¬ MistakenFor name e) := by
  have hcases (res : PluginResult) (t' : Node) (h : s.remove t name = .ok (res, t')) :
      (res.success = false ∧ t' = t ∧ ∃ events, s.find t name = .ok (none, events)) ∨
      (res.success = true ∧ ∃ x events, s.find t name = .ok (some x, events) ∧ t' = t.remove x.entry.1) := by
    obtain ⟨⟨found, events⟩, hfind, h⟩ := bind_eq_ok.mp h
    cases found with
    | none =>
      cases h
      exact .inl ⟨rfl, rfl, events, hfind⟩
    | some x =>
      cases h
      exact .inr ⟨rfl, x, events, hfind, rfl⟩
  refine ⟨fun res t' h hres => ?_, fun res t' h hres => ?_, fun hnone => ?_, fun hplain e he =>
    not_mistakenFor he hplain⟩
  · rcases hcases res t' h with ⟨hfail, -⟩ | ⟨-, x, events, hfind, rfl⟩
    · cases hfail.symm.trans hres
    · obtain ⟨hmem, hgoes⟩ := find_eq_some hfind
      exact ⟨x.entry, hmem, hgoes, losesFile_remove hmem⟩
  · rcases hcases res t' h with ⟨-, rfl, events, hfind⟩ | ⟨hsuccess, -⟩
    · exact ⟨rfl, fun e he => find_eq_none hfind he⟩
    · cases hsuccess.symm.trans hres
  · refine Bool.eq_false_iff.mpr fun hsucceeded => ?_
    obtain ⟨res, t', h, hres⟩ := succeeded_iff.mp hsucceeded
    rcases hcases res t' h with ⟨hfail, -⟩ | ⟨-, x, events, hfind, -⟩
    · cases hfail.symm.trans hres
    · obtain ⟨hmem, hgoes⟩ := find_eq_some hfind
      exact hgoes.elim (hnone _ hmem).1 (hnone _ hmem).2

/-- The plugin `b` is removed by its name and nothing is by that of another. -/
theorem removal_takes_named_sampleShelf :
    (∃ res t', sampleShelf.remove (sampleShelfFiles "a.py") "b" = .ok (res, t') ∧ res.success = true ∧
      (sampleShelfFiles "a.py").LosesFile ["plugins", "b.py"] t') ∧
    Outcome.succeeded (sampleShelf.remove (sampleShelfFiles "a.py") "c.py") = false := by
  have hfiles := files_sampleShelf "a.py"
  have hremoved : Outcome.succeeded (sampleShelf.remove (sampleShelfFiles "a.py") "b") = true := by
    decide +kernel
  obtain ⟨res, t', hremove, hres⟩ := succeeded_iff.mp hremoved
  obtain ⟨e, he, -, hloses⟩ := (removal_takes_named sampleShelf (sampleShelfFiles "a.py") "b").1 res t' hremove hres
  refine ⟨⟨res, t', hremove, hres, ?_⟩, ?_⟩
  · rw [hfiles] at he
    obtain rfl := List.mem_singleton.mp he
    exact hloses
  · refine (removal_takes_named sampleShelf (sampleShelfFiles "a.py") "c.py").2.2.1 fun e he => ?_
    rw [hfiles] at he
    obtain rfl := List.mem_singleton.mp he
    refine ⟨?_, fun hmistaken => absurd hmistaken.1 (by decide)⟩
    rintro (h | h | ⟨p, hp, hname⟩)
    · exact absurd h (by decide)
    · exact absurd h (by decide)
    · cases hp
      exact absurd hname (by decide)

/-- The file `b.py` is removed by a name with another suffix, which is neither its own nor its stem nor
    that of its plugin. -/
theorem removed_by_another_suffix :
    Outcome.succeeded (sampleShelf.remove (sampleShelfFiles "a.py") "b.txt") = true ∧
    ∀ e ∈ sampleShelf.files (sampleShelfFiles "a.py"), ¬ sampleShelf.GoesBy "b.txt" e := by
  refine ⟨by decide +kernel, fun e he => ?_⟩
  rw [files_sampleShelf] at he
  obtain rfl := List.mem_singleton.mp he
  rintro (h | h | ⟨p, hp, hname⟩)
  · exact absurd h (by decide)
  · exact absurd h (by decide)
  · cases hp
    exact absurd hname (by decide)

end PluginStore

end ContractAudit

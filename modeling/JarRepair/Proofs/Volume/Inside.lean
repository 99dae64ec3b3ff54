import JarRepair.Proofs.Volume.Enclosure

/-! # What is written inside a directory

Inside a staging directory a path stands for its names: there are no links and no `..`. Creating a
directory there makes directories of all names on the way or changes nothing, and a file is put into
a directory unless something else has its name. -/

namespace JarRepair.Volume

variable {u v w : Volume} {dir loc l : Location} {rel : List Bytes} {name : Bytes} {z p : Path}

/-! ## Paths along ordinary names -/

/-- The path goes on from `z` along ordinary names, and nothing about it is too long. -/
structure Path.Along (z p : Path) (rel : List Bytes) : Prop where
  zero : (0 : UInt8) ∉ p
  filename : p.hasFilename = true
  absolute : p.isAbsolute = z.isAbsolute
  names : Path.names p = Path.names z ++ rel
  ordinary : ∀ name ∈ rel, Path.isDots name = false
  path_le : p.length ≤ maxPath
  name_le : ∀ name ∈ rel, name.length ≤ maxName

namespace Path.Along

theorem filename_eq (hp : Path.Along z p (rel ++ [name])) : p.filename = name := by
  have hnames := hp.names
  rw [Path.names_eq_parent_append hp.filename, ← List.append_assoc] at hnames
  exact List.singleton_inj.mp (List.append_inj' hnames rfl).2

theorem named (hp : Path.Along z p (rel ++ [name])) : p.Named :=
  ⟨hp.zero, hp.filename, hp.filename_eq ▸ hp.ordinary name (by simp)⟩

theorem fits (hp : Path.Along z p (rel ++ [name])) : p.Fits :=
  ⟨hp.path_le, hp.filename_eq ▸ hp.name_le name (by simp)⟩

theorem names_parent (hp : Path.Along z p (rel ++ [name])) :
    Path.names p.parent = Path.names z ++ rel := by
  have hnames := hp.names
  rw [Path.names_eq_parent_append hp.filename, ← List.append_assoc] at hnames
  exact (List.append_inj' hnames rfl).1

theorem parent (hz : Path.names z ≠ []) (hp : Path.Along z p (rel ++ [name])) :
    Path.Along z p.parent rel where
  zero := fun hzero => hp.zero (( Path.parent_prefix hp.filename).subset hzero)
  filename := by
    refine (Path.hasFilename_parent_or hp.filename).resolve_right fun htrim => ?_
    have hnames := hp.names_parent
    rw [← Path.names_trimSlashes, htrim] at hnames
    exact hz (List.append_eq_nil_iff.mp hnames.symm).1
  absolute := (Path.isAbsolute_parent hp.filename).trans hp.absolute
  names := hp.names_parent
  ordinary := fun name' hname' => hp.ordinary name' (List.mem_append_left [name] hname')
  path_le := ( Path.parent_prefix hp.filename).length_le.trans hp.path_le
  name_le := fun name' hname' => hp.name_le name' (List.mem_append_left [name] hname')

/-- Where nothing comes after `z`, the path has its filename. -/
theorem named_of (hz : z.Named) (hp : Path.Along z p rel) : p.Named := by
  rcases List.eq_nil_or_concat rel with rfl | ⟨front, name, rfl⟩
  · have hnames := hp.names
    rw [List.append_nil, Path.names_eq_parent_append hp.filename,
      Path.names_eq_parent_append hz.filename]
      at hnames
    have hfilename := List.singleton_inj.mp (List.append_inj' hnames rfl).2
    exact ⟨hp.zero, hp.filename, hfilename ▸ hz.ordinary⟩
  · rw [List.concat_eq_append] at hp
    exact hp.named

theorem way (hp : Path.Along z p rel) : p.Way := ⟨hp.zero, .inl hp.filename⟩

theorem start_eq (hp : Path.Along z p rel) : v.start p = v.start z := by
  rw [start, start, hp.absolute]

end Path.Along

/-! ## Ways inside -/

namespace Staged

theorem leadsTo_inside (h : Staged z u v dir) {more : List Bytes} {d : Location} (hz : z.Named)
    (hfits : z.Fits) (hmore : ∀ name ∈ more, Path.isDots name = false)
    (hd : v.LeadsTo (v.start z) (Path.names z ++ more) d) :
    d = dir ++ [z.filename] ++ more ∧ v.node? (dir ++ [z.filename] ++ more) = some .directory := by
  have hleads := h.leadsTo hz hfits
  by_cases hnil : more = []
  · subst hnil
    rw [List.append_nil] at hd ⊢
    exact ⟨hd.unique hleads, h.directory⟩
  · obtain ⟨links, hwalk⟩ := hleads.exists_walk
    rw [leadsTo_iff, hwalk true _ hnil] at hd
    obtain ⟨r, hstep, hr⟩ := exists_advance_ordinary v true (dir ++ [z.filename]) hmore
      fun rest target _ _ => by
        rw [← List.append_cons]
        exact h.linkFree rest target
    rw [walk_of_done hstep] at hd
    exact (hr _ _ hd).resolve_left hnil

/-- The first name that is missing on the way is inside. -/
theorem exists_missing (h : Staged z u v dir) {lead ahead : List Bytes} {d : Location}
    (hz : z.Named) (hfits : z.Fits) (hp : Path.Along z p rel)
    (hlacks : v.Lacks p lead d name ahead) :
    ∃ more, rel = more ++ name :: ahead ∧ d = dir ++ [z.filename] ++ more ∧
      v.node? (dir ++ [z.filename] ++ more) = some .directory := by
  have hd := hlacks.leadsTo
  have hnames := hlacks.names
  rw [hp.start_eq] at hd
  rw [hp.names] at hnames
  rcases List.append_eq_append_iff.mp hnames with ⟨more, rfl, hrel⟩ | ⟨more, hnames, hrel⟩
  · exact ⟨more, hrel, h.leadsTo_inside hz hfits
      (fun name' hname' => hp.ordinary name' (hrel ▸ List.mem_append_left _ hname')) hd⟩
  · rcases more with _ | ⟨first, more⟩
    · rw [List.append_nil] at hnames
      subst hnames
      rw [List.nil_append] at hrel
      refine ⟨[], hrel.symm, h.leadsTo_inside hz hfits (by simp) ?_⟩
      rwa [List.append_nil]
    · -- the names of the staging directory cannot be missing
      obtain ⟨rfl, -⟩ := List.cons.inj hrel
      exact absurd (hnames ▸ h.leadsTo hz hfits) (hd.not_through hlacks.ordinary hlacks.vacant)

theorem grounded (h : Staged z u v dir) (hz : z.Named) (hfits : z.Fits)
    (htree : v.IsTreeAt (dir ++ [z.filename])) (hp : Path.Along z p rel) : v.Grounded p := by
  intro lead d name ahead hlacks more
  have hnode := hlacks.vacant
  obtain ⟨front, -, rfl, -⟩ := h.exists_missing hz hfits hp hlacks
  rw [Option.eq_none_iff_forall_ne_some]
  intro n hn
  rw [List.append_assoc _ front] at hnode hn
  by_cases hnil : more = []
  · rw [hnil, hnode] at hn
    simp at hn
  · rw [List.append_cons front] at hn
    rw [htree.directory hnil hn] at hnode
    simp at hnode

theorem straight (h : Staged z u v dir) (hz : z.Named) (hfits : z.Fits) (hp : Path.Along z p rel) :
    v.Straight p := by
  intro lead d name ahead hlacks name' hname'
  obtain ⟨front, rfl, -⟩ := h.exists_missing hz hfits hp hlacks
  exact hp.ordinary name' (List.mem_append_right front (List.mem_cons_of_mem name hname'))

/-! ## Creating inside -/

/-- What has been created on the way is a directory, and nothing else inside is new. -/
theorem node?_created (htree : v.IsTreeAt (dir ++ [z.filename])) {lead front ahead : List Bytes}
    (hcreated : Created p v w lead (dir ++ [z.filename] ++ front) name ahead ahead)
    (hfront : v.node? (dir ++ [z.filename] ++ front) = some .directory) (more : List Bytes) :
    w.node? (dir ++ [z.filename] ++ more) = if more <+: front ++ name :: ahead then some .directory
      else v.node? (dir ++ [z.filename] ++ more) := by
  by_cases hmore : front ++ [name] <+: more
  · obtain ⟨rest, rfl⟩ := hmore
    have hassoc : dir ++ [z.filename] ++ (front ++ [name] ++ rest) =
        dir ++ [z.filename] ++ front ++ name :: rest := by simp
    rw [hassoc, hcreated.node?_eq, hcreated.fresh]
    exact if_congr (by simp [List.prefix_append_right_inj]) rfl rfl
  · rw [hcreated.node?_of_not]
    · split
      · rename_i hprefix
        have hup : front ++ [name] <+: front ++ name :: ahead := ⟨ahead, by simp⟩
        refine htree.directory_of_prefix hfront ?_
        rcases List.prefix_concat_iff.mp
          ((List.prefix_or_prefix_of_prefix hprefix hup).resolve_right hmore) with rfl | hfront
        · exact absurd (List.prefix_refl _) hmore
        · exact hfront
      · rfl
    · rw [List.append_assoc, List.prefix_append_right_inj]
      exact hmore

/-- A directory is created with all those it lacks, or nothing is. -/
theorem makeDirectories_cases (h : Staged z u v dir) (hz : z.Named) (hfits : z.Fits)
    (htree : v.IsTreeAt (dir ++ [z.filename])) (hp : Path.Along z p rel) :
    (∃ e, v.makeDirectories p = (.error e, v)) ∨
      ∃ w, v.makeDirectories p = (.ok (), w) ∧ Staged z u w dir ∧ Within (fun _ => True) v w ∧
        ∀ more, w.node? (dir ++ [z.filename] ++ more) =
          if more <+: rel then some .directory else v.node? (dir ++ [z.filename] ++ more) := by
  have hcases :=
    Volume.makeDirectories_cases (h.grounded hz hfits htree hp) (h.straight hz hfits hp) hp.way
  rcases hmake : v.makeDirectories p with ⟨e | ⟨⟩, w⟩ <;> rw [hmake] at hcases <;>
    dsimp only at hcases
  · refine .inl ⟨e, ?_⟩
    rcases hcases with ⟨rfl, -⟩ | ⟨lead, d, name, ahead, further, hcreated, hiff⟩
    · rfl
    · -- no name is too long to go on
      obtain ⟨front, rfl, -⟩ := h.exists_missing hz hfits hp hcreated.lacks
      refine absurd (hiff.mpr (hcreated.complete fun name' hname' => hp.name_le name' ?_)) (by simp)
      exact List.mem_append_right front (List.mem_cons_of_mem name hname')
  · refine .inr ⟨w, rfl, ?_⟩
    rcases hcases with ⟨rfl, hpresent⟩ | ⟨lead, d, name, ahead, further, hcreated, hiff⟩
    · refine ⟨h, .refl _ _, fun more => ?_⟩
      obtain ⟨loc, hloc⟩ := hpresent (hp.named_of hz) rfl
      have hwalk := walk_of_status hp.zero hloc
      rw [hp.start_eq, hp.names, ← leadsTo_iff] at hwalk
      split
      · rename_i hmore
        exact htree.directory_of_prefix (h.leadsTo_inside hz hfits hp.ordinary hwalk).2 hmore
      · rfl
    · obtain ⟨front, rfl, rfl, hfront⟩ := h.exists_missing hz hfits hp hcreated.lacks
      obtain rfl := hiff.mp rfl
      have hinside := node?_created htree hcreated hfront
      have hwithin := hcreated.within (fun _ => True)
      refine ⟨{ h with workingDirectory := ?_, outside := ?_, directory := ?_, linkFree := ?_ },
        hwithin, hinside⟩
      · exact hwithin.workingDirectory.trans h.workingDirectory
      · intro l hl
        rw [hcreated.node?_of_not, h.outside l hl]
        rw [List.append_assoc]
        exact fun hprefix => hl ((List.prefix_append _ _).trans hprefix)
      · have hroot := hinside []
        rwa [List.append_nil, if_pos List.nil_prefix] at hroot
      · intro more target
        rw [List.append_cons, hinside, ← List.append_cons]
        split
        · simp
        · exact h.linkFree more target

/-! ## Writing inside -/

theorem holder_inside (h : Staged z u v dir) (hz : z.Named) (hfits : z.Fits)
    (htree : v.IsTreeAt (dir ++ [z.filename])) (hp : Path.Along z p (rel ++ [name]))
    (hdir : v.node? (dir ++ [z.filename] ++ rel) = some .directory) :
    v.Holder p (dir ++ [z.filename] ++ rel) := by
  rw [Holder, hp.start_eq, hp.names_parent]
  exact (h.leadsTo hz hfits).append
    (fun name' hname' => hp.ordinary name' (List.mem_append_left _ hname'))
    (fun name' hname' => hp.name_le name' (List.mem_append_left _ hname'))
    fun more _ hmore => htree.directory_of_prefix hdir hmore

/-- In a directory that is there a file is created or rewritten, unless something else has its
name. -/
theorem write?_cases (h : Staged z u v dir) (content : Bytes) (hz : z.Named) (hfits : z.Fits)
    (htree : v.IsTreeAt (dir ++ [z.filename])) (hp : Path.Along z p (rel ++ [name]))
    (hdir : v.node? (dir ++ [z.filename] ++ rel) = some .directory) :
    (v.write? p content = none ∧ (v.node? (dir ++ [z.filename] ++ (rel ++ [name]))).isSome) ∨
      ∃ w number, v.write? p content = some w ∧ Staged z u w dir ∧
        (∀ more, w.node? (dir ++ [z.filename] ++ more) =
          if more = rel ++ [name] then some (.file number content)
          else v.node? (dir ++ [z.filename] ++ more)) ∧
        ∀ n, v.node? (dir ++ [z.filename] ++ (rel ++ [name])) = some n →
          ∃ number old, n = .file number old := by
  have hresolve : v.resolve true p = .ok (v.placeAt (dir ++ [z.filename] ++ (rel ++ [name]))) := by
    rw [(h.holder_inside hz hfits htree hp hdir).resolve_eq hp.named hp.fits, hp.filename_eq,
      List.append_assoc _ rel]
    rintro - target
    rw [List.append_assoc _ rel, ← List.append_cons]
    exact h.linkFree _ target
  have hne : dir ++ [z.filename] ++ (rel ++ [name]) ≠ [] := by simp
  have hput {w : Volume} {number : Nat}
      (hway : ∀ m, v.node? (dir ++ [z.filename] ++ (rel ++ [name])) = some m → ¬m.IsWay)
      (hw : w.workingDirectory = v.workingDirectory)
      (hnode : ∀ l, w.node? l =
        if l = dir ++ [z.filename] ++ (rel ++ [name]) then some (.file number content)
        else v.node? l) :
      Staged z u w dir ∧ ∀ more, w.node? (dir ++ [z.filename] ++ more) =
        if more = rel ++ [name] then some (.file number content)
        else v.node? (dir ++ [z.filename] ++ more) := by
    refine ⟨h.put (List.prefix_append _ _) hway (by simp) hw hnode, fun more => ?_⟩
    rw [hnode]
    exact if_congr (List.append_right_inj _) rfl rfl
  rw [Volume.write?, hresolve, placeAt]
  cases hnode : v.node? (dir ++ [z.filename] ++ (rel ++ [name])) with
  | none =>
    obtain ⟨hstaged, hinside⟩ :=
      hput (w := v.addFile (dir ++ [z.filename] ++ (rel ++ [name])) content)
      (fun m hm => by rw [hnode] at hm; cases hm) rfl fun l => node?_addFile hne
    exact .inr ⟨_, _, rfl, hstaged, hinside, by simp⟩
  | some n =>
    cases n with
    | file number old =>
      obtain ⟨hstaged, hinside⟩ := hput
        (w := v.put (dir ++ [z.filename] ++ (rel ++ [name])) (.file number content))
        (by rw [hnode]; rintro m ⟨⟩; exact id) rfl fun l => node?_put hne
      exact .inr ⟨_, _, rfl, hstaged, hinside, by simp⟩
    | _ => exact .inl ⟨rfl, rfl⟩

end Staged

/-! ## Contents -/

/-- At the location is a tree with these directories and files, by the names that lead to them, and
nothing else. -/
structure Contains (loc : Location) (D : List Bytes → Prop) (F : List Bytes → Bytes → Prop)
    (v : Volume) :
    Prop where
  tree : v.IsTreeAt loc
  directory_iff : ∀ rel, v.node? (loc ++ rel) = some .directory ↔ D rel
  file_iff : ∀ rel content, (∃ number, v.node? (loc ++ rel) = some (.file number content)) ↔
    F rel content
  plain : ∀ rel n, v.node? (loc ++ rel) = some n →
    n = .directory ∨ ∃ number content, n = .file number content

namespace Contains

variable {D D' : List Bytes → Prop} {F F' : List Bytes → Bytes → Prop} {content : Bytes}

theorem congr (h : v.Contains loc D F) (hD : ∀ rel, D rel ↔ D' rel)
    (hF : ∀ rel content, F rel content ↔ F' rel content) : v.Contains loc D' F' :=
  ⟨h.tree, fun rel => (h.directory_iff rel).trans (hD rel),
    fun rel content => (h.file_iff rel content).trans (hF rel content), h.plain⟩

/-- A directory that has been put where nothing was is empty. -/
theorem fresh (hvacant : ∀ more, v.node? (dir ++ name :: more) = none) :
    (v.put (dir ++ [name]) .directory).Contains (dir ++ [name]) (· = []) fun _ _ => False := by
  have hnode (rel : List Bytes) : (v.put (dir ++ [name]) .directory).node? (dir ++ [name] ++ rel) =
      if rel = [] then some .directory else none := by
    rw [node?_put (by simp), ← List.append_cons, hvacant]
    exact if_congr (by simp) rfl rfl
  refine ⟨fun rel name' n hn => ?_, fun rel => ?_, fun rel content => ?_, fun rel n hn => ?_⟩
  · rw [hnode, if_neg (by simp)] at hn
    cases hn
  · rw [hnode]
    split <;> simp_all
  · rw [hnode]
    split <;> simp
  · rw [hnode] at hn
    split at hn
    · exact .inl (Option.some.inj hn).symm
    · cases hn

theorem move {loc' : Location} (h : v.Contains loc D F)
    (hw : ∀ rel, w.node? (loc' ++ rel) = v.node? (loc ++ rel)) : w.Contains loc' D F := by
  refine ⟨h.tree.move hw, fun rel => ?_, fun rel content => ?_, fun rel n => ?_⟩
  · rw [hw]
    exact h.directory_iff rel
  · simp only [hw]
    exact h.file_iff rel content
  · rw [hw]
    exact h.plain rel n

theorem directory_of_prefix (h : v.Contains loc D F) {more : List Bytes} (hrel : D rel)
    (hmore : more <+: rel) :
    D more :=
  (h.directory_iff more).mp (h.tree.directory_of_prefix ((h.directory_iff rel).mpr hrel) hmore)

/-- All on the way are directories. -/
theorem add_directories (h : v.Contains loc D F) (hvw : Within (fun _ => True) v w)
    (hw : ∀ more, w.node? (loc ++ more) =
      if more <+: rel then some .directory else v.node? (loc ++ more)) :
    w.Contains loc (fun more => more <+: rel ∨ D more) F := by
  refine ⟨fun more name n hn => ?_, fun more => ?_, fun more content => ?_, fun more n hn => ?_⟩
  · rw [hw] at hn
    split at hn
    · rename_i hway
      rw [hw, if_pos ((List.prefix_append more [name]).trans hway)]
    · exact hvw.node? _ _ trivial (h.tree more name n hn)
  · rw [hw]
    split
    · rename_i hway
      simp [hway]
    · rename_i hway
      simp [hway, h.directory_iff]
  · rw [← h.file_iff]
    refine exists_congr fun number => ⟨fun hn => ?_, hvw.node? _ _ trivial⟩
    rw [hw] at hn
    split at hn
    · cases hn
    · exact hn
  · rw [hw] at hn
    split at hn
    · exact .inl (Option.some.inj hn).symm
    · exact h.plain more n hn

theorem not_of_vacant (h : v.Contains loc D F) {more : List Bytes}
    (hvacant : v.node? (loc ++ more) = none) :
    ¬D more ∧ ∀ content, ¬F more content := by
  refine ⟨fun hD => ?_, fun content hF => ?_⟩
  · rw [(h.directory_iff more).mpr hD] at hvacant
    cases hvacant
  · obtain ⟨number, hn⟩ := (h.file_iff more content).mpr hF
    rw [hn] at hvacant
    cases hvacant

/-- A file is put where nothing was. -/
theorem add_file {number : Nat} (h : v.Contains loc D F) (hrel : D rel)
    (hvacant : v.node? (loc ++ (rel ++ [name])) = none)
    (hw : ∀ more, w.node? (loc ++ more) =
      if more = rel ++ [name] then some (.file number content) else v.node? (loc ++ more)) :
    w.Contains loc D fun more content' => more = rel ++ [name] ∧ content' = content ∨
    F more content' := by
  obtain ⟨hD, hF⟩ := h.not_of_vacant hvacant
  refine ⟨h.tree.add ((h.directory_iff rel).mpr hrel) hvacant hw, fun more => ?_,
    fun more content' => ?_, fun more n hn => ?_⟩
  · rw [hw]
    split
    · rename_i heq
      subst heq
      exact iff_of_false (by simp) hD
    · exact h.directory_iff more
  · simp only [hw]
    split
    · rename_i heq
      subst heq
      simp [hF, eq_comm]
    · rename_i hne
      simp [hne, h.file_iff]
  · rw [hw] at hn
    split at hn
    · exact .inr ⟨number, content, (Option.some.inj hn).symm⟩
    · exact h.plain more n hn

end Contains

namespace Staged

variable {D : List Bytes → Prop} {F : List Bytes → Bytes → Prop}

theorem contains_makeDirectories (h : Staged z u v dir) (hz : z.Named) (hfits : z.Fits)
    (hc : v.Contains (dir ++ [z.filename]) D F) (hp : Path.Along z p rel) :
    (∃ e, v.makeDirectories p = (.error e, v)) ∨
      ∃ w, v.makeDirectories p = (.ok (), w) ∧ Staged z u w dir ∧
        w.Contains (dir ++ [z.filename]) (fun more => more <+: rel ∨ D more) F := by
  rcases h.makeDirectories_cases hz hfits hc.tree hp with herror | ⟨w, hmake, hw, hvw, hnode⟩
  · exact .inl herror
  · exact .inr ⟨w, hmake, hw, hc.add_directories hvw hnode⟩

theorem contains_write? (h : Staged z u v dir) (content : Bytes) (hz : z.Named) (hfits : z.Fits)
    (hc : v.Contains (dir ++ [z.filename]) D F) (hp : Path.Along z p (rel ++ [name])) (hrel : D rel)
    (hF : ∀ old, ¬F (rel ++ [name]) old) :
    (v.write? p content = none ∧ D (rel ++ [name])) ∨
      ∃ w, v.write? p content = some w ∧ Staged z u w dir ∧ w.Contains (dir ++ [z.filename]) D
        fun more content' => more = rel ++ [name] ∧ content' = content ∨ F more content' := by
  rcases h.write?_cases content hz hfits hc.tree hp ((hc.directory_iff rel).mpr hrel) with
    ⟨hwrite, hsome⟩ | ⟨w, number, hwrite, hw, hnode, hfile⟩
  · refine .inl ⟨hwrite, ?_⟩
    obtain ⟨n, hn⟩ := Option.isSome_iff_exists.mp hsome
    rcases hc.plain _ n hn with rfl | ⟨number, old, rfl⟩
    · exact (hc.directory_iff _).mp hn
    · exact absurd ((hc.file_iff _ old).mp ⟨number, hn⟩) (hF old)
  · refine .inr ⟨w, hwrite, hw, hc.add_file hrel ?_ hnode⟩
    rw [Option.eq_none_iff_forall_ne_some]
    intro n hn
    obtain ⟨number, old, rfl⟩ := hfile n hn
    exact hF old ((hc.file_iff _ old).mp ⟨number, hn⟩)

end Staged

end JarRepair.Volume

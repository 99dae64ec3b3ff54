import JarRepair.Proofs.Volume.Operations

/-! # Creating directories on the way

A directory is created together with the parents it lacks. What is created is a chain: the first
directory where nothing was, each other one in the one before. -/

namespace JarRepair.Volume

variable {v w : Volume} {p q : Path} {dir loc l : Location} {n : Node} {names made : List Bytes}

/-! ## Chains -/

/-- Puts a directory into another, the next one into that, and so on. -/
def makeChain (v : Volume) (dir : Location) : List Bytes → Volume
  | [] => v
  | name :: names => (v.put (dir ++ [name]) .directory).makeChain (dir ++ [name]) names

theorem workingDirectory_makeChain :
    (v.makeChain dir made).workingDirectory = v.workingDirectory := by
  induction made generalizing v dir with
  | nil => rfl
  | cons name made ih => exact ih

theorem node?_makeChain_of_not (h : ∀ more, more ≠ [] → more <+: made → l ≠ dir ++ more) :
    (v.makeChain dir made).node? l = v.node? l := by
  induction made generalizing v dir with
  | nil => rfl
  | cons name made ih =>
    rw [makeChain, ih, node?_put (by simp), if_neg (h [name] (by simp) (by simp))]
    intro more hmore hprefix
    rw [List.append_assoc]
    exact h ([name] ++ more) (by simp) ((List.prefix_cons_inj name).mpr hprefix)

theorem node?_makeChain_of_prefix {more : List Bytes} (hmore : more ≠ []) (h : more <+: made) :
    (v.makeChain dir made).node? (dir ++ more) = some .directory := by
  induction made generalizing v dir more with
  | nil => exact absurd (List.prefix_nil.mp h) hmore
  | cons name made ih =>
    obtain ⟨first, more, rfl⟩ := List.exists_cons_of_ne_nil hmore
    obtain ⟨rfl, hprefix⟩ := List.cons_prefix_cons.mp h
    rw [makeChain]
    by_cases hnil : more = []
    · rw [hnil, node?_makeChain_of_not, node?_put (by simp), if_pos rfl]
      intro more' hmore' _ heq
      exact hmore' (List.append_right_eq_self.mp heq.symm)
    · rw [List.append_cons dir first more]
      exact ih hnil hprefix

theorem makeChain_concat {name : Bytes} : v.makeChain dir (made ++ [name]) =
    (v.makeChain dir made).put (dir ++ made ++ [name]) .directory := by
  induction made generalizing v dir with
  | nil => rw [List.nil_append, makeChain, makeChain, makeChain, List.append_nil]
  | cons first made ih => rw [List.cons_append, makeChain, ih, makeChain, ← List.append_cons]

/-- A chain that starts where nothing was takes nothing away. -/
theorem within_makeChain (P : Node → Prop)
    (h : ∀ more, more ≠ [] → more <+: made → v.node? (dir ++ more) = none) :
    Within P v (v.makeChain dir made) := by
  refine ⟨workingDirectory_makeChain, fun l n _ hn => ?_⟩
  rw [node?_makeChain_of_not, hn]
  rintro more hmore hprefix rfl
  rw [h more hmore hprefix] at hn
  simp at hn

/-! ## Descending paths -/

/-- Each path is the parent of the next, which has an ordinary name. -/
abbrev Descending (paths : List Path) : Prop := paths.IsChain fun p q => q.Named ∧ q.parent = p

theorem start_of_parent (hq : q.Named) (h : q.parent = p) : v.start q = v.start p := by
  rw [start, start, ← h, Path.isAbsolute_parent hq.filename]

/-- A directory that has been created can be walked into. -/
theorem Holder.leadsTo_put (h : v.Holder q dir) (hq : q.Named) (hfits : q.Fits)
    (hvacant : v.node? (dir ++ [q.filename]) = none) :
    (v.put (dir ++ [q.filename]) .directory).LeadsTo
      ((v.put (dir ++ [q.filename]) .directory).start q) (Path.names q) (dir ++ [q.filename]) := by
  rw [Path.names_eq_parent_append hq.filename]
  exact (h.mono (fun _ _ => trivial) (within_put (fun _ => True) (by simp) hvacant)).concat
    hq.ordinary hfits.filename (by rw [node?_put (by simp), if_pos rfl])

/-- Nothing is in a directory that has been created where nothing was. -/
theorem node?_put_below {name : Bytes} {more : List Bytes} (hmore : more ≠ [])
    (hfresh : v.node? (dir ++ name :: more) = none) :
    (v.put (dir ++ [name]) .directory).node? (dir ++ [name] ++ more) = none := by
  rw [node?_put (by simp), if_neg (by simpa using hmore), ← List.append_cons, hfresh]

/-- Below an empty directory, the directories are created down to the first with too long a name. -/
theorem exists_makeAll {paths : List Path} (hpaths : Descending (p :: paths))
    (hlong : ∀ q ∈ paths, q.length ≤ maxPath) (hdir : v.LeadsTo (v.start p) (Path.names p) dir)
    (hfresh : ∀ more, more ≠ [] → v.node? (dir ++ more) = none) :
    ∃ made, made <+: paths.map Path.filename ∧ (∀ name ∈ made, name.length ≤ maxName) ∧
      ((∀ name ∈ paths.map Path.filename, name.length ≤ maxName) → made = paths.map Path.filename) ∧
      (v.makeAll paths).2 = v.makeChain dir made ∧
      ((v.makeAll paths).1 = .ok () ↔ made = paths.map Path.filename) := by
  induction paths generalizing v p dir with
  | nil => exact ⟨[], List.nil_prefix, by simp, fun _ => rfl, rfl, by simp [makeAll]⟩
  | cons q paths ih =>
    obtain ⟨⟨hq, hparent⟩, hpaths⟩ := List.isChain_cons_cons.mp hpaths
    rw [List.forall_mem_cons] at hlong
    have hholder : v.Holder q dir := by rwa [Holder, start_of_parent hq hparent, hparent]
    by_cases hfits : q.Fits
    · have hmake : v.makeDirectory q = .ok (v.put (dir ++ [q.filename]) .directory) := by
        rw [makeDirectory, hholder.resolve_eq hq hfits (by simp), placeAt, hfresh _ (by simp)]
      obtain ⟨made, hprefix, hlength, hcomplete, hvolume, hok⟩ := ih hpaths hlong.2
        (hholder.leadsTo_put hq hfits (hfresh _ (by simp))) fun more hmore =>
          node?_put_below hmore (hfresh _ (by simp))
      refine ⟨q.filename :: made, (List.prefix_cons_inj _).mpr hprefix,
        List.forall_mem_cons.mpr ⟨hfits.filename, hlength⟩, fun hall => ?_, ?_, ?_⟩
      · rw [List.map_cons, List.forall_mem_cons] at hall
        rw [List.map_cons, hcomplete hall.2]
      · rw [makeAll, hmake]
        exact hvolume
      · rw [makeAll, hmake, List.map_cons, List.cons.injEq, and_iff_right rfl]
        exact hok
    · have hmake : ∃ e, v.makeDirectory q = .error e := by
        rw [makeDirectory]
        cases hresolve : v.resolve false q with
        | ok place =>
          obtain ⟨-, -, hfits'⟩ := exists_holder hq hresolve
          exact absurd hfits' hfits
        | error e => exact ⟨e, rfl⟩
      obtain ⟨e, he⟩ := hmake
      refine ⟨[], List.nil_prefix, by simp, fun hall => ?_, ?_, ?_⟩
      · exact absurd ⟨hlong.1, hall _ (List.mem_map_of_mem List.mem_cons_self)⟩ hfits
      · rw [makeAll, he]
        rfl
      · rw [makeAll, he]
        simp

theorem names_of_descending {paths : List Path} (h : Descending (p :: paths))
    (hlast : (p :: paths).getLast? = some q) :
    Path.names q = Path.names p ++ paths.map Path.filename ∧ v.start q = v.start p := by
  induction paths generalizing p with
  | nil =>
    obtain rfl : p = q := by simpa using hlast
    exact ⟨(List.append_nil _).symm, rfl⟩
  | cons r paths ih =>
    obtain ⟨⟨hr, rfl⟩, hpaths⟩ := List.isChain_cons_cons.mp h
    rw [List.getLast?_cons_cons] at hlast
    obtain ⟨hnames, hstart⟩ := ih hpaths hlast
    refine ⟨?_, hstart.trans (start_of_parent hr rfl)⟩
    rw [hnames, Path.names_eq_parent_append hr.filename, List.append_assoc]
    rfl

/-! ## The parents that a path lacks -/

/-- A path without a trailing slash or a zero byte. -/
structure Path.Way (p : Path) : Prop where
  zero : (0 : UInt8) ∉ p
  unslashed : p.hasFilename = true ∨ p.trimSlashes = []

theorem Path.Way.parent (h : p.Way) : p.parent.Way := by
  rcases h.unslashed with hname | htrim
  · exact ⟨fun hzero => h.zero (( Path.parent_prefix hname).subset hzero),
      Path.hasFilename_parent_or hname⟩
  · rwa [Path.parent, if_pos (Path.trimSlashes_eq_nil_iff.mp htrim)]

theorem Path.Way.withoutTrailingSlash_eq (h : p.Way) : p.withoutTrailingSlash = p := by
  rw [Path.withoutTrailingSlash_eq]
  split
  · rfl
  · rename_i htrim
    exact Path.trimSlashes_of_hasFilename (h.unslashed.resolve_right htrim)

theorem length_le_of_absent (hzero : (0 : UInt8) ∉ p) (hne : p ≠ []) (h : v.status p = .absent) :
    p.length ≤ maxPath := by
  by_contra hlong
  rw [status, resolve_eq hzero, if_neg hne, if_pos (Nat.not_le.mp hlong)] at h
  simp at h

/-- The root is there. -/
theorem hasFilename_of_absent (hp : p.Way) (hne : p ≠ []) (h : v.status p = .absent) :
    p.hasFilename = true := by
  refine hp.unslashed.resolve_right fun htrim => ?_
  have hnames : Path.names p = [] := by rw [← Path.names_trimSlashes, htrim, Path.names_nil]
  have hwalk :
      v.walk true maxLinks (v.start p) (Path.names p) = .ok (.found (v.start p) .directory) :=
    walk_of_done (by rw [hnames, advance])
  rw [status_of_walk hp.zero hne (length_le_of_absent hp.zero hne h) hwalk (.inr rfl)] at h
  cases h

/-- A climb goes on with its path before what it has gathered, unless the path ends with `.` or
`..`. -/
def gather (p : Path) (below : List Path) : List Path :=
  if Path.isDots p.filename then below else p :: below

theorem gather_of_ordinary (h : Path.isDots p.filename = false) (below : List Path) :
    gather p below = p :: below :=
  if_neg (by rw [h]; exact Bool.false_ne_true)

theorem missingAbove_step {fuel : Nat} {below missing : List Path}
    (h : v.missingAbove (fuel + 1) p below = .ok missing) :
    missing = gather p below ∨
      p.parent ≠ [] ∧ v.status p.parent = .absent ∧
        v.missingAbove fuel p.parent (gather p below) = .ok missing := by
  rw [missingAbove] at h
  change (if (gather p below).length > maxMissing then _ else _) = _ at h
  split at h
  · simp at h
  · split at h
    · exact .inl (Except.ok.inj h).symm
    · rename_i hparent
      split at h
      · exact .inl (Except.ok.inj h).symm
      · exact .inl (Except.ok.inj h).symm
      · simp at h
      · rename_i habsent
        exact .inr ⟨hparent, habsent, h⟩

theorem suffix_of_missingAbove {fuel : Nat} {below missing : List Path}
    (h : v.missingAbove fuel p below = .ok missing) : below <:+ missing := by
  induction fuel generalizing p below with
  | zero =>
    rw [missingAbove] at h
    exact Except.ok.inj h ▸ List.suffix_refl below
  | succ fuel ih =>
    have hgather : below <:+ gather p below := by
      rw [gather]
      split
      · exact List.suffix_refl below
      · exact List.suffix_cons p below
    rcases missingAbove_step h with rfl | ⟨-, -, h⟩
    · exact hgather
    · exact hgather.trans (ih h)

theorem ne_nil_of_missingAbove {fuel : Nat} {missing : List Path} (hp : p.Named)
    (h : v.missingAbove (fuel + 1) p [] = .ok missing) : missing ≠ [] := by
  have hgather := gather_of_ordinary hp.ordinary []
  rcases missingAbove_step h with rfl | ⟨-, -, h⟩
  · rw [hgather]
    exact List.cons_ne_nil p []
  · rw [hgather] at h
    exact List.IsSuffix.ne_nil (suffix_of_missingAbove h) (List.cons_ne_nil p [])

/-- A climb from `p` has come to `q`, past the names ahead. If these are ordinary, each of the paths
that it has gathered is in the one before. -/
structure Climbed (v : Volume) (p q : Path) (paths : List Path) (ahead : List Bytes) : Prop where
  start : v.start q = v.start p
  names : Path.names p = Path.names q ++ ahead
  descending : (∀ name ∈ ahead, Path.isDots name = false) →
    Descending (q :: paths) ∧ (q :: paths).getLast? = some p

/-- The directories that a climb from `p` has found missing, the first of them at a name. -/
def Gathered (v : Volume) (p : Path) (missing : List Path) : Prop :=
  missing = [] ∨ ∃ q paths ahead, missing = q :: paths ∧ q.Named ∧ v.status q = .absent ∧
    v.Climbed p q paths ahead

section

variable {below : List Path} {ahead : List Bytes} (hq : q.Way) (hname : q.hasFilename = true)

include hq hname

theorem Climbed.gather (h : v.Climbed p q below ahead) :
    v.Climbed p q.parent (gather q below) (q.filename :: ahead) where
  start := (start_parent hname).trans h.start
  names := by
    rw [h.names, Path.names_eq_parent_append hname, List.append_assoc, List.singleton_append]
  descending hall := by
    rw [List.forall_mem_cons] at hall
    obtain ⟨hpaths, hlast⟩ := h.descending hall.2
    rw [gather_of_ordinary hall.1, List.getLast?_cons_cons]
    exact ⟨hpaths.cons_cons ⟨⟨hq.zero, hname, hall.1⟩, rfl⟩, hlast⟩

theorem Gathered.gather (h : v.Gathered p below) (habsent : v.status q = .absent)
    (hclimbed : v.Climbed p q below ahead) : v.Gathered p (gather q below) := by
  cases hdots : Path.isDots q.filename with
  | true => rwa [Volume.gather, if_pos hdots]
  | false =>
    rw [gather_of_ordinary hdots]
    exact .inr ⟨q, below, ahead, rfl, ⟨hq.zero, hname, hdots⟩, habsent, hclimbed⟩

/-- The directories to create, if nothing is at the path. -/
theorem gathered_of_missingAbove {fuel : Nat} {missing : List Path} (habsent : v.status q = .absent)
    (hclimbed : v.Climbed p q below ahead) (hbelow : v.Gathered p below)
    (h : v.missingAbove fuel q below = .ok missing) : v.Gathered p missing := by
  induction fuel generalizing q below ahead with
  | zero =>
    rw [missingAbove] at h
    exact Except.ok.inj h ▸ hbelow
  | succ fuel ih =>
    have hgathered := hbelow.gather hq hname habsent hclimbed
    rcases missingAbove_step h with rfl | ⟨hparent, habsent', h⟩
    · exact hgathered
    · exact ih hq.parent (hasFilename_of_absent hq.parent hparent habsent') habsent'
        (hclimbed.gather hq hname) hgathered h

end

theorem ordinary_of_descending {paths : List Path} (h : Descending (p :: paths)) :
    ∀ name ∈ paths.map Path.filename, Path.isDots name = false := by
  induction paths generalizing p with
  | nil => simp
  | cons q paths ih =>
    obtain ⟨⟨hq, -⟩, hpaths⟩ := List.isChain_cons_cons.mp h
    rw [List.map_cons, List.forall_mem_cons]
    exact ⟨hq.ordinary, ih hpaths⟩

theorem length_le_of_descending {paths : List Path} (h : Descending (q :: paths))
    (hlast : (q :: paths).getLast? = some p) : ∀ r ∈ q :: paths, r.length ≤ p.length := by
  induction paths generalizing q with
  | nil =>
    obtain rfl : q = p := by simpa using hlast
    simp
  | cons r paths ih =>
    obtain ⟨⟨hr, rfl⟩, hpaths⟩ := List.isChain_cons_cons.mp h
    rw [List.getLast?_cons_cons] at hlast
    have hall := ih hpaths hlast
    exact List.forall_mem_cons.mpr
      ⟨( Path.parent_prefix hr.filename).length_le.trans (hall r List.mem_cons_self), hall⟩

/-- Either the first directory cannot be created, or it is, where nothing was, and some of the
others. -/
theorem makeAll_cases {paths : List Path} (hq : q.Named) (habsent : v.status q = .absent)
    (hpaths : ∀ dir, v.Holder q dir → v.node? (dir ++ [q.filename]) = none →
      Descending (q :: paths) ∧ (∀ r ∈ paths, r.length ≤ maxPath) ∧
        ∀ more, v.node? (dir ++ q.filename :: more) = none) :
    (v.makeAll (q :: paths)).2 = v ∧ (v.makeAll (q :: paths)).1 ≠ .ok () ∨
    ∃ dir further, v.Holder q dir ∧ (∀ more, v.node? (dir ++ q.filename :: more) = none) ∧
      further <+: paths.map Path.filename ∧
      (∀ name ∈ q.filename :: further, name.length ≤ maxName) ∧
      ((∀ name ∈ paths.map Path.filename, name.length ≤ maxName) →
        further = paths.map Path.filename) ∧
      (v.makeAll (q :: paths)).2 = v.makeChain dir (q.filename :: further) ∧
      ((v.makeAll (q :: paths)).1 = .ok () ↔ further = paths.map Path.filename) := by
  cases hmake : v.makeDirectory q with
  | error e =>
    rw [makeAll, hmake]
    exact .inl ⟨rfl, by simp⟩
  | ok w =>
    rcases exists_of_makeDirectory hmake with ⟨hdirectory, -⟩ | ⟨loc, hresolve, rfl⟩
    · rw [isDirectory, habsent] at hdirectory
      simp at hdirectory
    · obtain ⟨dir, hdir, hfits, hplace⟩ := exists_holder_of_resolve_false hq hresolve
      obtain ⟨rfl, hvacant⟩ := placeAt_eq_vacant_iff.mp hplace.symm
      obtain ⟨hdescending, hlong, hfresh⟩ := hpaths dir hdir hvacant
      obtain ⟨further, hprefix, hlength, hcomplete, hvolume, hok⟩ :=
        exists_makeAll hdescending hlong (hdir.leadsTo_put hq hfits hvacant) fun more hmore =>
          node?_put_below hmore (hfresh more)
      rw [makeAll, hmake]
      exact .inr
        ⟨dir, further, hdir, hfresh, hprefix, List.forall_mem_cons.mpr ⟨hfits.filename, hlength⟩,
        hcomplete, hvolume, hok⟩

/-! ## What is created -/

/-- On the way that a path goes, `name` is missing where the names before lead to. -/
structure Lacks (v : Volume) (p : Path) (lead : List Bytes) (dir : Location) (name : Bytes)
    (ahead : List Bytes) : Prop where
  names : Path.names p = lead ++ name :: ahead
  ordinary : Path.isDots name = false
  leadsTo : v.LeadsTo (v.start p) lead dir
  vacant : v.node? (dir ++ [name]) = none

/-- Nothing is below a name that is missing. -/
def Grounded (v : Volume) (p : Path) : Prop :=
  ∀ lead dir name ahead, v.Lacks p lead dir name ahead →
    ∀ more, v.node? (dir ++ name :: more) = none

theorem IsTree.grounded (h : v.IsTree) (p : Path) : v.Grounded p := by
  intro lead dir name ahead hlacks more
  rw [List.append_cons]
  by_cases hnil : more = []
  · rw [hnil, List.append_nil, hlacks.vacant]
  · exact h.eq_none (by simp [hlacks.vacant]) hnil

/-- No `.` and no `..` comes after a name that is missing. -/
def Straight (v : Volume) (p : Path) : Prop :=
  ∀ lead dir name ahead, v.Lacks p lead dir name ahead → ∀ name' ∈ ahead, Path.isDots name' = false

theorem Path.Straight.straight (h : p.Straight) (v : Volume) : v.Straight p :=
  fun _ _ _ _ hlacks _ => h.ordinary hlacks.names hlacks.ordinary

theorem Lacks.of_parent {lead ahead : List Bytes} {name : Bytes} (hname : p.hasFilename = true)
    (h : v.Lacks p.parent lead dir name ahead) :
    v.Lacks p lead dir name (ahead ++ [p.filename]) where
  names := by rw [Path.names_eq_parent_append hname, h.names, List.append_assoc, List.cons_append]
  ordinary := h.ordinary
  leadsTo := start_parent (v := v) hname ▸ h.leadsTo
  vacant := h.vacant

theorem Straight.parent (h : v.Straight p) (hname : p.hasFilename = true) : v.Straight p.parent :=
  fun _ _ _ _ hlacks name' hname' =>
    h _ _ _ _ (hlacks.of_parent hname) name' (List.mem_append_left _ hname')

/-- Directories have been created on the way that a path goes: one at `name`, where the names before
lead to, and further ones at some of the names ahead. -/
structure Created (p : Path) (v w : Volume) (lead : List Bytes) (dir : Location) (name : Bytes)
    (ahead further : List Bytes) : Prop where
  names : Path.names p = lead ++ name :: ahead
  ordinary : ∀ name' ∈ name :: ahead, Path.isDots name' = false
  leadsTo : v.LeadsTo (v.start p) lead dir
  fresh : ∀ more, v.node? (dir ++ name :: more) = none
  further_prefix : further <+: ahead
  length_le : ∀ name' ∈ name :: further, name'.length ≤ maxName
  /-- Only a name that is too long stops it. -/
  complete : (∀ name' ∈ ahead, name'.length ≤ maxName) → further = ahead
  path_le : p.length ≤ maxPath
  volume : w = v.makeChain dir (name :: further)

/-- What a climb has found missing is created from the first name on. -/
theorem Climbed.makeAll_cases {paths : List Path} {ahead : List Bytes} (hv : v.Grounded p)
    (hs : v.Straight p) (hlong : p.length ≤ maxPath) (hq : q.Named) (habsent : v.status q = .absent)
    (h : v.Climbed p q paths ahead) :
    (v.makeAll (q :: paths)).2 = v ∧ (v.makeAll (q :: paths)).1 ≠ .ok () ∨
    ∃ lead dir name ahead further,
      Created p v (v.makeAll (q :: paths)).2 lead dir name ahead further ∧
        ((v.makeAll (q :: paths)).1 = .ok () ↔ further = ahead) := by
  have hlacks {dir : Location} (hdir : v.Holder q dir)
      (hvacant : v.node? (dir ++ [q.filename]) = none) :
      v.Lacks p (Path.names q.parent) dir q.filename ahead := by
    refine ⟨?_, hq.ordinary, h.start ▸ hdir, hvacant⟩
    rw [h.names, Path.names_eq_parent_append hq.filename, ← List.append_cons]
  -- only where the first one can be created the others are one in the other
  have hpaths (dir : Location) (hdir : v.Holder q dir)
      (hvacant : v.node? (dir ++ [q.filename]) = none) :=
    h.descending (hs _ _ _ _ (hlacks hdir hvacant))
  have hmakes (dir : Location) (hdir : v.Holder q dir)
      (hvacant : v.node? (dir ++ [q.filename]) = none) :
      Descending (q :: paths) ∧ (∀ r ∈ paths, r.length ≤ maxPath) ∧
        ∀ more, v.node? (dir ++ q.filename :: more) = none := by
    obtain ⟨hdescending, hlast⟩ := hpaths dir hdir hvacant
    refine ⟨hdescending, fun r hr => ?_, hv _ _ _ _ (hlacks hdir hvacant)⟩
    exact (length_le_of_descending hdescending hlast r (List.mem_cons_of_mem q hr)).trans hlong
  rcases Volume.makeAll_cases hq habsent hmakes with
    ⟨hvolume, hok⟩ | ⟨dir, further, hdir, hfresh, hprefix, hlength, hcomplete, hvolume, hok⟩
  · exact .inl ⟨hvolume, hok⟩
  · obtain ⟨hdescending, hlast⟩ := hpaths dir hdir (hfresh [])
    have hlacks := hlacks hdir (hfresh [])
    obtain rfl : ahead = paths.map Path.filename := by
      refine List.append_cancel_left (h.names.symm.trans ?_)
      exact (names_of_descending (v := v) hdescending hlast).1
    refine .inr ⟨_, dir, q.filename, _, further, ⟨hlacks.names, ?_, hlacks.leadsTo, hfresh, hprefix,
      hlength, hcomplete, hlong, hvolume⟩, hok⟩
    exact List.forall_mem_cons.mpr ⟨hq.ordinary, ordinary_of_descending hdescending⟩

theorem makeDirectories_cases (hv : v.Grounded p) (hs : v.Straight p) (hp : p.Way) :
    (v.makeDirectories p).2 = v ∧ (p.Named → (v.makeDirectories p).1 = .ok () →
      ∃ loc, v.status p = .present loc .directory) ∨
    ∃ lead dir name ahead further, Created p v (v.makeDirectories p).2 lead dir name ahead further ∧
      ((v.makeDirectories p).1 = .ok () ↔ further = ahead) := by
  rw [makeDirectories]
  split
  · exact .inl ⟨rfl, by simp⟩
  · rename_i hne
    split
    · rename_i loc hstatus
      exact .inl ⟨rfl, fun _ _ => ⟨loc, hstatus⟩⟩
    · exact .inl ⟨rfl, by simp⟩
    · exact .inl ⟨rfl, by simp⟩
    · rename_i habsent
      rw [hp.withoutTrailingSlash_eq]
      split
      · exact .inl ⟨rfl, by simp⟩
      · rename_i missing hmissing
        have hclimbed : v.Climbed p p [] [] :=
          ⟨rfl, (List.append_nil _).symm, fun _ => ⟨.singleton p, rfl⟩⟩
        rcases gathered_of_missingAbove hp (hasFilename_of_absent hp hne habsent) habsent hclimbed
          (.inl rfl) hmissing with rfl | ⟨q, paths, ahead, rfl, hq, habsent', hclimbed⟩
        · exact .inl ⟨rfl, fun hnamed => absurd rfl (ne_nil_of_missingAbove hnamed hmissing)⟩
        · have hlong := length_le_of_absent hp.zero hne habsent
          exact (hclimbed.makeAll_cases hv hs hlong hq habsent').imp_left fun ⟨hvolume, hok⟩ =>
            ⟨hvolume, fun _ h => absurd h hok⟩

namespace Created

variable {lead ahead further : List Bytes} {name : Bytes} {r : Path}

theorem lacks (h : Created p v w lead dir name ahead further) : v.Lacks p lead dir name ahead :=
  ⟨h.names, h.ordinary name List.mem_cons_self, h.leadsTo, h.fresh []⟩

theorem within (h : Created p v w lead dir name ahead further) (P : Node → Prop) :
    Within P v w := by
  rw [h.volume]
  refine within_makeChain P fun more hmore hprefix => ?_
  obtain ⟨first, more, rfl⟩ := List.exists_cons_of_ne_nil hmore
  obtain ⟨rfl, -⟩ := List.cons_prefix_cons.mp hprefix
  exact h.fresh more

/-- At the directories created and below them there is nothing but these. -/
theorem node?_eq (h : Created p v w lead dir name ahead further) (more : List Bytes) :
    w.node? (dir ++ name :: more) = if more <+: further then some .directory else none := by
  rw [h.volume]
  split
  · rename_i hmore
    exact node?_makeChain_of_prefix (by simp) ((List.prefix_cons_inj name).mpr hmore)
  · rename_i hmore
    rw [node?_makeChain_of_not, h.fresh]
    intro more' _ hprefix heq
    rw [← List.append_cancel_left heq] at hprefix
    exact hmore ((List.prefix_cons_inj name).mp hprefix)

/-- Elsewhere nothing changes. -/
theorem node?_of_not (h : Created p v w lead dir name ahead further) (hl : ¬dir ++ [name] <+: l) :
    w.node? l = v.node? l := by
  rw [h.volume]
  refine node?_makeChain_of_not ?_
  rintro more hmore hprefix rfl
  obtain ⟨first, more, rfl⟩ := List.exists_cons_of_ne_nil hmore
  obtain ⟨rfl, -⟩ := List.cons_prefix_cons.mp hprefix
  exact hl ⟨more, (List.append_cons dir first more).symm⟩

/-- Nothing is found further on this way than has been created. -/
theorem walk_ne_found (h : Created p v w lead dir name ahead further) {rest : List Bytes}
    (hrest : ∀ name' ∈ rest, Path.isDots name' = false) (hlength : further.length < rest.length) :
    w.walk true maxLinks (v.start p) (lead ++ name :: rest) ≠ .ok (.found loc n) := by
  intro hfound
  obtain ⟨links, hwalk⟩ :=
    (h.leadsTo.mono (fun _ _ => trivial) (h.within (fun _ => True))).exists_walk
  rw [hwalk true _ (by simp)] at hfound
  obtain ⟨result, hstep, hresult⟩ := exists_advance_ordinary w true dir
    (List.forall_mem_cons.mpr ⟨h.ordinary name List.mem_cons_self, hrest⟩) <| by
      intro more target hmore hprefix
      obtain ⟨first, more, rfl⟩ := List.exists_cons_of_ne_nil hmore
      obtain ⟨rfl, -⟩ := List.cons_prefix_cons.mp hprefix
      rw [h.node?_eq]
      split <;> simp
  rw [walk_of_done hstep] at hfound
  have hnode := ((hresult loc n hfound).resolve_left (by simp)).2
  rw [h.node?_eq, if_neg] at hnode
  · simp at hnode
  · intro hprefix
    have := hprefix.length_le
    omega

theorem start_eq (h : Created p v w lead dir name ahead further) : w.start r = v.start r := by
  rw [start, start, (h.within (fun _ => True)).workingDirectory]

/-- A path that goes further on this way than has been created names nothing. -/
theorem status_ne_present (h : Created p v w lead dir name ahead further) (hzero : (0 : UInt8) ∉ r)
    (hstart : v.start r = v.start p) {rest : List Bytes}
    (hnames : Path.names r = lead ++ name :: rest)
    (hrest : ∀ name' ∈ rest, Path.isDots name' = false) (hlength : further.length < rest.length) :
    w.status r ≠ .present loc n := by
  intro hpresent
  have hfound := walk_of_status hzero hpresent
  rw [h.start_eq, hstart, hnames] at hfound
  exact h.walk_ne_found hrest hlength hfound

/-- When all is created, the path leads to its end. -/
theorem leadsTo_end (h : Created p v w lead dir name ahead ahead) :
    w.LeadsTo (w.start p) (Path.names p) (dir ++ name :: ahead) := by
  rw [h.start_eq, h.names]
  refine (h.leadsTo.mono (fun _ _ => trivial) (h.within (fun _ => True))).append h.ordinary
    h.length_le ?_
  intro more hmore hprefix
  obtain ⟨first, more, rfl⟩ := List.exists_cons_of_ne_nil hmore
  obtain ⟨rfl, hmore⟩ := List.cons_prefix_cons.mp hprefix
  rw [h.node?_eq, if_pos hmore]

/-- A path that leads to a directory leads to the end of what was created on its way. -/
theorem eq_of_leadsTo (h : Created p v w lead dir name ahead further)
    (hloc : w.LeadsTo (w.start p) (Path.names p) loc) : loc = dir ++ name :: ahead := by
  by_cases hfull : further = ahead
  · subst hfull
    exact hloc.unique h.leadsTo_end
  · have hlength := h.further_prefix.length_le
    have hne : further.length ≠ ahead.length := fun heq => hfull (h.further_prefix.eq_of_length heq)
    rw [leadsTo_iff, h.start_eq, h.names] at hloc
    exact absurd hloc (h.walk_ne_found (fun _ h' => h.ordinary _ (List.mem_cons_of_mem name h'))
      (by omega))

/-- Without the last directory, the way to the parent has been created. -/
theorem parent {ahead' : List Bytes} {last : Bytes}
    (h : Created p v w lead dir name (ahead' ++ [last]) (ahead' ++ [last])) (hp : p.Named) :
    p.filename = last ∧
      Created p.parent v (v.makeChain dir (name :: ahead')) lead dir name ahead' ahead' := by
  have hnames := h.names
  rw [Path.names_eq_parent_append hp.filename, ← List.cons_append, ← List.append_assoc] at hnames
  obtain ⟨hlead, hlast⟩ := List.append_inj' hnames rfl
  have hsome : ∀ name' ∈ name :: ahead', name' ∈ name :: (ahead' ++ [last]) := fun _ hname' =>
    List.mem_append_left [last] hname'
  refine ⟨List.singleton_inj.mp hlast, {
    names := hlead
    ordinary := fun name' hname' => h.ordinary name' (hsome name' hname')
    leadsTo := ?_
    fresh := h.fresh
    further_prefix := List.prefix_refl _
    length_le := fun name' hname' => h.length_le name' (hsome name' hname')
    complete := fun _ => rfl
    path_le := ( Path.parent_prefix hp.filename).length_le.trans h.path_le
    volume := rfl }⟩
  rw [← start_of_parent hp rfl]
  exact h.leadsTo

/-- The directory itself is the last one created, in the one that holds it. -/
theorem exists_last (h : Created p v w lead dir name ahead ahead) (hp : p.Named) :
    ∃ u holder, u.Holder p holder ∧ p.filename.length ≤ maxName ∧
      (∀ more, u.node? (holder ++ p.filename :: more) = none) ∧
      w = u.put (holder ++ [p.filename]) .directory ∧
      (u = v ∨ ∃ ahead', Created p.parent v u lead dir name ahead' ahead') := by
  rcases List.eq_nil_or_concat ahead with rfl | ⟨ahead', last, rfl⟩
  · have hnames := h.names
    rw [Path.names_eq_parent_append hp.filename] at hnames
    obtain ⟨hlead, hname⟩ := List.append_inj' hnames rfl
    obtain rfl := List.singleton_inj.mp hname
    refine ⟨v, dir, ?_, h.length_le _ List.mem_cons_self, h.fresh, h.volume, .inl rfl⟩
    rw [Holder, hlead]
    exact h.leadsTo
  · rw [List.concat_eq_append] at h
    obtain ⟨rfl, hparent⟩ := h.parent hp
    refine ⟨_, dir ++ name :: ahead', ?_, ?_, ?_, ?_, .inr ⟨ahead', hparent⟩⟩
    · rw [Holder, start_of_parent hp rfl]
      exact hparent.leadsTo_end
    · exact h.length_le _ (by simp)
    · intro more
      rw [List.append_assoc, List.cons_append, hparent.node?_eq, if_neg]
      intro hprefix
      have := hprefix.length_le
      rw [List.length_append, List.length_cons] at this
      omega
    · rw [h.volume, ← List.cons_append, makeChain_concat]

end Created

end JarRepair.Volume

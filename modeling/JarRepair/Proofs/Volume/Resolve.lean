import JarRepair.Proofs.Volume.Walk

/-! # Finding what a path names

A path whose filename is an ordinary name stands for that name in the directory that holds it. A
trailing slash asks for a directory, and nothing else changes. -/

namespace JarRepair.Volume

variable {v w : Volume} {follow : Bool} {links : Nat} {base loc dir l : Location}
  {names : List Bytes}
  {name : Bytes} {p q : Path} {n : Node} {place : Place}

/-- Where the walk of a path starts. -/
def start (v : Volume) (p : Path) : Location := if p.isAbsolute then [] else v.workingDirectory

theorem start_parent (hname : p.hasFilename = true) : v.start p.parent = v.start p := by
  rw [start, start, Path.isAbsolute_parent hname]

theorem resolve_eq (h : (0 : UInt8) ∉ p) : v.resolve follow p =
    if p = [] then .error .notFound
    else if p.length > maxPath then .error .nameTooLong
    else v.walk follow maxLinks (v.start p) p.components := by
  rw [resolve, Path.takeWhile_of_notMem_zero h]
  rfl

theorem status_eq_present_iff :
    v.status p = .present loc n ↔ v.resolve true p = .ok (.found loc n) := by
  rw [status]
  constructor
  · intro h
    split at h <;> simp_all
  · intro h
    rw [h]

/-- What a path names is still there in a volume with more nodes. -/
theorem Within.resolve_eq {P : Node → Prop} (hw : Within P v w) (hP : ∀ n : Node, n.IsWay → P n)
    (hn : P n) (h : v.resolve follow p = .ok (.found loc n)) :
    w.resolve follow p = .ok (.found loc n) := by
  rw [resolve] at h ⊢
  split
  · rename_i hnil
    rw [if_pos hnil] at h
    simp at h
  · rename_i hnil
    rw [if_neg hnil] at h
    split
    · rename_i hlong
      rw [if_pos hlong] at h
      simp at h
    · rename_i hlong
      rw [if_neg hlong] at h
      rw [hw.workingDirectory]
      exact hw.walk_eq hP hn h

theorem Within.status_eq {P : Node → Prop} (hw : Within P v w) (hP : ∀ n : Node, n.IsWay → P n)
    (hn : P n) (h : v.status p = .present loc n) : w.status p = .present loc n :=
  status_eq_present_iff.mpr (hw.resolve_eq hP hn (status_eq_present_iff.mp h))

/-! ## Trailing slashes -/

/-- What a walk finds, if a directory is asked for. -/
def asDirectory : Except Refusal Place → Except Refusal Place
  | .ok (.found loc .directory) => .ok (.found loc .directory)
  | .ok (.found ..) => .error .notDirectory
  | .ok (.vacant _) => .error .notFound
  | .error e => .error e

theorem asDirectory_eq_found_iff {r : Except Refusal Place} :
    asDirectory r = .ok (.found loc n) ↔ n = .directory ∧ r = .ok (.found loc .directory) := by
  constructor
  · intro h
    rw [asDirectory.eq_def] at h
    split at h <;> simp_all
  · rintro ⟨rfl, rfl⟩
    rfl

theorem advance_slashed (v : Volume) (base : Location) (names : List Bytes) :
    (∃ r, v.advance true base names = .done r ∧
      v.advance true base (names ++ [Bytes.ascii "."]) = .done (asDirectory r)) ∨
    ∃ base' target rest, v.advance true base names = .jump base' target rest ∧
      v.advance true base (names ++ [Bytes.ascii "."]) =
        .jump base' target (rest ++ [Bytes.ascii "."]) := by
  induction names generalizing base with
  | nil => exact .inl ⟨_, rfl, advance_dot⟩
  | cons name names ih =>
    by_cases hdot : name = "."
    · simpa only [List.cons_append, advance, if_pos hdot] using ih base
    · by_cases hdots : name = ".."
      · simpa only [List.cons_append, advance, if_neg hdot, if_pos hdots] using ih base.dropLast
      · have hname : Path.isDots name = false := by simp [Path.isDots, hdot, hdots]
        simp only [List.cons_append, advance_name hname]
        by_cases hlength : name.length > maxName
        · exact .inl ⟨_, by rw [if_pos hlength], by rw [if_pos hlength]; rfl⟩
        · simp only [if_neg hlength]
          split
          · refine .inl ⟨_, rfl, ?_⟩
            rw [if_neg (by simp)]
            split <;> rfl
          · exact ih (base ++ [name])
          · rename_i target _
            exact .inr ⟨base, target, names, by simp, by simp⟩
          · rename_i n hdirectory hlink _
            refine .inl ⟨_, rfl, ?_⟩
            rw [if_neg (by simp)]
            split
            · cases n with
              | directory => exact absurd rfl hdirectory
              | _ => rfl
            · rfl

/-- A name with a slash after it stands for the same directory. -/
theorem walk_slashed (v : Volume) (links : Nat) (base : Location) (names : List Bytes) :
    v.walk true links base (names ++ [Bytes.ascii "."]) = asDirectory
      (v.walk true links base names) := by
  induction links generalizing base names with
  | zero =>
    rcases v.advance_slashed base names with ⟨r, h, h'⟩ | ⟨base', target, rest, h, h'⟩
    · rw [walk_of_done h, walk_of_done h']
    · rw [walk_of_jump h, walk_of_jump h']
      rfl
  | succ links ih =>
    rcases v.advance_slashed base names with ⟨r, h, h'⟩ | ⟨base', target, rest, h, h'⟩
    · rw [walk_of_done h, walk_of_done h']
    · rw [walk_of_jump h, walk_of_jump h']
      dsimp only
      split
      · rfl
      · rw [← List.append_assoc, ih]

theorem leadsTo_iff : v.LeadsTo base names loc ↔
    v.walk true maxLinks base names = .ok (.found loc .directory) := by
  rw [LeadsTo, walk_slashed, asDirectory_eq_found_iff, and_iff_right rfl]

/-- Without links and turning back, the names lead down to the directory, and only what is on the
way there matters. -/
theorem LeadsTo.of_linkFree (h : v.LeadsTo base names dir)
    (hstraight : ∀ name ∈ names.dropWhile Path.isDots, Path.isDots name = false)
    (hlink : ∀ l target, v.node? l ≠ some (.link target))
    (hnode : ∀ l, l <+: dir → w.node? l = v.node? l) : w.LeadsTo base names dir := by
  obtain ⟨top, htop⟩ := exists_advance_dots base fun name hname => List.mem_takeWhile_imp hname
  have hsplit (x : Volume) := htop x true (names.dropWhile Path.isDots)
  rw [List.takeWhile_append_dropWhile] at hsplit
  obtain ⟨r, hstep, hr⟩ :=
    exists_advance_ordinary v true top hstraight fun more target _ _ => hlink _ target
  rw [leadsTo_iff, walk_of_done ((hsplit v).trans hstep)] at h
  have hdir : dir = top ++ names.dropWhile Path.isDots := by
    rcases hr _ _ h with hnil | ⟨hloc, -⟩
    · rw [hnil, advance] at hstep
      rw [hnil, List.append_nil]
      exact (Place.found.inj (Except.ok.inj ((Walk.done.inj hstep).trans h))).1.symm
    · exact hloc
  rw [leadsTo_iff, ← h]
  refine walk_of_done ((hsplit w).trans (Eq.trans ?_ hstep))
  refine advance_congr hstraight fun more _ hmore => hnode _ ?_
  rwa [hdir, List.prefix_append_right_inj]

/-- The names of a path that is present lead there. -/
theorem walk_of_status (hzero : (0 : UInt8) ∉ p) (h : v.status p = .present loc n) :
    v.walk true maxLinks (v.start p) (Path.names p) = .ok (.found loc n) := by
  rw [status_eq_present_iff, resolve_eq hzero] at h
  split at h
  · simp at h
  · split at h
    · simp at h
    · rw [Path.components_eq hzero] at h
      split at h
      · exact h
      · rw [walk_slashed, asDirectory_eq_found_iff] at h
        rw [h.2, h.1]

theorem status_of_walk (hzero : (0 : UInt8) ∉ p) (hne : p ≠ []) (hlength : p.length ≤ maxPath)
    (h : v.walk true maxLinks (v.start p) (Path.names p) = .ok (.found loc n))
    (hn : p.hasFilename = true ∨ n = .directory) : v.status p = .present loc n := by
  rw [status_eq_present_iff, resolve_eq hzero, if_neg hne, if_neg (Nat.not_lt.mpr hlength),
    Path.components_eq hzero]
  split
  · exact h
  · rename_i hslashed
    rcases hn with hname | rfl
    · simp [hname] at hslashed
    · rw [walk_slashed, h]
      rfl

/-! ## The last name -/

/-- What is at a location. -/
def placeAt (v : Volume) (loc : Location) : Place :=
  match v.node? loc with
  | none => .vacant loc
  | some n => .found loc n

@[simp] theorem placeAt_eq_vacant_iff :
    v.placeAt loc = .vacant l ↔ l = loc ∧ v.node? loc = none := by
  rw [placeAt]
  cases v.node? loc <;> simp [eq_comm]

@[simp] theorem placeAt_eq_found_iff :
    v.placeAt loc = .found l n ↔ l = loc ∧ v.node? loc = some n := by
  rw [placeAt]
  cases v.node? loc <;> simp [eq_comm]

theorem walk_name_of_long (hname : Path.isDots name = false) (h : name.length > maxName) :
    v.walk follow links dir [name] = .error .nameTooLong :=
  walk_of_done (by rw [advance_name hname, if_pos h])

/-- The last step of a walk stays at a link unless it follows links. -/
theorem walk_name (hname : Path.isDots name = false) (h : name.length ≤ maxName)
    (hlink : follow = true → ∀ target, v.node? (dir ++ [name]) ≠ some (.link target)) :
    v.walk follow links dir [name] = .ok (v.placeAt (dir ++ [name])) := by
  refine walk_of_done ?_
  rw [advance_name hname, if_neg (by omega), placeAt]
  split
  · rename_i hnode
    rw [hnode]
    rfl
  · rename_i hnode
    rw [hnode, advance]
  · rename_i target hnode
    rw [hnode]
    cases follow with
    | true => exact absurd hnode (hlink rfl target)
    | false => rfl
  · rename_i hnode
    rw [hnode]
    rfl

/-! ## Named paths -/

/-- The path ends with a name that is neither `.` nor `..`. -/
structure Path.Named (p : Path) : Prop where
  zero : (0 : UInt8) ∉ p
  filename : p.hasFilename = true
  ordinary : Path.isDots p.filename = false

/-- Neither the path nor its filename is too long. -/
structure Path.Fits (p : Path) : Prop where
  path : p.length ≤ maxPath
  filename : p.filename.length ≤ maxName

/-- The directory that holds what the path names. -/
def Holder (v : Volume) (p : Path) (dir : Location) : Prop :=
  v.LeadsTo (v.start p) (Path.names p.parent) dir

instance (v : Volume) (p : Path) (dir : Location) : Decidable (v.Holder p dir) :=
  inferInstanceAs (Decidable (v.LeadsTo (v.start p) (Path.names p.parent) dir))

theorem Path.Named.ne_nil (hp : p.Named) : p ≠ [] := by
  rintro rfl
  have := hp.filename
  simp [Path.hasFilename] at this

theorem Path.Named.components (hp : p.Named) :
    p.components = Path.names p.parent ++ [p.filename] := by
  rw [Path.components_eq hp.zero, hp.filename, Bool.true_or, if_pos rfl,
    Path.names_eq_parent_append hp.filename]

theorem resolve_named (hp : p.Named) : v.resolve follow p =
    if p.length > maxPath then .error .nameTooLong
    else v.walk follow maxLinks (v.start p) (Path.names p.parent ++ [p.filename]) := by
  rw [resolve_eq hp.zero, if_neg hp.ne_nil, hp.components]

/-- In the directory that holds it, a path stands for its filename. -/
theorem Holder.resolve_eq (h : v.Holder p dir) (hp : p.Named) (hfits : p.Fits)
    (hlink : follow = true → ∀ target, v.node? (dir ++ [p.filename]) ≠ some (.link target)) :
    v.resolve follow p = .ok (v.placeAt (dir ++ [p.filename])) := by
  obtain ⟨links, hwalk⟩ := h.exists_walk
  rw [resolve_named hp, if_neg (Nat.not_lt.mpr hfits.path), hwalk follow _ (by simp),
    walk_name hp.ordinary hfits.filename hlink]

/-- A path that leads somewhere has a directory that holds it. -/
theorem exists_holder (hp : p.Named) (h : v.resolve follow p = .ok place) :
    ∃ dir, v.Holder p dir ∧ p.Fits := by
  rw [resolve_named hp] at h
  split at h
  · simp at h
  · rename_i hpath
    obtain ⟨dir, hdir⟩ := exists_leadsTo (by simp) h
    refine ⟨dir, hdir, Nat.not_lt.mp hpath, Nat.not_lt.mp fun hlong => ?_⟩
    obtain ⟨links, hwalk⟩ := hdir.exists_walk
    rw [hwalk follow _ (by simp), walk_name_of_long hp.ordinary hlong] at h
    simp at h

theorem exists_holder_of_resolve_false (hp : p.Named) (h : v.resolve false p = .ok place) :
    ∃ dir, v.Holder p dir ∧ p.Fits ∧ place = v.placeAt (dir ++ [p.filename]) := by
  obtain ⟨dir, hdir, hfits⟩ := exists_holder hp h
  rw [hdir.resolve_eq hp hfits (by simp)] at h
  exact ⟨dir, hdir, hfits, (Except.ok.inj h).symm⟩

theorem Holder.status_eq (h : v.Holder p dir) (hp : p.Named) (hfits : p.Fits)
    (hn : v.node? (dir ++ [p.filename]) = some n) (hlink : ∀ target, n ≠ .link target) :
    v.status p = .present (dir ++ [p.filename]) n := by
  rw [status_eq_present_iff, h.resolve_eq hp hfits]
  · rw [placeAt, hn]
  · rintro - target htarget
    exact hlink target (Option.some.inj (hn.symm.trans htarget))

/-- Nothing is found under a name that no directory has. -/
theorem resolve_ne_found (hp : p.Named)
    (h : ∀ dir, v.Holder p dir → v.node? (dir ++ [p.filename]) = none) :
    v.resolve follow p ≠ .ok (.found loc n) := by
  intro hfound
  obtain ⟨dir, hdir, hfits⟩ := exists_holder hp hfound
  rw [hdir.resolve_eq hp hfits (by simp [h dir hdir]), placeAt, h dir hdir] at hfound
  simp at hfound

theorem status_ne_present (hp : p.Named)
    (h : ∀ dir, v.Holder p dir → v.node? (dir ++ [p.filename]) = none) :
    v.status p ≠ .present loc n := by
  rw [Ne, status_eq_present_iff]
  exact resolve_ne_found hp h

theorem Holder.mono {P : Node → Prop} (h : v.Holder p dir) (hP : ∀ n : Node, n.IsWay → P n)
    (hw : Within P v w) : w.Holder p dir := by
  rw [Holder, start, hw.workingDirectory]
  exact LeadsTo.mono h hP hw

/-- In a directory, `.` and `..` lead to a directory. -/
theorem Holder.exists_status_dots (h : v.Holder p dir) (hzero : (0 : UInt8) ∉ p)
    (hname : p.hasFilename = true) (hdots : Path.isDots p.filename = true)
    (hlength : p.length ≤ maxPath) :
    ∃ loc, v.status p = .present loc .directory := by
  obtain ⟨links, hwalk⟩ := h.exists_walk
  obtain ⟨loc, hloc⟩ := exists_advance_dots dir (List.forall_mem_singleton.mpr hdots)
  have hstep := hloc v true []
  rw [List.append_nil, advance] at hstep
  refine ⟨loc, status_of_walk hzero ?_ hlength ?_ (.inr rfl)⟩
  · rintro rfl
    cases hname
  · rw [Path.names_eq_parent_append hname, hwalk true _ (by simp)]
    exact walk_of_done hstep

theorem Holder.unique {dir' : Location} (h : v.Holder p dir) (h' : v.Holder p dir') : dir = dir' :=
  LeadsTo.unique h h'

end JarRepair.Volume

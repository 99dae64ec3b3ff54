import JarRepair.Proofs.Volume.Creation

/-! # The sibling of an output path

What goes to a path is first put together beside it: at the path without trailing slashes and with
an ending. Both names are in one directory. -/

namespace JarRepair.Volume

variable {v w : Volume} {p r : Path} {dir loc : Location} {n : Node}

theorem length_le_of_present (hzero : (0 : UInt8) ∉ p) (h : v.status p = .present loc n) :
    p ≠ [] ∧ p.length ≤ maxPath := by
  rw [status_eq_present_iff, resolve_eq hzero] at h
  split at h
  · simp at h
  · rename_i hne
    split at h
    · simp at h
    · rename_i hlength
      exact ⟨hne, Nat.not_lt.mp hlength⟩

/-- Only a directory can be named with a slash at the end. -/
theorem hasFilename_of_status (hzero : (0 : UInt8) ∉ p) (h : v.status p = .present loc n)
    (hn : n ≠ .directory) : p.hasFilename = true := by
  have hlength := length_le_of_present hzero h
  rw [status_eq_present_iff, resolve_eq hzero, if_neg hlength.1, if_neg (Nat.not_lt.mpr hlength.2),
    Path.components_eq hzero] at h
  by_contra hname
  rw [Bool.not_eq_true] at hname
  rw [hname, Bool.false_or] at h
  split at h
  · rename_i hnames
    rw [eq_of_beq hnames] at h
    exact hn (Place.found.inj (Except.ok.inj h)).2.symm
  · rw [walk_slashed, asDirectory_eq_found_iff] at h
    exact hn h.1

/-- What a path names, it names without trailing slashes. -/
theorem status_withoutTrailingSlash (hzero : (0 : UInt8) ∉ p) (h : v.status p = .present loc n) :
    v.status p.withoutTrailingSlash = .present loc n := by
  rw [Path.withoutTrailingSlash_eq]
  split
  · exact h
  · rename_i htrim
    have hprefix := Path.trimSlashes_prefix p
    refine status_of_walk (fun h => hzero ( hprefix.subset h)) htrim
      ( hprefix.length_le.trans (length_le_of_present hzero h).2) ?_
      (.inl (Path.hasFilename_trimSlashes htrim))
    rw [Path.names_trimSlashes, start, Path.isAbsolute_of_prefix hprefix htrim]
    exact walk_of_status hzero h

/-- A directory is named with or without trailing slashes. -/
theorem status_of_withoutTrailingSlash (hzero : (0 : UInt8) ∉ p) (hlength : p.length ≤ maxPath)
    (h : v.status p.withoutTrailingSlash = .present loc .directory) :
    v.status p = .present loc .directory := by
  rw [Path.withoutTrailingSlash_eq] at h
  split at h
  · exact h
  · rename_i htrim
    have hprefix := Path.trimSlashes_prefix p
    refine status_of_walk hzero (List.IsPrefix.ne_nil hprefix htrim) hlength ?_ (.inr rfl)
    have hwalk := walk_of_status (fun h => hzero ( hprefix.subset h)) h
    rwa [Path.names_trimSlashes, start, Path.isAbsolute_of_prefix hprefix htrim] at hwalk

namespace Path

theorem slash_notMem_ending : slash ∉ Bytes.ascii ".tmp" := by decide

theorem way_withoutTrailingSlash (hzero : (0 : UInt8) ∉ p) : p.withoutTrailingSlash.Way := by
  rw [withoutTrailingSlash_eq]
  split
  · rename_i htrim
    exact ⟨hzero, .inr htrim⟩
  · rename_i htrim
    exact ⟨fun h => hzero (( trimSlashes_prefix p).subset h), .inl (hasFilename_trimSlashes htrim)⟩

/-- The path beside another. -/
def sibling (r : Path) : Path := r ++ Bytes.ascii ".tmp"

theorem hasFilename_sibling (r : Path) : hasFilename r.sibling = true :=
  hasFilename_append slash_notMem_ending (by decide)

theorem filename_sibling (r : Path) : filename r.sibling = filename r ++ Bytes.ascii ".tmp" := by
  rcases isStem_or_hasFilename r with hr | hr
  · have hnil := filename_append hr List.not_mem_nil
    rw [List.append_nil] at hnil
    rw [sibling, filename_append hr slash_notMem_ending, hnil, List.nil_append]
  · exact filename_append_tail slash_notMem_ending hr

theorem parent_sibling (hr : r.hasFilename = true) : parent r.sibling = parent r :=
  parent_append_tail slash_notMem_ending hr

theorem start_sibling (r : Path) : v.start r.sibling = v.start r := by
  have habsolute : r.sibling.isAbsolute = r.isAbsolute := by cases r <;> rfl
  rw [start, start, habsolute]

theorem ordinary_sibling (r : Path) : isDots (filename r.sibling) = false := by
  rw [filename_sibling, isDots, Bool.or_eq_false_iff, decide_eq_false_iff_not,
    decide_eq_false_iff_not]
  constructor
  · intro h
    have := congrArg List.length h
    simp [Bytes.ascii] at this
  · intro h
    have := congrArg List.length h
    simp [Bytes.ascii] at this

theorem filename_sibling_ne (r : Path) : filename r.sibling ≠ filename r := by
  intro h
  rw [filename_sibling, List.append_right_eq_self] at h
  exact absurd h (by decide)

namespace Way

variable (hr : r.Way)

include hr

theorem named_sibling : r.sibling.Named := by
  refine ⟨?_, hasFilename_sibling r, ordinary_sibling r⟩
  rw [sibling, List.mem_append, not_or]
  exact ⟨hr.zero, by decide⟩

/-- Either both are names in one directory, or the sibling has the first name. -/
theorem names_sibling :
    r.hasFilename = true ∧ r.parent = r.sibling.parent ∧
      names r = names r.sibling.parent ++ [r.filename] ∨
    names r = [] ∧ names r.sibling.parent = [] := by
  rcases hr.unslashed with hname | htrim
  · refine .inl ⟨hname, (parent_sibling hname).symm, ?_⟩
    rw [parent_sibling hname, names_eq_parent_append hname]
  · have hnil : names r = [] := by rw [← names_trimSlashes, htrim, names_nil]
    have hstem : IsStem r := (isStem_or_hasFilename r).resolve_right fun hname => by
      rw [trimSlashes_of_hasFilename hname] at htrim
      subst htrim
      simp [hasFilename] at hname
    have hnames := names_eq_parent_append (hasFilename_sibling r)
    rw [sibling, names_append hstem, hnil, names_of_notMem slash_notMem_ending, if_neg (by decide)]
      at hnames
    exact .inr ⟨hnil, (List.append_inj' hnames rfl).1.symm⟩

theorem way_sibling : r.sibling.Way := ⟨hr.named_sibling.zero, .inl (hasFilename_sibling r)⟩

end Way

end Path

/-- What is held by one directory goes by both names. -/
theorem holder_sibling_iff (hname : r.hasFilename = true) :
    v.Holder r.sibling dir ↔ v.Holder r dir := by
  rw [Holder, Holder, Path.parent_sibling hname, Path.start_sibling]

/-! ## Names that are missing -/

section

variable {lead ahead further : List Bytes} {name : Bytes} (hr : r.Way)

include hr

/-- A name that the sibling lacks is its own or is missing for the path too. -/
theorem Lacks.of_sibling (h : v.Lacks r.sibling lead dir name ahead) :
    ahead = [] ∨ ∃ between, ahead = between ++ [r.sibling.filename] ∧
      v.Lacks r lead dir name (between ++ [r.filename]) := by
  refine (List.eq_nil_or_concat ahead).imp_right ?_
  rintro ⟨between, last, rfl⟩
  have hsibling := h.names
  rw [List.concat_eq_append, Path.names_eq_parent_append (Path.hasFilename_sibling r),
    ← List.cons_append, ← List.append_assoc] at hsibling
  obtain ⟨hparent, hlast⟩ := List.append_inj' hsibling rfl
  obtain rfl := List.singleton_inj.mp hlast
  refine ⟨between, List.concat_eq_append, ?_, h.ordinary, Path.start_sibling r ▸ h.leadsTo,
    h.vacant⟩
  rcases hr.names_sibling with ⟨-, -, hnames⟩ | ⟨-, hnil⟩
  · rw [hnames, hparent, List.append_assoc, List.cons_append]
  · rw [hparent] at hnil
    simp at hnil

theorem Straight.sibling (h : v.Straight r) : v.Straight r.sibling := by
  intro lead dir name ahead hlacks name' hname'
  rcases hlacks.of_sibling hr with rfl | ⟨between, rfl, hlacks'⟩
  · cases hname'
  · rcases List.mem_append.mp hname' with hname' | hname'
    · exact h _ _ _ _ hlacks' name' (List.mem_append_left _ hname')
    · rw [List.mem_singleton.mp hname']
      exact Path.ordinary_sibling r

/-- Directories on the way to the one that would hold a path leave nothing at the path itself. -/
theorem Created.status_ne_present_of_parent (hs : v.Straight r) (hname : r.hasFilename = true)
    (h : Created r.parent v w lead dir name ahead further) : w.status r ≠ .present loc n := by
  have hlacks := h.lacks.of_parent hname
  refine h.status_ne_present hr.zero (start_parent hname).symm hlacks.names (hs _ _ _ _ hlacks) ?_
  have := h.further_prefix.length_le
  rw [List.length_append, List.length_singleton]
  omega

theorem Created.status_ne_present_of_sibling_parent (hs : v.Straight r)
    (h : Created r.sibling.parent v w lead dir name ahead further) :
    w.status r ≠ .present loc n := by
  rcases hr.names_sibling with ⟨hname, hparent, -⟩ | ⟨-, hnil⟩
  · rw [← hparent] at h
    exact h.status_ne_present_of_parent hr hs hname
  · have hnames := h.names
    rw [hnil] at hnames
    simp at hnames

/-- Some but not all directories on the way to the sibling leave nothing at the path itself. -/
theorem Created.status_ne_present_of_sibling (hs : v.Straight r)
    (h : Created r.sibling v w lead dir name ahead further) (hne : further ≠ ahead) :
    w.status r ≠ .present loc n := by
  rcases h.lacks.of_sibling hr with rfl | ⟨between, rfl, hlacks⟩
  · exact absurd (List.prefix_nil.mp h.further_prefix) hne
  · refine h.status_ne_present hr.zero (Path.start_sibling r).symm hlacks.names
      (hs _ _ _ _ hlacks) ?_
    have hlength := h.further_prefix.length_le
    have hlt : further.length ≠ (between ++ [r.sibling.filename]).length :=
      fun heq => hne (h.further_prefix.eq_of_length heq)
    rw [List.length_append, List.length_singleton] at hlength hlt ⊢
    omega

end

/-! ## Whatever becomes of the path and its sibling -/

/-- The location is at the path or its sibling, or below one of them. -/
def Under (r : Path) (v : Volume) (l : Location) : Prop :=
  (∃ dir, v.Holder r dir ∧ dir ++ [r.filename] <+: l) ∨
    ∃ dir, v.Holder r.sibling dir ∧ dir ++ [r.sibling.filename] <+: l

/-- Whatever becomes of the path and its sibling, on the way to the path no `.` and no `..` comes
after a name that is missing. -/
def Firm (v : Volume) (r : Path) : Prop := ∀ w, AgreeOff (Under r v) v w → w.Straight r

theorem Path.Straight.firm (h : r.Straight) (v : Volume) : v.Firm r := fun w _ => h.straight w

/-- It is enough that the names up to the last of these lead to a directory, on a way that neither
the path nor its sibling is part of. -/
theorem firm_of_leadsTo {front back : List Bytes} (hnames : Path.names r = front ++ back)
    (hback : ∀ name ∈ back, Path.isDots name = false) (hfront : v.LeadsTo (v.start r) front dir)
    (hunder : ∀ l n, Under r v l → v.node? l = some n → ¬n.IsWay) : v.Firm r := by
  intro w hw lead d name ahead hlacks name' hname'
  have hlead := hfront.mono (fun _ => id) (hw.within hunder)
  have hsplit := hlacks.names.symm.trans hnames
  rcases List.append_eq_append_iff.mp hsplit with ⟨more, rfl, hmore⟩ | ⟨more, rfl, hmore⟩
  · rcases more with _ | ⟨first, more⟩
    · refine hback name' ?_
      rw [← hmore.trans (List.nil_append back)]
      exact List.mem_cons_of_mem name hname'
    · -- the names in front are not missing
      obtain ⟨rfl, -⟩ := List.cons.inj hmore
      have hstart : w.start r = v.start r := by rw [start, start, hw.workingDirectory]
      exact absurd (hstart ▸ hlead) (hlacks.leadsTo.not_through hlacks.ordinary hlacks.vacant)
  · refine hback name' ?_
    rw [hmore]
    exact List.mem_append_right more (List.mem_cons_of_mem name hname')

theorem Lacks.of_agree {lead ahead : List Bytes} {name : Bytes}
    (hvw : AgreeOff (fun _ => False) v w) (h : w.Lacks p lead dir name ahead) :
    v.Lacks p lead dir name ahead := by
  have hwv : Within (fun _ => True) w v := hvw.symm.within fun _ _ => False.elim
  refine ⟨h.names, h.ordinary, ?_, hvw.node? _ id ▸ h.vacant⟩
  rw [start, hwv.workingDirectory]
  exact h.leadsTo.mono (fun _ _ => trivial) hwv

namespace Firm

variable (h : v.Firm r)

include h

theorem straight : v.Straight r := h v (.refl _ v)

theorem of_part (hw : AgreeOff (Under r v) v w) (hpart : Within (fun _ => True) w v) :
    w.Firm r := by
  refine fun u hu => h u (hw.trans (hu.mono ?_))
  rintro l (⟨dir, hdir, hl⟩ | ⟨dir, hdir, hl⟩)
  · exact .inl ⟨dir, hdir.mono (fun _ _ => trivial) hpart, hl⟩
  · exact .inr ⟨dir, hdir.mono (fun _ _ => trivial) hpart, hl⟩

theorem cleared (hw : Cleared r v w) : w.Firm r :=
  h.of_part ⟨hw.part.workingDirectory.symm, fun l hl => hw.spares l fun dir hdir hp =>
    hl (.inl ⟨dir, hdir, hp⟩)⟩ hw.part

theorem cleared_sibling (hw : Cleared r.sibling v w) : w.Firm r :=
  h.of_part ⟨hw.part.workingDirectory.symm, fun l hl => hw.spares l fun dir hdir hp =>
    hl (.inr ⟨dir, hdir, hp⟩)⟩ hw.part

end Firm

end JarRepair.Volume

import JarRepair.Archive.Path
import JarRepair.Proofs.Volume.Creation

/-! # Writing below a directory

A directory that holds no links encloses what is written to paths below it: such paths have no `..`
but at their end, where a zero byte may have cut a name off, and there it only leads to a
directory. -/

namespace JarRepair.Volume

variable {u v w : Volume} {follow : Bool} {links : Nat} {dir loc l : Location} {names : List Bytes}
  {z p : Path} {n : Node}

/-! ## Walks within a directory -/

/-- The place is within the directory, or a directory. -/
def Place.Inside (dir : Location) : Place → Prop
  | .found loc n => n = .directory ∨ dir <+: loc
  | .vacant loc => dir <+: loc

theorem exists_advance_inside (v : Volume) (follow : Bool) (dir : Location) (names : List Bytes)
    (hlinks : ∀ more target, v.node? (dir ++ more) ≠ some (.link target))
    (hnames : Bytes.ascii ".." ∉ names.dropLast) (inner : Location) :
    ∃ r, v.advance follow (dir ++ inner) names = .done r ∧ ∀ place, r = .ok place →
      place.Inside dir := by
  induction names generalizing inner with
  | nil => exact ⟨_, rfl, fun _ hr => Except.ok.inj hr ▸ .inl rfl⟩
  | cons name names ih =>
    have hrest : Bytes.ascii ".." ∉ names.dropLast := fun h => hnames (by
      cases names with
      | nil => simp at h
      | cons => exact List.mem_cons_of_mem name h)
    by_cases hdot : name = "."
    · simpa only [advance, if_pos hdot] using ih hrest inner
    · by_cases hdots : name = ".."
      · obtain rfl : names = [] := by
          by_contra hne
          obtain ⟨next, names, rfl⟩ := List.exists_cons_of_ne_nil hne
          exact hnames (by simp [hdots])
        rw [advance, if_neg hdot, if_pos hdots, advance]
        exact ⟨_, rfl, fun _ hr => Except.ok.inj hr ▸ .inl rfl⟩
      · rw [advance_name (by simp [Path.isDots, hdot, hdots])]
        have hinside : dir <+: dir ++ inner ++ [name] := by
          rw [List.append_assoc]
          exact List.prefix_append dir _
        split
        · exact ⟨_, rfl, fun _ hr => by simp at hr⟩
        · split
          · refine ⟨_, rfl, fun _ hr => ?_⟩
            split at hr
            · exact Except.ok.inj hr ▸ hinside
            · simp at hr
          · rw [List.append_assoc]
            exact ih hrest (inner ++ [name])
          · rename_i target hnode
            rw [List.append_assoc] at hnode
            exact absurd hnode (hlinks _ target)
          · refine ⟨_, rfl, fun _ hr => ?_⟩
            split at hr
            · exact Except.ok.inj hr ▸ .inr hinside
            · simp at hr

/-! ## Paths below a path -/

/-- The path goes on from another one, with names that an entry can have. -/
def Path.Below (z p : Path) : Prop :=
  ∃ q, p = z ++ Path.slash :: q ∧ ∀ name ∈ Bytes.split Path.slash q,
    Archive.Path.isProper name = true

theorem Path.Below.hasFilename (h : Path.Below z p) : p.hasFilename = true := by
  obtain ⟨q, rfl, hq⟩ := h
  rcases Path.exists_last_slash q with hslash | ⟨a, b, hslash, rfl⟩
  · rw [List.append_cons]
    refine Path.hasFilename_append hslash ?_
    rintro rfl
    simp [Archive.Path.isProper] at hq
  · rw [Bytes.split_append_sep, Bytes.split_of_notMem hslash] at hq
    rw [List.append_cons, List.append_cons _ _ b, ← List.append_assoc]
    refine Path.hasFilename_append hslash ?_
    rintro rfl
    exact absurd (hq [] (by simp)) (by decide)

theorem Path.Below.parent (h : Path.Below z p) (hz : z.hasFilename = true) :
    p.parent = z ∨ Path.Below z p.parent := by
  obtain ⟨q, rfl, hq⟩ := h
  have hproper {b : Bytes} (hb : b ∈ Bytes.split Path.slash q) : b ≠ [] := by
    rintro rfl
    simpa [Archive.Path.isProper] using hq [] hb
  rcases Path.exists_last_slash q with hslash | ⟨a, b, hslash, rfl⟩
  · rw [Bytes.split_of_notMem hslash] at hproper
    refine .inl ?_
    rw [List.append_cons, Path.parent_append (.inr ⟨z, rfl⟩) hslash (hproper List.mem_cons_self),
      if_neg (by simp), Path.trimSlashes_slashed, Path.trimSlashes_of_hasFilename hz, if_neg]
    rintro rfl
    simp [Path.hasFilename] at hz
  · rw [Bytes.split_append_sep, Bytes.split_of_notMem hslash] at hproper hq
    have hbelow : Path.Below z (z ++ Path.slash :: a) :=
      ⟨a, rfl, fun name hname => hq name (List.mem_append_left _ hname)⟩
    refine .inr ?_
    have hpath :
        z ++ Path.slash :: (a ++ Path.slash :: b) = z ++ Path.slash :: a ++ [Path.slash] ++ b := by
      simp
    rw [hpath, Path.parent_append (.inr ⟨_, rfl⟩) hslash (hproper (by simp)), if_neg (by simp),
      Path.trimSlashes_slashed, Path.trimSlashes_of_hasFilename hbelow.hasFilename,
      if_neg (by simp)]
    exact hbelow

/-! ## Staging directories -/

/-- The volume `v` has a directory at `z`, where nothing is in `u`, and is like `u` elsewhere. The
directory is free of links. -/
structure Staged (z : Path) (u v : Volume) (dir : Location) : Prop where
  holder : u.Holder z dir
  vacant : ∀ more, u.node? (dir ++ z.filename :: more) = none
  workingDirectory : v.workingDirectory = u.workingDirectory
  outside : ∀ l, ¬dir ++ [z.filename] <+: l → v.node? l = u.node? l
  directory : v.node? (dir ++ [z.filename]) = some .directory
  linkFree : ∀ more target, v.node? (dir ++ z.filename :: more) ≠ some (.link target)

/-- A directory that has just been created is empty. -/
theorem Created.exists_staged {lead ahead : List Bytes} {d : Location} {name : Bytes} (hz : z.Named)
    (h : Created z w v lead d name ahead ahead) :
    ∃ u dir, Staged z u v dir ∧ z.Fits ∧ v = u.put (dir ++ [z.filename]) .directory ∧
      (u = w ∨ ∃ ahead', Created z.parent w u lead d name ahead' ahead') := by
  obtain ⟨u, dir, hholder, hlength, hvacant, rfl, hu⟩ := h.exists_last hz
  refine ⟨u, dir, ⟨hholder, hvacant, rfl, fun l hl => ?_, ?_, fun more target => ?_⟩,
    ⟨h.path_le, hlength⟩, rfl, hu⟩
  · rw [node?_put (by simp), if_neg]
    rintro rfl
    exact hl (List.prefix_refl _)
  · rw [node?_put (by simp), if_pos rfl]
  · rw [node?_put (by simp)]
    split
    · simp
    · simp [hvacant]

namespace Staged

theorem within (h : Staged z u v dir) (P : Node → Prop) : Within P u v := by
  refine ⟨h.workingDirectory, fun l n _ hn => ?_⟩
  rw [h.outside, hn]
  rintro ⟨more, rfl⟩
  rw [← List.append_cons, h.vacant] at hn
  simp at hn

theorem holder_staged (h : Staged z u v dir) : v.Holder z dir :=
  h.holder.mono (fun _ _ => trivial) (h.within (fun _ => True))

/-- A file or a directory below is put in place of a file, or of nothing. -/
theorem put (h : Staged z u v dir) (hloc : dir ++ [z.filename] <+: loc)
    (hway : ∀ m, v.node? loc = some m → ¬m.IsWay) (hn : ∀ target, n ≠ .link target)
    (hw : w.workingDirectory = v.workingDirectory)
    (hnode : ∀ l, w.node? l = if l = loc then some n else v.node? l) : Staged z u w dir where
  holder := h.holder
  vacant := h.vacant
  workingDirectory := hw.trans h.workingDirectory
  outside l hl := by
    rw [hnode, if_neg, h.outside l hl]
    rintro rfl
    exact hl hloc
  directory := by
    rw [hnode, if_neg, h.directory]
    rintro rfl
    exact hway _ h.directory trivial
  linkFree more target := by
    rw [hnode]
    split
    · exact fun heq => hn target (Option.some.inj heq)
    · exact h.linkFree more target

theorem leadsTo (h : Staged z u v dir) (hz : z.Named) (hfits : z.Fits) :
    v.LeadsTo (v.start z) (Path.names z) (dir ++ [z.filename]) := by
  rw [Path.names_eq_parent_append hz.filename]
  exact h.holder_staged.concat hz.ordinary hfits.filename h.directory

/-- What is below the staging directory by its path is inside it. -/
theorem inside_of_resolve (h : Staged z u v dir) (hz : z.Named) (hfits : z.Fits)
    (hp : Path.Below z p) {place : Place} (hresolve : v.resolve follow p = .ok place) :
    place.Inside (dir ++ [z.filename]) := by
  obtain ⟨q, rfl, hq⟩ := hp
  have hleads := h.leadsTo hz hfits
  have hnames : Path.names z ≠ [] := by simp [Path.names_eq_parent_append hz.filename]
  obtain ⟨front, last, hcomponents, hfront⟩ := Path.exists_components_below hz.zero hnames q
  have hwalk :
      v.walk follow maxLinks (v.start z) (Path.names z ++ (front ++ [last])) = .ok place := by
    rw [resolve, Path.components_takeWhile, hcomponents] at hresolve
    split at hresolve
    · simp at hresolve
    · split at hresolve
      · simp at hresolve
      · rw [← hresolve, start]
        obtain ⟨b, z, rfl⟩ := List.exists_cons_of_ne_nil hz.ne_nil
        have hb : (b != 0) = true := by
          rw [bne_iff_ne]
          rintro rfl
          exact hz.zero List.mem_cons_self
        have hcut : (b :: z ++ Path.slash :: q).takeWhile (· != 0) =
            b :: (z ++ Path.slash :: q).takeWhile (· != 0) :=
          List.takeWhile_cons_of_pos (p := (· != 0)) hb
        rw [hcut]
        rfl
  obtain ⟨links, hrest⟩ := hleads.exists_walk
  obtain ⟨r, hstep, hr⟩ := exists_advance_inside v follow (dir ++ [z.filename]) (front ++ [last])
    (fun more target => by
      rw [← List.append_cons]
      exact h.linkFree more target)
    (by
      rw [List.dropLast_concat]
      exact fun hdots => absurd (hq _ (hfront _ hdots)) (by decide)) []
  rw [hrest follow _ (by simp)] at hwalk
  rw [List.append_nil] at hstep
  exact hr place ((walk_of_done hstep).symm.trans hwalk)

theorem makeDirectory (h : Staged z u v dir) (hz : z.Named) (hfits : z.Fits) (hp : Path.Below z p)
    (hw : v.makeDirectory p = .ok w) : Staged z u w dir := by
  rcases exists_of_makeDirectory hw with ⟨-, rfl⟩ | ⟨loc, hresolve, rfl⟩
  · exact h
  · obtain ⟨hne, hnode⟩ := isIn_of_resolve hresolve
    exact h.put (h.inside_of_resolve hz hfits hp hresolve) (by simp [hnode]) (by simp) rfl
      fun l => node?_put hne

theorem makeAll {paths : List Path} (h : Staged z u v dir) (hz : z.Named) (hfits : z.Fits)
    (hpaths : ∀ p ∈ paths, Path.Below z p) : Staged z u (v.makeAll paths).2 dir := by
  induction paths generalizing v with
  | nil => exact h
  | cons p paths ih =>
    rw [List.forall_mem_cons] at hpaths
    rw [Volume.makeAll]
    split
    · rename_i w hw
      exact ih (h.makeDirectory hz hfits hpaths.1 hw) hpaths.2
    · exact h

theorem status_eq (h : Staged z u v dir) (hz : z.Named) (hfits : z.Fits) :
    v.status z = .present (dir ++ [z.filename]) .directory :=
  h.holder_staged.status_eq hz hfits h.directory (by simp)

/-- The climb to what exists ends at the staging directory. -/
theorem below_of_missingAbove (h : Staged z u v dir) (hz : z.Named) (hfits : z.Fits) {fuel : Nat}
    {paths missing : List Path} (hp : Path.Below z p) (hpaths : ∀ q ∈ paths, Path.Below z q)
    (hmissing : v.missingAbove fuel p paths = .ok missing) : ∀ q ∈ missing, Path.Below z q := by
  induction fuel generalizing p paths with
  | zero => exact Except.ok.inj hmissing ▸ hpaths
  | succ fuel ih =>
    have hall : ∀ q ∈ gather p paths, Path.Below z q := by
      rw [gather]
      split
      · exact hpaths
      · exact List.forall_mem_cons.mpr ⟨hp, hpaths⟩
    rcases missingAbove_step hmissing with rfl | ⟨-, habsent, hmissing⟩
    · exact hall
    · rcases hp.parent hz.filename with hparent | hparent
      · rw [hparent, h.status_eq hz hfits] at habsent
        simp at habsent
      · exact ih hparent hall hmissing

/-- Creating directories below keeps to the staging directory. -/
theorem makeDirectories (h : Staged z u v dir) (hz : z.Named) (hfits : z.Fits)
    (hp : p = z ∨ Path.Below z p) : Staged z u (v.makeDirectories p).2 dir := by
  rw [Volume.makeDirectories]
  split
  · exact h
  · split
    · exact h
    · exact h
    · exact h
    · rename_i habsent
      rcases hp with rfl | hp
      · simp [h.status_eq hz hfits] at habsent
      · rw [Path.withoutTrailingSlash, if_pos hp.hasFilename]
        split
        · exact h
        · rename_i missing hmissing
          exact h.makeAll hz hfits (h.below_of_missingAbove hz hfits hp (by simp) hmissing)

theorem write? {content : Bytes} (h : Staged z u v dir) (hz : z.Named) (hfits : z.Fits)
    (hp : Path.Below z p) (hw : v.write? p content = some w) : Staged z u w dir := by
  obtain ⟨loc, number, -, hcwd, hnode, ⟨hresolve, hthere⟩ | ⟨old, hresolve, hthere⟩⟩ :=
    node?_of_write? hw
  · exact h.put (h.inside_of_resolve hz hfits hp hresolve) (by simp [hthere]) (by simp) hcwd hnode
  · refine h.put
      ((h.inside_of_resolve hz hfits hp hresolve).resolve_left (by simp)) ?_ (by simp) hcwd hnode
    intro m hm
    rw [hthere] at hm
    obtain rfl := Option.some.inj hm
    exact id

/-- Once it is dropped, all is as it was. -/
theorem exists_removeAll (h : Staged z u v dir) (hz : z.Named) (hfits : z.Fits) :
    ∃ w, v.removeAll z = (.ok (), w) ∧ w.workingDirectory = u.workingDirectory ∧
      ∀ l, w.node? l = u.node? l := by
  have hbelow : Within (fun _ => True) u (v.eraseBelow (dir ++ [z.filename])) := by
    refine ⟨h.workingDirectory, fun l n _ hn => ?_⟩
    rw [node?_eraseBelow, if_neg, (h.within (fun _ => True)).node? l n trivial hn]
    rintro ⟨-, more, rfl⟩
    rw [← List.append_cons, h.vacant] at hn
    simp at hn
  obtain ⟨w, hremove, hw, hnode⟩ := h.holder_staged.removeAll_directory
    (h.holder.mono (fun _ _ => trivial) hbelow) hz hfits h.directory
  refine ⟨w, hremove, hw.trans h.workingDirectory, fun l => ?_⟩
  rw [hnode]
  split
  · rename_i hl
    obtain ⟨more, rfl⟩ := hl
    rw [← List.append_cons, h.vacant]
  · rename_i hl
    exact h.outside l hl

end Staged

end JarRepair.Volume

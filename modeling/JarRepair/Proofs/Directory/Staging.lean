import JarRepair.Directory.Writer
import JarRepair.Proofs.Archive.Path
import JarRepair.Proofs.Volume.Leftover

/-! # The staging directory of a writer

A writer that is under way has touched nothing but its staging directory and the parents of it. What
it is told to write keeps to the staging directory, and what is there goes when the writer is
dropped. -/

namespace JarRepair.Directory.Writer

open JarRepair.Volume

variable {w : Writer} {v v₀ : Volume} {r : Volume.Path}

theorem staging_eq (w : Writer) : w.staging = w.root.sibling := rfl

/-- What holds of the writer and the volume after a step, whether it ends well or not. -/
def Step.Ensures (s : Step) (Q E : Writer → Volume → Prop) : Prop :=
  match s with
  | (.ok (), w, v) => Q w v
  | (.error _, w, v) => E w v

/-- The writer has staged: all that is new in the volume is in its staging directory. -/
structure HasStaged (r : Volume.Path) (v₀ v : Volume) (u : Volume) (dir : Location) : Prop where
  staged : Staged r.sibling u v dir
  fits : r.sibling.Fits
  leftover : Leftover r v₀ u
  apart : r.hasFilename = true → ∀ l n, v₀.Away r l → v₀.node? l = some n →
    ¬dir ++ [r.filename] <+: l

/-- A writer for the root `r` that has not finished, in a volume that was `v₀` before. -/
structure Underway (r : Volume.Path) (v₀ : Volume) (w : Writer) (v : Volume) : Prop where
  root : w.root = r
  finished : w.finished = false
  volume : w.staged = false ∧ v = v₀ ∨ w.staged = true ∧ ∃ u dir, HasStaged r v₀ v u dir

/-- After the writer is dropped there is nothing new at the root. -/
def Dropped (r : Volume.Path) (v₀ : Volume) (w : Writer) (v : Volume) : Prop :=
  Leftover r v₀ (w.drop v).2

theorem drop_of_staged (hstaged : w.staged = true) (hfinished : w.finished = false) :
    (w.drop v).2 = (v.removeAll w.staging).2 := by
  rw [drop, hstaged, hfinished, Bool.not_false, Bool.and_true, if_pos rfl]
  rcases v.removeAll w.staging with ⟨_ | ⟨⟩, v'⟩ <;> rfl

theorem Underway.dropped (hr : r.Way) (h : Underway r v₀ w v) : Dropped r v₀ w v := by
  rw [Dropped]
  rcases h.volume with ⟨hstaged, rfl⟩ | ⟨hstaged, u, dir, hvolume⟩
  · rw [drop, hstaged]
    exact .refl r v
  · rw [drop_of_staged hstaged h.finished, staging_eq, h.root]
    obtain ⟨v', hremove, hcwd, hnode⟩ :=
      hvolume.staged.exists_removeAll hr.named_sibling hvolume.fits
    rw [hremove]
    exact hvolume.leftover.congr hcwd hnode

/-- Nothing was at the staging path when a directory is created there. -/
theorem exists_hasStaged (hr : r.Way) {va vb : Volume} (hcleared : Cleared r.sibling v₀ va)
    (hs : va.Straight r) {lead ahead : List Bytes} {dir : Location} {name : Bytes}
    (hcreated : Created r.sibling va vb lead dir name ahead ahead) :
    ∃ u holder, HasStaged r v₀ vb u holder := by
  obtain ⟨u, holder, hstaged, hfits, -, hu⟩ := hcreated.exists_staged hr.named_sibling
  have hholder := hstaged.holder
  have hpart := hcleared.part
  have hspares : Spares r v₀ va := spares_of_cleared hcleared
  refine ⟨u, holder, hstaged, hfits, ?_, ?_⟩
  · rcases hu with rfl | ⟨ahead', hparent⟩
    · exact ⟨.inl hpart, hspares⟩
    · exact ⟨.inr fun loc n => hparent.status_ne_present_of_sibling_parent hr hs,
        fun l n hl hn => (hparent.within (fun _ => True)).node? l n trivial (hspares l n hl hn)⟩
  · intro hname l n hl hn
    rcases hu with rfl | ⟨ahead', hparent⟩
    · exact hl.path holder ((holder_sibling_iff hname).mp
        (hholder.mono (fun _ _ => trivial) hpart))
    · have hend := hparent.leadsTo_end
      rw [← start_of_parent hr.named_sibling rfl] at hend
      obtain rfl := LeadsTo.unique hend hholder
      rintro ⟨more, rfl⟩
      have hva := hspares _ n hl hn
      rw [List.append_assoc, List.append_assoc, List.cons_append, hparent.fresh] at hva
      simp at hva

theorem Underway.stage (hr : r.Way) (hfirm : v₀.Firm r) (hv₀ : v₀.IsTree) (h : Underway r v₀ w v) :
    (w.stage v).Ensures (fun w' v' => Underway r v₀ w' v' ∧ w'.staged = true) (Dropped r v₀) := by
  rw [Writer.stage]
  by_cases hstaged : w.staged = true
  · rw [if_pos hstaged]
    exact ⟨h, hstaged⟩
  · rw [if_neg hstaged, staging_eq, h.root]
    obtain ⟨-, rfl⟩ := h.volume.resolve_right fun hvolume => hstaged hvolume.1
    have hdropped {v' : Volume} (hleft : Leftover r v v') : Dropped r v w v' := by
      rwa [Dropped, drop, eq_false_of_ne_true hstaged]
    have hcleared := cleared_removeAll (v := v) hr.named_sibling
    have hpart : Leftover r v (v.removeAll r.sibling).2 :=
      ⟨.inl hcleared.part, spares_of_cleared hcleared⟩
    dsimp only
    rcases hremove : v.removeAll r.sibling with ⟨_ | ⟨⟩, va⟩
    · rw [hremove] at hpart
      exact hdropped hpart
    · rw [hremove] at hcleared hpart
      dsimp only at hcleared hpart ⊢
      have hs := (hfirm.cleared_sibling hcleared).straight
      have hcases :=
        makeDirectories_cases ((hcleared.tree hv₀).grounded _) (hs.sibling hr) hr.way_sibling
      rcases hmake : va.makeDirectories r.sibling with ⟨_ | ⟨⟩, vb⟩ <;> rw [hmake] at hcases <;>
        dsimp only at hcases ⊢
      · refine hdropped ?_
        rcases hcases with ⟨rfl, -⟩ | ⟨lead, dir, name, ahead, further, hcreated, hiff⟩
        · exact hpart
        · refine ⟨.inr fun loc n => hcreated.status_ne_present_of_sibling hr hs fun heq => ?_,
            fun l n hl hn => (hcreated.within (fun _ => True)).node? l n trivial
            (hpart.spares l n hl hn)⟩
          exact absurd (hiff.mpr heq) (by simp)
      · rcases hcases with ⟨rfl, hpresent⟩ | ⟨lead, dir, name, ahead, further, hcreated, hiff⟩
        · obtain ⟨loc, hloc⟩ := hpresent hr.named_sibling rfl
          exact absurd hloc (status_ne_present hr.named_sibling fun dir hdir =>
            node?_of_removeAll hr.named_sibling hremove hdir)
        · obtain rfl := hiff.mp rfl
          exact ⟨⟨rfl, h.finished, .inr ⟨rfl, exists_hasStaged hr hcleared hs hcreated⟩⟩, rfl⟩

/-- A step below the staging directory keeps to it. -/
theorem Underway.write (h : Underway r v₀ w v) (hstaged : w.staged = true) {v' : Volume}
    (hwrite : ∀ u dir, r.sibling.Fits → Staged r.sibling u v dir → Staged r.sibling u v' dir) :
    Underway r v₀ w v' := by
  obtain ⟨-, u, dir, hvolume⟩ := h.volume.resolve_left fun hvolume => by simp [hstaged] at hvolume
  exact ⟨h.root, h.finished, .inr ⟨hstaged, u, dir,
    { hvolume with staged := hwrite u dir hvolume.fits hvolume.staged }⟩⟩

/-- A path without fault goes on below `z`, and all its names are proper. -/
theorem join_eq_of_fault? {z : Volume.Path} {p : Archive.Path} (hp : p.fault? = none)
    (hz : z.hasFilename = true) : z.join p = z ++ Volume.Path.slash :: p ∧
      ∀ name ∈ p.components, Archive.Path.isProper name = true := by
  obtain ⟨-, hproper⟩ := Archive.Path.fault?_eq_none_iff.mp hp
  obtain ⟨hne, hhead, -⟩ := Archive.Path.ends_of_fault? hp
  exact ⟨Volume.Path.join_eq hz hne hhead, hproper⟩

theorem below_join {z : Volume.Path} {p : Archive.Path} (hp : p.fault? = none)
    (hz : z.hasFilename = true) :
    Volume.Path.Below z (z.join p) := by
  obtain ⟨hjoin, hproper⟩ := join_eq_of_fault? hp hz
  exact ⟨p, hjoin, hproper⟩

/-- Whatever is added below the staging directory, the writer is still under way; if it cannot be
added, nothing new is left once the writer is dropped. -/
theorem Underway.add (hr : r.Way) (hfirm : v₀.Firm r) (hv₀ : v₀.IsTree) (h : Underway r v₀ w v)
    {p : Archive.Path} {name : Bytes} {write : Volume.Path → Volume → Except Error Unit × Volume}
    (hwrite : ∀ q, Volume.Path.Below r.sibling q → ∀ u v dir, r.sibling.Fits →
      Staged r.sibling u v dir → Staged r.sibling u (write q v).2 dir) :
    (w.add p name write v).Ensures (Underway r v₀) (Dropped r v₀) := by
  rw [Writer.add, if_neg (by simp [h.finished])]
  split
  · exact h.dropped hr
  · rename_i hfault
    split
    · exact h.dropped hr
    · have hstage := Underway.stage (w := { w with written := w.written.insert name }) hr hfirm hv₀
        ⟨h.root, h.finished, h.volume⟩
      split
      · rename_i hstep
        rw [hstep] at hstage
        exact hstage
      · rename_i w' v' hstep
        rw [hstep] at hstage
        obtain ⟨h', hstaged⟩ := hstage
        have hbelow := below_join hfault (Volume.Path.hasFilename_sibling r)
        rw [staging_eq, h'.root]
        have hdone := h'.write hstaged fun u dir hfits hdir => hwrite _ hbelow u v' dir hfits hdir
        rcases hstep' : write (r.sibling.join p) v' with ⟨_ | ⟨⟩, v''⟩ <;> rw [hstep'] at hdone
        · exact hdone.dropped hr
        · exact hdone

theorem Underway.addDirectory (hr : r.Way) (hfirm : v₀.Firm r) (hv₀ : v₀.IsTree)
    (h : Underway r v₀ w v) (p : Archive.Path) :
    (w.addDirectory p v).Ensures (Underway r v₀) (Dropped r v₀) := by
  refine h.add hr hfirm hv₀ fun q hq u v dir hfits hdir => ?_
  exact hdir.makeDirectories hr.named_sibling hfits (.inr hq)

theorem Underway.addFile (hr : r.Way) (hfirm : v₀.Firm r) (hv₀ : v₀.IsTree) (h : Underway r v₀ w v)
    (p : Archive.Path) (data : Bytes) :
    (w.addFile p data v).Ensures (Underway r v₀) (Dropped r v₀) := by
  refine h.add hr hfirm hv₀ fun q hq u v dir hfits hdir => ?_
  have hparent := hdir.makeDirectories hr.named_sibling hfits
    (hq.parent (Volume.Path.hasFilename_sibling r))
  rw [writeFile]
  rcases hmake : v.makeDirectories q.parent with ⟨_ | ⟨⟩, v'⟩ <;> rw [hmake] at hparent
  · exact hparent
  · dsimp only
    split
    · rename_i v'' hwrite
      exact hparent.write? hr.named_sibling hfits hq hwrite
    · exact hparent

/-! ## Finishing -/

namespace HasStaged

variable {u v' v'' : Volume} {dir l : Location} {n : Node}

/-- What is away from the root and the staging directory is there and at neither. -/
theorem spared (h : HasStaged r v₀ v u dir) (hname : r.hasFilename = true) (hl : v₀.Away r l)
    (hn : v₀.node? l = some n) : v.node? l = some n ∧ ¬dir ++ [r.sibling.filename] <+: l ∧
      ¬dir ++ [r.filename] <+: l := by
  have hu := h.leftover.spares l n hl hn
  refine ⟨(h.staged.within (fun _ => True)).node? l n trivial hu, ?_, h.apart hname l n hl hn⟩
  rintro ⟨more, rfl⟩
  rw [← List.append_cons, h.staged.vacant] at hu
  simp at hu

theorem eq_of_holder_sibling (h : HasStaged r v₀ v u dir) {dir' : Location}
    (hdir : v.Holder r.sibling dir') :
    dir' = dir :=
  hdir.unique h.staged.holder_staged

theorem eq_of_holder (h : HasStaged r v₀ v u dir) (hname : r.hasFilename = true)
    {dir' : Location} (hdir : v.Holder r dir') : dir' = dir :=
  h.eq_of_holder_sibling ((holder_sibling_iff hname).mpr hdir)

/-- Clearing the root and moving the staging directory there spares other nodes. -/
theorem spares_of_rename (h : HasStaged r v₀ v u dir) (hr : r.Way) (hcleared : Cleared r v v')
    (hrename : v'.rename r.sibling r = .ok v'') : Spares r v₀ v'' := by
  have hnamed := named_of_rename hr.zero hr.unslashed hrename
  intro l n hl hn
  obtain ⟨hv, hsibling, hroot⟩ := h.spared hnamed.filename hl hn
  have hv' : v'.node? l = some n := by
    rw [hcleared.spares l fun d hd => h.eq_of_holder hnamed.filename hd ▸ hroot, hv]
  obtain ⟨d, d', hd, hd', hcases⟩ := exists_of_rename hr.named_sibling hnamed hrename
  obtain rfl := h.eq_of_holder_sibling (hd.mono (fun _ _ => trivial) hcleared.part)
  obtain rfl := h.eq_of_holder hnamed.filename (hd'.mono (fun _ _ => trivial) hcleared.part)
  rcases hcases with rfl | rfl | rfl
  · exact hv'
  · rw [node?_moveTree hsibling hroot, hv']
  · rw [node?_moveTree hsibling hroot, node?_erase (by simp), if_neg, hv']
    rintro rfl
    exact hroot (List.prefix_refl _)

/-- A root that has been removed stays away when the staging directory is given up. -/
theorem leftover_of_remove (h : HasStaged r v₀ v u dir) (hr : r.Way)
    (hremove : v.remove r = .ok v') :
    Leftover r v₀ (v'.removeAll r.sibling).2 := by
  have hnamed := named_of_remove hr.zero hr.unslashed hremove
  have hcleared := cleared_of_remove hnamed hremove
  have hcleared' := cleared_removeAll (v := v') hr.named_sibling
  refine ⟨.inr fun loc n hn => ?_, fun l n hl hn => ?_⟩
  · exact status_ne_present hnamed (fun dir hdir => node?_of_remove hnamed hremove hdir)
      (hcleared'.part.status_eq (fun _ _ => trivial) trivial hn)
  · obtain ⟨hv, hsibling, hroot⟩ := h.spared hnamed.filename hl hn
    rw [hcleared'.spares l fun d hd =>
        h.eq_of_holder_sibling (hd.mono (fun _ _ => trivial) hcleared.part) ▸ hsibling,
      hcleared.spares l fun d hd => h.eq_of_holder hnamed.filename hd ▸ hroot, hv]

end HasStaged

/-- The staging directory is moved to the root, or nothing new is left there; other nodes are
spared. -/
theorem Underway.place (hr : r.Way) (h : Underway r v₀ w v) (hstaged : w.staged = true) :
    match w.place v with
    | (.ok (), v') => Spares r v₀ v'
    | (.error _, v') => Dropped r v₀ w v' := by
  obtain ⟨-, u, dir, hvolume⟩ := h.volume.resolve_left fun hvolume => by simp [hstaged] at hvolume
  have hdropped := h.dropped hr
  rw [Writer.place, staging_eq, h.root]
  dsimp only
  cases v.status r with
  | absent =>
    dsimp only
    cases hrename : v.rename r.sibling r with
    | ok v' => exact hvolume.spares_of_rename hr (.refl r v) hrename
    | error => exact hdropped
  | unknown => exact hdropped
  | present =>
    dsimp only
    by_cases hempty : v.isEmptyDirectory r = true
    · rw [if_pos hempty]
      cases hremove : v.remove r with
      | ok v' =>
        dsimp only
        cases hrename : v'.rename r.sibling r with
        | ok v'' =>
          exact hvolume.spares_of_rename hr
            (cleared_of_remove (named_of_remove hr.zero hr.unslashed hremove) hremove) hrename
        | error =>
          dsimp only
          rw [Dropped, drop_of_staged hstaged h.finished, staging_eq, h.root]
          exact hvolume.leftover_of_remove hr hremove
      | error => exact hdropped
    · rw [if_neg hempty]
      exact hdropped

/-- The root is moved into place, or nothing new is left there; other nodes are spared. -/
theorem Underway.finish (hr : r.Way) (hfirm : v₀.Firm r) (hv₀ : v₀.IsTree) (h : Underway r v₀ w v) :
    (w.finish v).Ensures (fun w' v' => w'.finished = true ∧ Spares r v₀ v') (Dropped r v₀) := by
  have hstage := h.stage hr hfirm hv₀
  rw [Writer.finish, if_neg (by simp [h.finished])]
  rcases hstep : w.stage v with ⟨_ | ⟨⟩, w', v'⟩ <;> rw [hstep] at hstage
  · exact hstage
  · have hplace := hstage.1.place hr hstage.2
    dsimp only
    rcases hstep' : w'.place v' with ⟨_ | ⟨⟩, v''⟩ <;> rw [hstep'] at hplace
    · exact hplace
    · exact ⟨rfl, hplace⟩

end JarRepair.Directory.Writer

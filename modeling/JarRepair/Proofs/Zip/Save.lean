import JarRepair.Proofs.Volume.Leftover
import JarRepair.Zip.Writer

/-! # Putting an image into place

The image of a finished zip file is written to the sibling of its path and renamed. If that fails,
it fails before anything was written, and the parents of the path are all that can be new. -/

namespace JarRepair.Zip.Writer

open JarRepair.Volume

variable {v v₂ v₃ w : Volume} {p : Volume.Path} {image : Bytes} {dir loc l : Location} {n : Node}

/-- The volume has the parents that the path lacked, or some of them. -/
inductive Prepared (p : Volume.Path) (v v₂ : Volume) : Prop where
  | same (h : v₂ = v)
  | created (lead : List Bytes) (dir : Location) (name : Bytes) (ahead further : List Bytes)
    (h : Created p.parent v v₂ lead dir name ahead further)

theorem prepared (hp : p.Way) (hname : p.hasFilename = true) (hs : v.Straight p) (hv : v.IsTree) :
    Prepared p v (if p.parent = [] then v else (v.makeDirectories p.parent).2) := by
  split
  · exact .same rfl
  · rcases makeDirectories_cases (hv.grounded _) (hs.parent hname) hp.parent with
      ⟨h, -⟩ | ⟨lead, dir, name, ahead, further, h, -⟩
    · exact .same h
    · exact .created lead dir name ahead further h

namespace Prepared

theorem within (h : Prepared p v v₂) (P : Node → Prop) : Within P v v₂ := by
  cases h with
  | same h => exact h ▸ .refl P v
  | created lead dir name ahead further h => exact h.within P

theorem status_eq (h : Prepared p v v₂) {q : Volume.Path} (hq : q.Way) (hs : v.Straight q)
    (hname : q.hasFilename = true) (hparent : q.parent = p.parent)
    (hn : v₂.status q = .present loc n) :
    v.status q = .present loc n := by
  cases h with
  | same h => rwa [h] at hn
  | created lead dir name ahead further h =>
    rw [← hparent] at h
    exact absurd hn (h.status_ne_present_of_parent hq hs hname)

theorem leftover (h : Prepared p v v₂) (hp : p.Way) (hs : v.Straight p)
    (hname : p.hasFilename = true) :
    Leftover p v v₂ := by
  refine ⟨?_, fun l n _ hn => (h.within (fun _ => True)).node? l n trivial hn⟩
  cases h with
  | same h => exact .inl (h ▸ .refl _ _)
  | created lead dir name ahead further h =>
    exact .inr fun loc n => h.status_ne_present_of_parent hp hs hname

/-- What was away from the path is in neither place. -/
theorem not_prefix (h : Prepared p v v₂) (hname : p.hasFilename = true)
    (hl : v.Away p l) (hn : v.node? l = some n) (hdir : v₂.Holder p dir) :
    ¬dir ++ [p.sibling.filename] <+: l ∧ ¬dir ++ [p.filename] <+: l := by
  cases h with
  | same h =>
    subst h
    exact ⟨hl.sibling dir ((holder_sibling_iff hname).mpr hdir), hl.path dir hdir⟩
  | created lead base name ahead further h =>
    rw [Holder, ← start_parent hname] at hdir
    obtain rfl := h.eq_of_leadsTo hdir
    have hfresh (more : List Bytes) : ¬base ++ name :: ahead ++ more <+: l := by
      rintro ⟨rest, rfl⟩
      rw [List.append_assoc, List.append_assoc, List.cons_append, h.fresh] at hn
      simp at hn
    exact ⟨hfresh _, hfresh _⟩

end Prepared

/-- What writing to the sibling does: a file is there, or where its link leads, and all else
stays. -/
structure Wrote (p : Volume.Path) (v₂ v₃ : Volume) (dir : Location) : Prop where
  holder : v₂.Holder p.sibling dir
  fits : p.sibling.Fits
  workingDirectory : v₃.workingDirectory = v₂.workingDirectory
  ways : ∀ l n, n.IsWay → v₂.node? l = some n → v₃.node? l = some n
  others : ∀ l n, (∀ m, v₂.status p.sibling ≠ .present l m) → v₂.node? l = some n →
    v₃.node? l = some n
  directories : ∀ l, v₃.node? l = some .directory → v₂.node? l = some .directory
  file : ∃ n, v₃.node? (dir ++ [p.sibling.filename]) = some n ∧ n ≠ .directory

theorem exists_wrote (hp : p.Way) (h : v₂.write? p.sibling image = some v₃) :
    ∃ dir, Wrote p v₂ v₃ dir := by
  have hz := hp.named_sibling
  obtain ⟨loc, number, -, hcwd, hnode, hthere⟩ := node?_of_write? h
  have hfile : v₂.node? loc = none ∨ ∃ old, v₂.node? loc = some (.file number old) := by
    rcases hthere with ⟨-, hthere⟩ | ⟨old, -, hthere⟩
    · exact .inl hthere
    · exact .inr ⟨old, hthere⟩
  obtain ⟨dir, hdir, hfits⟩ : ∃ dir, v₂.Holder p.sibling dir ∧ p.sibling.Fits := by
    rcases hthere with ⟨hresolve, -⟩ | ⟨old, hresolve, -⟩ <;> exact exists_holder hz hresolve
  refine ⟨dir, hdir, hfits, hcwd, fun l n hn hl => ?_, fun l n hl hn => ?_, fun l hl => ?_,
    hdir.exists_of_write? hz hfits h⟩
  · rw [hnode, if_neg, hl]
    rintro rfl
    rcases hfile with hnone | ⟨old, hold⟩
    · simp [hnone] at hl
    · obtain rfl := Option.some.inj (hold.symm.trans hl)
      exact hn
  · rw [hnode, if_neg, hn]
    rintro rfl
    rcases hthere with ⟨-, hnone⟩ | ⟨old, hresolve, -⟩
    · simp [hnone] at hn
    · exact hl _ (status_eq_present_iff.mpr hresolve)
  · rw [hnode] at hl
    split at hl
    · simp at hl
    · exact hl

namespace Wrote

variable (h : Wrote p v₂ v₃ dir)

include h

theorem within : Within Node.IsWay v₂ v₃ := ⟨h.workingDirectory, h.ways⟩

theorem eq_of_holder {dir' : Location} (hdir : v₃.Holder p.sibling dir') : dir' = dir :=
  hdir.unique (h.holder.mono (fun _ => id) h.within)

theorem fits_path : p.Fits := by
  have hpath := h.fits.path
  have hname := h.fits.filename
  rw [Volume.Path.sibling, List.length_append] at hpath
  rw [Volume.Path.filename_sibling, List.length_append] at hname
  exact ⟨by omega, by omega⟩

section

variable (hprepared : Prepared p v v₂) (hp : p.Way) (hs : v.Straight p)

include hprepared hp hs

/-- A path that is no directory is a name, if something could be written beside it. -/
theorem named (hname : p.hasFilename = true) (hdirectory : v.isDirectory p = false) : p.Named := by
  refine ⟨hp.zero, hname, Bool.eq_false_iff.mpr fun hdots => ?_⟩
  obtain ⟨loc, hloc⟩ := Holder.exists_status_dots ((holder_sibling_iff hname).mp h.holder)
    hp.zero hname hdots h.fits_path.path
  simp [Volume.isDirectory, hprepared.status_eq hp hs hname rfl hloc] at hdirectory

/-- What has been written can be moved into place. -/
theorem exists_rename (hnamed : p.Named) (hdirectory : v.isDirectory p = false) :
    ∃ v₄, v₃.rename p.sibling p = .ok v₄ := by
  have hname := hnamed.filename
  have hholder := h.holder.mono (fun _ => id) h.within
  obtain ⟨n, hnode, hn⟩ := h.file
  refine hholder.exists_rename ((holder_sibling_iff hname).mp hholder) hp.named_sibling
    hnamed h.fits h.fits_path (Volume.Path.filename_sibling_ne p) hnode hn fun hthere => ?_
  have hpresent := ((holder_sibling_iff hname).mp h.holder).status_eq hnamed h.fits_path
    (h.directories _ hthere) (by simp)
  simp [Volume.isDirectory, hprepared.status_eq hp hs hname rfl hpresent] at hdirectory

/-- Moving what has been written spares other nodes. -/
theorem spares_of_rename (hnamed : p.Named) {v₄ : Volume}
    (hrename : v₃.rename p.sibling p = .ok v₄) : Spares p v v₄ := by
  have hname := hnamed.filename
  intro l n hl hn
  have hnode : v₃.node? l = some n := by
    refine h.others l n (fun m hm => hl.link m ?_)
      ((hprepared.within (fun _ => True)).node? l n trivial hn)
    exact hprepared.status_eq hp.way_sibling (hs.sibling hp) (Volume.Path.hasFilename_sibling p)
      (Volume.Path.parent_sibling hname) hm
  obtain ⟨hsibling, hpath⟩ := hprepared.not_prefix hname hl hn
    ((holder_sibling_iff hname).mp h.holder)
  obtain ⟨d, d', hd, hd', hcases⟩ := exists_of_rename hp.named_sibling hnamed hrename
  obtain rfl := h.eq_of_holder hd
  obtain rfl := h.eq_of_holder ((holder_sibling_iff hname).mpr hd')
  rcases hcases with rfl | rfl | rfl
  · exact hnode
  · rw [node?_moveTree hsibling hpath, hnode]
  · rw [node?_moveTree hsibling hpath, node?_erase (by simp), if_neg, hnode]
    rintro rfl
    exact hpath (List.prefix_refl _)

end

end Wrote

theorem status_nil_ne_present : v.status [] ≠ .present loc n := by
  simp [status, resolve]

theorem exists_rename_nil_error (v : Volume) (q : Volume.Path) : ∃ e, v.rename q [] = .error e := by
  have hentry : v.entry? [] = .error .notFound := rfl
  rw [rename, hentry]
  cases v.entry? q with
  | error e => exact ⟨e, rfl⟩
  | ok entry => exact ⟨.notFound, rfl⟩

/-- Nothing can be put into place at the empty path; what was written beside it is removed. -/
theorem save_nil {w : Writer} (hpath : w.path = []) :
    ∃ e, (w.save v).1 = .error e ∧ Leftover [] v (w.save v).2 := by
  have hway : Volume.Path.Way [] := ⟨by simp, .inr rfl⟩
  have htemporary : w.temporary = Volume.Path.sibling [] := by
    rw [temporary, hpath]
    rfl
  rw [save, hpath, htemporary, if_pos (by rfl)]
  cases hwrite : v.write? (Volume.Path.sibling []) w.image with
  | none => exact ⟨_, rfl, .refl _ v⟩
  | some v₃ =>
    obtain ⟨dir, hwrote⟩ := exists_wrote hway hwrite
    obtain ⟨e, he⟩ := exists_rename_nil_error v₃ (Volume.Path.sibling [])
    dsimp only
    rw [he]
    refine ⟨_, rfl, .inr fun _ _ => status_nil_ne_present, fun l n hl hn => ?_⟩
    have hnode := hwrote.others l n hl.link hn
    dsimp only
    split
    · rename_i v₄ hremove
      rw [(cleared_of_remove hway.named_sibling hremove).spares l fun d hd => ?_, hnode]
      exact hwrote.eq_of_holder hd ▸ hl.sibling dir hwrote.holder
    · exact hnode

/-- The image is put into place and other nodes are spared, or nothing new is left at the path. -/
theorem save_leftover (hp : p.Way) (hname : p = [] ∨ p.hasFilename = true) (hs : v.Straight p)
    (hv : v.IsTree) (hdirectory : v.isDirectory p = false) {w : Writer} (hpath : w.path = p) :
    match w.save v with
    | (.ok (), v') => Spares p v v'
    | (.error _, v') => Leftover p v v' := by
  rcases hname with rfl | hname
  · obtain ⟨e, he, hleft⟩ := save_nil (v := v) hpath
    rcases hsave : w.save v with ⟨_ | ⟨⟩, v'⟩ <;> rw [hsave] at he hleft
    · exact hleft
    · cases he
  · have hprepared := prepared hp hname hs hv
    have htemporary : w.temporary = p.sibling := by
      rw [temporary, hpath]
      rfl
    rw [save, hpath, htemporary]
    generalize (if p.parent = [] then v else (v.makeDirectories p.parent).2) = v₂ at hprepared
    cases hwrite : v₂.write? p.sibling w.image with
    | none => exact hprepared.leftover hp hs hname
    | some v₃ =>
      obtain ⟨dir, hwrote⟩ := exists_wrote hp hwrite
      have hnamed := hwrote.named hprepared hp hs hname hdirectory
      obtain ⟨v₄, hrename⟩ := hwrote.exists_rename hprepared hp hs hnamed hdirectory
      dsimp only
      rw [hrename]
      exact hwrote.spares_of_rename hprepared hp hs hnamed hrename

end JarRepair.Zip.Writer

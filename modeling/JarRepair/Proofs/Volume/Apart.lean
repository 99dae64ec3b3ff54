import JarRepair.Proofs.Volume.Leftover

/-! # Paths apart from their siblings

A link can lead from a path into its sibling, or to the directory that holds both through one of
them. Otherwise what happens at the sibling does not matter to the path. That is said of every
volume that differs there, since a link that matters can be anywhere on the way. -/

namespace JarRepair.Volume

variable {u v w x : Volume} {r p : Path} {dir loc l : Location} {n : Node}

/-! ## What is at a path -/

/-- At the path is the same, itself and what it leads to, with all that is below. -/
structure SameAt (p : Path) (v w : Volume) : Prop where
  itself : ∀ loc n, w.resolve false p = .ok (.found loc n) ↔ v.resolve false p = .ok (.found loc n)
  target : ∀ loc n, w.status p = .present loc n ↔ v.status p = .present loc n
  below : ∀ loc n, v.status p = .present loc n →
    ∀ rest, w.node? (loc ++ rest) = v.node? (loc ++ rest)

namespace SameAt

theorem refl (p : Path) (v : Volume) : SameAt p v v :=
  ⟨fun _ _ => Iff.rfl, fun _ _ => Iff.rfl, fun _ _ _ _ => rfl⟩

theorem symm (h : SameAt p v w) : SameAt p w v :=
  ⟨fun loc n => (h.itself loc n).symm, fun loc n => (h.target loc n).symm,
    fun loc n hn rest => (h.below loc n ((h.target loc n).mp hn) rest).symm⟩

theorem trans (h : SameAt p u v) (h' : SameAt p v w) : SameAt p u w :=
  ⟨fun loc n => (h'.itself loc n).trans (h.itself loc n),
    fun loc n => (h'.target loc n).trans (h.target loc n),
    fun loc n hn rest => (h'.below loc n ((h.target loc n).mpr hn) rest).trans
    (h.below loc n hn rest)⟩

/-- What a walk through one volume finds, it finds in another one with the same nodes. -/
theorem of_agree (h : AgreeOff (fun _ => False) v w) (p : Path) : SameAt p v w := by
  have hvw : Within (fun _ => True) v w := h.within fun _ _ => False.elim
  have hwv : Within (fun _ => True) w v :=
    ⟨h.workingDirectory.symm, fun l n _ hn => (h.node? l id).symm.trans hn⟩
  exact ⟨fun loc n => ⟨hwv.resolve_eq (fun _ _ => trivial) trivial,
      hvw.resolve_eq (fun _ _ => trivial) trivial⟩,
    fun loc n =>
      ⟨hwv.status_eq (fun _ _ => trivial) trivial, hvw.status_eq (fun _ _ => trivial) trivial⟩,
    fun loc n _ rest => h.node? _ id⟩

theorem of_absent (hv : ∀ follow loc n, v.resolve follow p ≠ .ok (.found loc n))
    (hw : ∀ follow loc n, w.resolve follow p ≠ .ok (.found loc n)) : SameAt p v w := by
  refine ⟨fun loc n => iff_of_false (hw false loc n) (hv false loc n), fun loc n => ?_,
    fun loc n hn => ?_⟩
  · rw [status_eq_present_iff, status_eq_present_iff]
    exact iff_of_false (hw true loc n) (hv true loc n)
  · exact absurd (status_eq_present_iff.mp hn) (hv true loc n)

/-- Without a link at the path, what is there and below is all that matters. -/
theorem of_holder (hp : p.Named) (hv : v.Holder p dir) (hw : w.Holder p dir)
    (hlink : ∀ target, v.node? (dir ++ [p.filename]) ≠ some (.link target))
    (hnode : ∀ rest, w.node? (dir ++ p.filename :: rest) = v.node? (dir ++ p.filename :: rest)) :
    SameAt p v w := by
  have hresolve (follow : Bool) {loc : Location} {n : Node} :
      w.resolve follow p = .ok (.found loc n) ↔ v.resolve follow p = .ok (.found loc n) := by
    by_cases hfits : p.Fits
    · rw [hv.resolve_eq hp hfits fun _ => hlink,
        hw.resolve_eq hp hfits fun _ target => (hnode []).symm ▸ hlink target, placeAt,
        placeAt, hnode []]
    · exact iff_of_false (fun h => hfits (exists_holder hp h).choose_spec.2)
        fun h => hfits (exists_holder hp h).choose_spec.2
  refine ⟨fun loc n => hresolve false, fun loc n => ?_, fun loc n hn rest => ?_⟩
  · rw [status_eq_present_iff, status_eq_present_iff, hresolve true]
  · rw [status_eq_present_iff] at hn
    have hfits := (exists_holder hp hn).choose_spec.2
    rw [hv.resolve_eq hp hfits fun _ => hlink, Except.ok.injEq, placeAt_eq_found_iff] at hn
    rw [hn.1, ← List.append_cons, hnode]

end SameAt

/-- Nothing is at the path, not even a link. -/
def VacantAt (p : Path) (v : Volume) : Prop := ∀ loc n, v.resolve false p ≠ .ok (.found loc n)

/-- A directory can take the place at the path. -/
def HasRoom (p : Path) (v : Volume) : Prop := VacantAt p v ∨ v.isEmptyDirectory p = true

theorem Holder.vacantAt_iff (h : v.Holder p dir) (hp : p.Named) (hfits : p.Fits) :
    VacantAt p v ↔ v.node? (dir ++ [p.filename]) = none := by
  rw [VacantAt, h.resolve_eq hp hfits (by simp), Option.eq_none_iff_forall_ne_some]
  simp only [ne_eq, Except.ok.injEq, placeAt_eq_found_iff, not_and]
  exact ⟨fun hnone n => hnone _ n rfl, fun hnone _ n _ => hnone n⟩

theorem isEmptyDirectory_iff : v.isEmptyDirectory p = true ↔
    ∃ loc, v.status p = .present loc .directory ∧ v.isEmptyAt loc = true := by
  rw [isEmptyDirectory]
  split
  · rename_i hstatus
    simp [hstatus]
  · rename_i hstatus
    simpa using fun loc hloc => absurd hloc (hstatus loc)

theorem SameAt.isEmptyDirectory_of (h : SameAt p v w) (hv : v.isEmptyDirectory p = true) :
    w.isEmptyDirectory p = true := by
  obtain ⟨loc, hloc, hempty⟩ := isEmptyDirectory_iff.mp hv
  refine isEmptyDirectory_iff.mpr ⟨loc, (h.target loc _).mpr hloc, isEmptyAt_iff.mpr fun name => ?_⟩
  rw [h.below loc _ hloc, isEmptyAt_iff.mp hempty]

theorem SameAt.hasRoom_iff (h : SameAt p v w) : HasRoom p w ↔ HasRoom p v :=
  or_congr (forall₂_congr fun loc n => not_congr (h.itself loc n))
    ⟨h.symm.isEmptyDirectory_of, h.isEmptyDirectory_of⟩

/-! ## Paths apart from their siblings -/

/-- What is at the sibling and below it is no matter to what is at the path, and with what is at the
path it is no matter to the way there. -/
structure Apart (r : Path) (v : Volume) : Prop where
  sameAt : ∀ dir w, v.Holder r dir → AgreeOff (dir ++ [r.sibling.filename] <+: ·) v w → SameAt r v w
  holder : ∀ dir w, v.Holder r dir →
    AgreeOff (fun l => dir ++ [r.filename] <+: l ∨ dir ++ [r.sibling.filename] <+: l) v w →
    w.Holder r dir

/-- Without links a path goes down to its directory, past what is in it. -/
theorem apart_of_linkFree (hr : r.Named) (hstraight : r.Straight)
    (hlink : ∀ l target, v.node? l ≠ some (.link target)) : Apart r v := by
  have hholder {dir : Location} {w : Volume} (hdir : v.Holder r dir)
      (hw : AgreeOff (fun l => dir ++ [r.filename] <+: l ∨ dir ++ [r.sibling.filename] <+: l) v w) :
      w.Holder r dir := by
    rw [Holder, start, hw.workingDirectory, ← start]
    refine LeadsTo.of_linkFree hdir (hstraight.of_append (Path.names_eq_parent_append hr.filename))
      hlink ?_
    intro l hl
    have habove (name : Bytes) : ¬dir ++ [name] <+: l := fun hname => by
      have := (hname.trans hl).length_le
      rw [List.length_append, List.length_singleton] at this
      omega
    exact hw.node? l (not_or.mpr ⟨habove _, habove _⟩)
  refine ⟨fun dir w hdir hw => ?_, fun dir w => hholder⟩
  refine .of_holder hr hdir (hholder hdir (hw.mono fun _ => .inr)) (hlink _) ?_
  exact hw.node?_of_ne r.filename_sibling_ne

section

variable (hname : r.hasFilename = true)

include hname

theorem Cleared.agreeOff (h : Cleared r.sibling v w) (hdir : v.Holder r dir) :
    AgreeOff (dir ++ [r.sibling.filename] <+: ·) v w := by
  refine ⟨h.part.workingDirectory.symm, fun l hl => h.spares l fun dir' hdir' => ?_⟩
  rwa [((holder_sibling_iff hname).mp hdir').unique hdir]

theorem Apart.sameAt_cleared (h : Apart r v) (hw : Cleared r.sibling v w) : SameAt r v w := by
  by_cases hdir : ∃ dir, v.Holder r dir
  · obtain ⟨dir, hdir⟩ := hdir
    exact h.sameAt dir w hdir (hw.agreeOff hname hdir)
  · refine .of_agree ⟨hw.part.workingDirectory.symm, fun l _ => hw.spares l fun dir hd => ?_⟩ r
    exact absurd ⟨dir, (holder_sibling_iff hname).mp hd⟩ hdir

/-- Clearing the sibling leaves the path apart from it. -/
theorem Apart.cleared (h : Apart r v) (hw : Cleared r.sibling v w) : Apart r w where
  sameAt dir x hdir hx := by
    have hv := hdir.mono (fun _ _ => trivial) hw.part
    exact (h.sameAt_cleared hname hw).symm.trans
      (h.sameAt dir x hv ((hw.agreeOff hname hv).trans hx))
  holder dir x hdir hx := by
    have hv := hdir.mono (fun _ _ => trivial) hw.part
    exact h.holder dir x hv (((hw.agreeOff hname hv).mono fun _ => .inr).trans hx)

end

/-- A path apart from its sibling keeps straight: nothing is missing on the way to its directory, or
neither of the two is anywhere. -/
theorem Apart.firm (h : Apart r v) (hr : r.Named) (hs : v.Straight r) : v.Firm r := by
  intro w hw lead d name ahead hlacks
  by_cases hdir : ∃ dir, v.Holder r dir
  · obtain ⟨dir, hdir⟩ := hdir
    have hholder : w.Holder r dir := h.holder dir w hdir <| hw.mono fun l hl => by
      rcases hl with ⟨dir', hdir', hl⟩ | ⟨dir', hdir', hl⟩
      · exact .inl (hdir'.unique hdir ▸ hl)
      · exact .inr (((holder_sibling_iff hr.filename).mp hdir').unique hdir ▸ hl)
    rcases List.eq_nil_or_concat ahead with rfl | ⟨between, last, rfl⟩
    · simp
    · have hnames := hlacks.names
      rw [Path.names_eq_parent_append hr.filename, List.concat_eq_append, ← List.cons_append,
        ← List.append_assoc] at hnames
      rw [Holder, (List.append_inj' hnames rfl).1] at hholder
      exact absurd hholder (hlacks.leadsTo.not_through hlacks.ordinary hlacks.vacant)
  · have hagree : AgreeOff (fun _ => False) v w := hw.mono fun l hl => by
      rcases hl with ⟨dir, hd, -⟩ | ⟨dir, hd, -⟩
      · exact hdir ⟨dir, hd⟩
      · exact hdir ⟨dir, (holder_sibling_iff hr.filename).mp hd⟩
    exact hs lead d name ahead (hlacks.of_agree hagree)

/-! ## What the sibling is put beside -/

/-- Whatever is put at the sibling in `u`, the path is as it was in `v`, and whatever becomes of the
path too, the directory that holds both is found. -/
structure Based (r : Path) (v u : Volume) (dir : Location) : Prop where
  sameAt : ∀ w, AgreeOff (dir ++ [r.sibling.filename] <+: ·) u w → SameAt r v w
  holder : ∀ w,
    AgreeOff (fun l => dir ++ [r.filename] <+: l ∨ dir ++ [r.sibling.filename] <+: l) u w →
    w.Holder r dir
  tree : u.IsTreeAt (dir ++ [r.filename])

theorem Apart.based (h : Apart r u) (hu : u.IsTree) (hsame : SameAt r v u) (hdir : u.Holder r dir) :
    Based r v u dir where
  sameAt w hw := hsame.trans (h.sameAt dir w hdir hw)
  holder w hw := h.holder dir w hdir hw
  tree := hu.isTreeAt _

/-- In a directory that has been created for it, the sibling is alone. -/
theorem Created.based {lead ahead : List Bytes} {d : Location} {name : Bytes} (hnamed : r.Named)
    (h : Created r.sibling.parent w u lead d name ahead ahead) (hsame : SameAt r v w)
    (hdir : u.Holder r dir) : Based r v u dir := by
  rw [Path.parent_sibling hnamed.filename] at h
  have hend := h.leadsTo_end
  rw [← start_of_parent hnamed rfl] at hend
  obtain rfl := hdir.unique hend
  have hnone (first : Bytes) (rest : Location) :
      u.node? (d ++ name :: ahead ++ first :: rest) = none := by
    rw [List.append_assoc, List.cons_append, h.node?_eq, if_neg]
    intro hprefix
    have := hprefix.length_le
    rw [List.length_append, List.length_cons] at this
    omega
  have hholder (x : Volume) (hx : AgreeOff (fun l => d ++ name :: ahead ++ [r.filename] <+: l ∨
      d ++ name :: ahead ++ [r.sibling.filename] <+: l) u x) : x.Holder r (d ++ name :: ahead) := by
    refine hdir.mono (P := fun _ => True) (fun _ _ => trivial) (hx.within ?_)
    rintro l n (⟨rest, rfl⟩ | ⟨rest, rfl⟩) hn <;> rw [← List.append_cons, hnone] at hn <;> cases hn
  -- before, the directory was missing, and with it the path
  have hmissing (dir : Location) : ¬w.Holder r dir := by
    rw [Holder, start_of_parent hnamed rfl, h.names]
    exact h.leadsTo.not_through (h.ordinary name List.mem_cons_self) (h.fresh [])
  refine ⟨fun x hx => hsame.trans ?_, hholder, fun rel name' n hn => ?_⟩
  · refine .of_absent
      (fun _ _ _ => resolve_ne_found hnamed fun dir hdir => absurd hdir (hmissing dir))
      fun _ _ _ => resolve_ne_found hnamed fun dir hdir => ?_
    obtain rfl := hdir.unique (hholder x (hx.mono fun _ => .inr))
    rw [hx.node?_of_ne r.filename_sibling_ne, hnone]
  · rw [← List.append_cons, hnone] at hn
    cases hn

end JarRepair.Volume

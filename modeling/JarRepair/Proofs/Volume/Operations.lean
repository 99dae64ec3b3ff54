import JarRepair.Proofs.Volume.Resolve

/-! # What the operations change

Removing takes nodes away at a path and below it, writing and creating directories put a node where
a path leads, and renaming changes nothing away from both paths. -/

namespace JarRepair.Volume

variable {v w u : Volume} {p q : Path} {dir loc l : Location} {n : Node}

/-! ## Entries of directories -/

theorem entry?_named (hp : p.Named) : v.entry? p =
    if p.length > maxPath then .error .nameTooLong
    else
      match v.walk true maxLinks (v.start p) (Path.names p.parent ++ [Bytes.ascii "."]) with
      | .error e => .error e
      | .ok (.vacant _) => .error .notFound
      | .ok (.found dir _) => .ok (.name (dir ++ [p.filename]) false) := by
  have hdots := hp.ordinary
  rw [Path.isDots, Bool.or_eq_false_iff, decide_eq_false_iff_not, decide_eq_false_iff_not] at hdots
  rw [ entry?]
  dsimp only
  rw [Path.takeWhile_of_notMem_zero hp.zero, if_neg hp.ne_nil,
    Path.trimSlashes_of_hasFilename hp.filename, hp.components]
  simp only [gt_iff_lt, List.dropLast_concat, List.getLast?_concat, hdots.1, hdots.2, if_false,
    bne_self_eq_false]
  by_cases hlong : maxPath < p.length
  · simp only [hlong, if_true]
    rfl
  · simp only [hlong, if_false]
    change (v.walk true maxLinks (v.start p) (Path.names p.parent ++ [Bytes.ascii "."]) >>= _) = _
    rcases v.walk true maxLinks (v.start p) (Path.names p.parent ++ [Bytes.ascii "."]) with
      e | (⟨dir, n⟩ | dir)
    · rfl
    · rfl
    · rfl

theorem Holder.entry?_eq (h : v.Holder p dir) (hp : p.Named) (hpath : p.length ≤ maxPath) :
    v.entry? p = .ok (.name (dir ++ [p.filename]) false) := by
  rw [entry?_named hp, if_neg (Nat.not_lt.mpr hpath), h]

theorem exists_holder_of_entry? {e : Entry} (hp : p.Named) (h : v.entry? p = .ok e) :
    ∃ dir, v.Holder p dir ∧ p.length ≤ maxPath ∧ e = .name (dir ++ [p.filename]) false := by
  rw [entry?_named hp] at h
  split at h
  · simp at h
  · rename_i hpath
    split at h
    · simp at h
    · simp at h
    · rename_i hwalk
      obtain ⟨dir, hdir⟩ := exists_leadsTo (by simp) hwalk
      obtain ⟨rfl, -⟩ := Place.found.inj (Except.ok.inj (hwalk.symm.trans hdir))
      exact ⟨_, hdir, Nat.not_lt.mp hpath, (Except.ok.inj h).symm⟩

/-- Only a name can be removed or moved. -/
theorem named_of_entry? {slashed : Bool} (hzero : (0 : UInt8) ∉ p)
    (hp : p.hasFilename = true ∨ Path.trimSlashes p = [])
    (h : v.entry? p = .ok (.name loc slashed)) :
    p.Named := by
  rw [ entry?] at h
  dsimp only at h
  rw [Path.takeWhile_of_notMem_zero hzero] at h
  simp only [bind, Except.bind, throw, throwThe, MonadExceptOf.throw, pure, Except.pure] at h
  have hlast : ∃ name, p.trimSlashes.components.getLast? = some name ∧
      Path.isDots name = false := by
    split at h
    · simp at h
    · split at h
      · simp at h
      · split at h
        · simp at h
        · split at h
          · simp at h
          · split at h
            · simp at h
            · rename_i name hname
              split at h
              · simp at h
              · split at h
                · simp at h
                · exact ⟨name, hname, by simp [Path.isDots, *]⟩
  obtain ⟨name, hname, hdots⟩ := hlast
  rcases hp with hp | htrim
  · rw [Path.trimSlashes_of_hasFilename hp, Path.components_eq hzero, hp, Bool.true_or, if_pos rfl,
      Path.names_eq_parent_append hp, List.getLast?_concat] at hname
    exact ⟨hzero, hp, Option.some.inj hname ▸ hdots⟩
  · rw [htrim] at hname
    simp [Path.components, Path.hasFilename] at hname

/-- An operation on a path that cannot do with less than a name. -/
theorem named_of_bind {α : Type} {f : Entry → Except Refusal α} {a : α} (hzero : (0 : UInt8) ∉ p)
    (hp : p.hasFilename = true ∨ Path.trimSlashes p = [])
    (hf : ∀ e, (∀ loc slashed, e ≠ .name loc slashed) → f e ≠ .ok a)
    (h : ( v.entry? p >>= f) = .ok a) :
    p.Named := by
  cases hentry : v.entry? p with
  | error e =>
    rw [hentry] at h
    cases h
  | ok e =>
    rw [hentry] at h
    cases e with
    | name loc slashed => exact named_of_entry? hzero hp hentry
    | _ => exact absurd h (hf _ (by simp))

/-! ## Volumes that differ somewhere -/

section

variable {P Q : Location → Prop}

theorem not_prefix_of_ne {name name' : Bytes} {rest : Location} (h : name ≠ name') :
    ¬dir ++ [name] <+: dir ++ name' :: rest := by
  rw [List.prefix_append_right_inj, List.cons_prefix_cons]
  exact fun hprefix => h hprefix.1

/-- The volumes differ at most at locations with a property. -/
structure AgreeOff (P : Location → Prop) (v w : Volume) : Prop where
  workingDirectory : w.workingDirectory = v.workingDirectory
  node? : ∀ l, ¬P l → w.node? l = v.node? l

namespace AgreeOff

theorem refl (P : Location → Prop) (v : Volume) : AgreeOff P v v := ⟨rfl, fun _ _ => rfl⟩

theorem trans (h : AgreeOff P u v) (h' : AgreeOff P v w) : AgreeOff P u w :=
  ⟨h'.workingDirectory.trans h.workingDirectory, fun l hl => (h'.node? l hl).trans (h.node? l hl)⟩

theorem mono (h : AgreeOff P v w) (hPQ : ∀ l, P l → Q l) : AgreeOff Q v w :=
  ⟨h.workingDirectory, fun l hl => h.node? l fun hP => hl (hPQ l hP)⟩

/-- What is under another name is the same. -/
theorem node?_of_ne {name name' : Bytes} (h : AgreeOff (dir ++ [name] <+: ·) v w)
    (hne : name ≠ name') (rest : Location) :
    w.node? (dir ++ name' :: rest) = v.node? (dir ++ name' :: rest) :=
  h.node? _ (not_prefix_of_ne hne)

/-- Nodes that are not where the volumes differ stay. -/
theorem within {Q : Node → Prop} (h : AgreeOff P v w)
    (hP : ∀ l n, P l → v.node? l = some n → ¬Q n) :
    Within Q v w := by
  refine ⟨h.workingDirectory, fun l n hQ hn => ?_⟩
  rw [h.node? l fun hl => hP l n hl hn hQ, hn]

theorem symm (h : AgreeOff P v w) : AgreeOff P w v :=
  ⟨h.workingDirectory.symm, fun l hl => (h.node? l hl).symm⟩

end AgreeOff

theorem agreeOff_erase (hloc : loc ≠ []) : AgreeOff (loc <+: ·) v (v.erase loc) := by
  refine ⟨rfl, fun l hl => ?_⟩
  rw [node?_erase hloc, if_neg]
  rintro rfl
  exact hl (List.prefix_refl l)

end

/-! ## Removing -/

theorem named_of_remove (hzero : (0 : UInt8) ∉ p)
    (hp : p.hasFilename = true ∨ Path.trimSlashes p = []) (h : v.remove p = .ok w) : p.Named := by
  refine named_of_bind (v := v) hzero hp (fun e he hok => ?_) h
  cases e with
  | name loc slashed => exact he loc slashed rfl
  | _ => cases hok

theorem Holder.remove_eq (h : v.Holder p dir) (hp : p.Named) (hpath : p.length ≤ maxPath) :
    v.remove p =
      if maxName < p.filename.length then .error .nameTooLong
      else
        match v.node? (dir ++ [p.filename]) with
        | none => .error .notFound
        | some .directory =>
          if v.isEmptyAt (dir ++ [p.filename]) then .ok (v.erase (dir ++ [p.filename]))
          else .error .notEmpty
        | some _ => .ok (v.erase (dir ++ [p.filename])) := by
  rw [remove, h.entry?_eq hp hpath]
  change (v.lookUp (dir ++ [p.filename]) >>= _) = _
  rw [lookUp, List.getLastD_concat]
  split
  · rfl
  · cases v.node? (dir ++ [p.filename]) with
    | none => rfl
    | some n => cases n <;> rfl

theorem exists_of_remove (hp : p.Named) (h : v.remove p = .ok w) :
    ∃ dir n, v.Holder p dir ∧ p.Fits ∧ v.node? (dir ++ [p.filename]) = some n ∧
      (n = .directory → v.isEmptyAt (dir ++ [p.filename]) = true) ∧
      w = v.erase (dir ++ [p.filename]) := by
  cases hentry : v.entry? p with
  | error e =>
    rw [remove, hentry] at h
    cases h
  | ok entry =>
    obtain ⟨dir, hdir, hpath, rfl⟩ := exists_holder_of_entry? hp hentry
    rw [hdir.remove_eq hp hpath] at h
    split at h
    · simp at h
    · rename_i hname
      refine ⟨dir, ?_⟩
      split at h
      · simp at h
      · rename_i hnode
        split at h
        · rename_i hempty
          exact ⟨_, hdir, ⟨hpath, Nat.not_lt.mp hname⟩, hnode, fun _ => hempty,
            (Except.ok.inj h).symm⟩
        · simp at h
      · rename_i n hn hnode
        exact ⟨n, hdir, ⟨hpath, Nat.not_lt.mp hname⟩, hnode, fun hd => absurd hd hn,
          (Except.ok.inj h).symm⟩

/-- The volume has what another one has but for things at a path and below it. -/
structure Cleared (p : Path) (v w : Volume) : Prop where
  part : Within (fun _ => True) w v
  spares : ∀ l, (∀ dir, v.Holder p dir → ¬dir ++ [p.filename] <+: l) → w.node? l = v.node? l
  tree : v.IsTree → w.IsTree

theorem Cleared.refl (p : Path) (v : Volume) : Cleared p v v := ⟨.refl _ v, fun _ _ => rfl, id⟩

theorem Cleared.trans (h : Cleared p v w) (h' : Cleared p w u) : Cleared p v u where
  part := h'.part.trans h.part
  spares l hl :=
    (h'.spares l fun dir hdir => hl dir (hdir.mono (fun _ _ => trivial) h.part)).trans
      (h.spares l hl)
  tree := h'.tree ∘ h.tree

theorem Holder.cleared_eraseBelow (h : v.Holder p dir) :
    Cleared p v (v.eraseBelow (dir ++ [p.filename])) where
  part := by
    refine ⟨rfl, fun l n _ hn => ?_⟩
    rw [node?_eraseBelow] at hn
    split at hn
    · simp at hn
    · exact hn
  spares l hl := by
    rw [node?_eraseBelow, if_neg fun hbelow => hl dir h hbelow.2]
  tree htree := htree.eraseBelow

theorem cleared_of_remove (hp : p.Named) (h : v.remove p = .ok w) : Cleared p v w := by
  obtain ⟨dir, n, hdir, -, hnode, hempty, rfl⟩ := exists_of_remove hp h
  have hne : dir ++ [p.filename] ≠ [] := by simp
  refine ⟨⟨rfl, fun l m _ hm => ?_⟩, fun l hl => ?_, fun htree => htree.erase hne fun name => ?_⟩
  · rw [node?_erase hne] at hm
    split at hm
    · simp at hm
    · exact hm
  · rw [node?_erase hne, if_neg]
    rintro rfl
    exact hl dir hdir (List.prefix_refl _)
  · by_cases hn : n = .directory
    · exact isEmptyAt_iff.mp (hempty hn) name
    · exact htree.eq_none (by simpa [hnode] using hn) (by simp)

/-- What has been removed is not there. -/
theorem node?_of_remove (hp : p.Named) (h : v.remove p = .ok w) (hdir : w.Holder p dir) :
    w.node? (dir ++ [p.filename]) = none := by
  have hpart := (cleared_of_remove hp h).part
  obtain ⟨dir', n, hdir', -, -, -, rfl⟩ := exists_of_remove hp h
  obtain rfl := (hdir.mono (fun _ _ => trivial) hpart).unique hdir'
  rw [node?_erase (by simp), if_pos rfl]

theorem removeIfThere_cases (v : Volume) (p : Path) :
    (∃ w, v.remove p = .ok w ∧ removeAll.removeIfThere p v = (.ok (), w)) ∨
      (v.remove p = .error .notFound ∧ removeAll.removeIfThere p v = (.ok (), v)) ∨
      ∃ e, removeAll.removeIfThere p v = (.error e, v) := by
  rw [removeAll.removeIfThere]
  cases v.remove p with
  | ok w => exact .inl ⟨w, rfl, rfl⟩
  | error e =>
    cases e with
    | notFound => exact .inr (.inl ⟨rfl, rfl⟩)
    | _ => exact .inr (.inr ⟨_, rfl⟩)

theorem cleared_removeIfThere (hp : p.Named) : Cleared p v (removeAll.removeIfThere p v).2 := by
  rcases removeIfThere_cases v p with ⟨w, hremove, h⟩ | ⟨-, h⟩ | ⟨e, h⟩ <;> rw [h]
  · exact cleared_of_remove hp hremove
  · exact .refl p v
  · exact .refl p v

theorem cleared_removeAll (hp : p.Named) : Cleared p v (v.removeAll p).2 := by
  rw [removeAll]
  split
  · exact .refl p v
  · exact .refl p v
  · exact .refl p v
  · rename_i loc hresolve
    obtain ⟨dir, hdir, -, hplace⟩ := exists_holder_of_resolve_false hp hresolve
    obtain ⟨rfl, -⟩ := placeAt_eq_found_iff.mp hplace.symm
    exact hdir.cleared_eraseBelow.trans (cleared_removeIfThere hp)
  · exact cleared_removeIfThere hp

theorem node?_of_removeIfThere (hp : p.Named) (hfits : p.Fits)
    (h : removeAll.removeIfThere p v = (.ok (), w)) (hdir : w.Holder p dir) :
    w.node? (dir ++ [p.filename]) = none := by
  rcases removeIfThere_cases v p with ⟨w', hremove, h'⟩ | ⟨hremove, h'⟩ | ⟨e, h'⟩
  · obtain ⟨-, rfl⟩ := Prod.mk.inj (h.symm.trans h')
    exact node?_of_remove hp hremove hdir
  · obtain ⟨-, rfl⟩ := Prod.mk.inj (h.symm.trans h')
    rw [hdir.remove_eq hp hfits.path, if_neg (Nat.not_lt.mpr hfits.filename)] at hremove
    split at hremove
    · rename_i hnode
      exact hnode
    · split at hremove <;> simp at hremove
    · simp at hremove
  · simp [h] at h'

theorem Holder.removeAll_eq (h : v.Holder p dir) (hp : p.Named) (hfits : p.Fits) : v.removeAll p =
    match v.node? (dir ++ [p.filename]) with
    | none => (.ok (), v)
    | some .directory => removeAll.removeIfThere p (v.eraseBelow (dir ++ [p.filename]))
    | some _ => removeAll.removeIfThere p v := by
  rw [removeAll, h.resolve_eq hp hfits (by simp), placeAt]
  cases v.node? (dir ++ [p.filename]) with
  | none => rfl
  | some n => cases n <;> rfl

theorem fits_of_removeAll (hp : p.Named) (h : v.removeAll p = (.ok (), w)) (hdir : v.Holder p dir) :
    p.Fits := by
  have hlong : v.resolve false p ≠ .error .nameTooLong := by
    intro hresolve
    rw [removeAll, hresolve] at h
    simp at h
  rw [resolve_named hp] at hlong
  split at hlong
  · exact absurd rfl hlong
  · rename_i hpath
    refine ⟨Nat.not_lt.mp hpath, Nat.not_lt.mp fun hname => hlong ?_⟩
    obtain ⟨links, hwalk⟩ := hdir.exists_walk
    rw [hwalk false _ (by simp), walk_name_of_long hp.ordinary hname]

/-- After all has been removed at a path, nothing is there. -/
theorem node?_of_removeAll (hp : p.Named) (h : v.removeAll p = (.ok (), w))
    (hdir : w.Holder p dir) :
    w.node? (dir ++ [p.filename]) = none := by
  have hpart : Within (fun _ => True) w v := by
    have := (cleared_removeAll (v := v) hp).part
    rwa [h] at this
  have hdir' := hdir.mono (fun _ _ => trivial) hpart
  have hfits := fits_of_removeAll hp h hdir'
  rw [hdir'.removeAll_eq hp hfits] at h
  split at h
  · rename_i hnode
    obtain ⟨-, rfl⟩ := Prod.mk.inj h
    exact hnode
  · exact node?_of_removeIfThere hp hfits h hdir
  · exact node?_of_removeIfThere hp hfits h hdir

/-- A directory goes with all that is in it, if nothing below it is needed to come there. -/
theorem Holder.removeAll_directory (h : v.Holder p dir)
    (h' : (v.eraseBelow (dir ++ [p.filename])).Holder p dir) (hp : p.Named) (hfits : p.Fits)
    (hnode : v.node? (dir ++ [p.filename]) = some .directory) :
    ∃ w, v.removeAll p = (.ok (), w) ∧ w.workingDirectory = v.workingDirectory ∧
      ∀ l, w.node? l = if dir ++ [p.filename] <+: l then none else v.node? l := by
  have hkept :
      (v.eraseBelow (dir ++ [p.filename])).node? (dir ++ [p.filename]) = some .directory := by
    rw [node?_eraseBelow, if_neg (fun hbelow => hbelow.1 rfl), hnode]
  have hempty : (v.eraseBelow (dir ++ [p.filename])).isEmptyAt (dir ++ [p.filename]) = true := by
    rw [isEmptyAt_iff]
    intro name
    rw [node?_eraseBelow, if_pos ⟨by simp, List.prefix_append _ _⟩]
  refine ⟨(v.eraseBelow (dir ++ [p.filename])).erase (dir ++ [p.filename]), ?_, rfl, fun l => ?_⟩
  · rw [h.removeAll_eq hp hfits, hnode]
    dsimp only
    rw [removeAll.removeIfThere, h'.remove_eq hp hfits.path, if_neg (Nat.not_lt.mpr hfits.filename),
      hkept]
    dsimp only
    rw [if_pos hempty]
  · rw [node?_erase (by simp), node?_eraseBelow]
    by_cases hl : l = dir ++ [p.filename]
    · rw [if_pos hl, if_pos (hl ▸ List.prefix_refl _)]
    · rw [if_neg hl]
      simp only [ne_eq, hl, not_false_eq_true, true_and]

/-! ## Writing -/

theorem exists_of_write? {content : Bytes} (h : v.write? p content = some w) :
    (∃ loc number old, v.resolve true p = .ok (.found loc (.file number old)) ∧
      w = v.put loc (.file number content)) ∨
    ∃ loc, v.resolve true p = .ok (.vacant loc) ∧ w = v.addFile loc content := by
  rw [write?] at h
  split at h
  · rename_i loc number old hresolve
    exact .inl ⟨loc, number, old, hresolve, (Option.some.inj h).symm⟩
  · rename_i loc hresolve
    exact .inr ⟨loc, hresolve, (Option.some.inj h).symm⟩
  · simp at h

theorem isIn_of_resolve {follow : Bool} {place : Place} (h : v.resolve follow p = .ok place) :
    place.IsIn v := by
  rw [resolve] at h
  split at h
  · simp at h
  · split at h
    · simp at h
    · exact isIn_of_walk h

/-- Writing puts a file where the path leads: in place of a file, or where there was nothing. -/
theorem node?_of_write? {content : Bytes} (h : v.write? p content = some w) :
    ∃ loc number, loc ≠ [] ∧ w.workingDirectory = v.workingDirectory ∧
      (∀ l, w.node? l = if l = loc then some (.file number content) else v.node? l) ∧
      (v.resolve true p = .ok (.vacant loc) ∧ v.node? loc = none ∨
        ∃ old, v.resolve true p = .ok (.found loc (.file number old)) ∧
          v.node? loc = some (.file number old)) := by
  rcases exists_of_write? h with ⟨loc, number, old, hresolve, rfl⟩ | ⟨loc, hresolve, rfl⟩
  · obtain ⟨hloc, hnode⟩ := (isIn_of_resolve hresolve).resolve_left nofun
    exact ⟨loc, number, hloc, rfl, fun l => node?_put hloc, .inr ⟨old, hresolve, hnode⟩⟩
  · obtain ⟨hloc, hnode⟩ := isIn_of_resolve hresolve
    exact ⟨loc, v.nextNumber, hloc, rfl, fun l => node?_addFile hloc, .inl ⟨hresolve, hnode⟩⟩

/-- At the path itself there is then the file, or the link that leads to it. -/
theorem Holder.exists_of_write? {content : Bytes} (hdir : v.Holder p dir) (hp : p.Named)
    (hfits : p.Fits) (h : v.write? p content = some w) :
    ∃ n, w.node? (dir ++ [p.filename]) = some n ∧ n ≠ .directory := by
  obtain ⟨loc, number, -, -, hnode, hthere⟩ := node?_of_write? h
  rw [hnode]
  split
  · exact ⟨_, rfl, by simp⟩
  · rename_i hloc
    by_cases hlink : ∃ target, v.node? (dir ++ [p.filename]) = some (.link target)
    · obtain ⟨target, htarget⟩ := hlink
      exact ⟨_, htarget, by simp⟩
    · -- without a link the place found is the path itself
      refine absurd ?_ hloc
      have hplace : v.resolve true p = .ok (v.placeAt (dir ++ [p.filename])) :=
        hdir.resolve_eq hp hfits fun _ target htarget => hlink ⟨target, htarget⟩
      rcases hthere with ⟨hresolve, -⟩ | ⟨old, hresolve, -⟩
      · exact (placeAt_eq_vacant_iff.mp (Except.ok.inj (hplace.symm.trans hresolve))).1.symm
      · exact (placeAt_eq_found_iff.mp (Except.ok.inj (hplace.symm.trans hresolve))).1.symm

/-! ## Creating directories -/

theorem exists_of_makeDirectory (h : v.makeDirectory p = .ok w) :
    (v.isDirectory p = true ∧ w = v) ∨
      ∃ loc, v.resolve false p = .ok (.vacant loc) ∧ w = v.put loc .directory := by
  rw [makeDirectory] at h
  split at h
  · rename_i loc hresolve
    exact .inr ⟨loc, hresolve, (Except.ok.inj h).symm⟩
  · split at h
    · rename_i hdirectory
      exact .inl ⟨hdirectory, (Except.ok.inj h).symm⟩
    · simp at h
  · simp at h

/-! ## Renaming -/

theorem named_of_rename (hzero : (0 : UInt8) ∉ q)
    (hq : q.hasFilename = true ∨ Path.trimSlashes q = []) (h : v.rename p q = .ok w) : q.Named := by
  rw [rename] at h
  cases hentry : v.entry? p with
  | error e =>
    rw [hentry] at h
    cases h
  | ok entry =>
    rw [hentry] at h
    refine named_of_bind (v := v) hzero hq (fun e he hok => ?_) h
    cases e with
    | name loc slashed => exact he loc slashed rfl
    | _ => cases entry <;> cases hok

theorem exists_of_rename (hp : p.Named) (hq : q.Named) (h : v.rename p q = .ok w) :
    ∃ dir dir', v.Holder p dir ∧ v.Holder q dir' ∧
      (w = v ∨ w = v.moveTree (dir ++ [p.filename]) (dir' ++ [q.filename]) ∨
        w = (v.erase (dir' ++ [q.filename])).moveTree (dir ++ [p.filename])
          (dir' ++ [q.filename])) := by
  rw [rename] at h
  cases hentry : v.entry? p with
  | error e =>
    rw [hentry] at h
    cases h
  | ok entry =>
    obtain ⟨dir, hdir, -, rfl⟩ := exists_holder_of_entry? hp hentry
    cases hentry' : v.entry? q with
    | error e =>
      rw [hentry, hentry'] at h
      cases h
    | ok entry =>
      obtain ⟨dir', hdir', -, rfl⟩ := exists_holder_of_entry? hq hentry'
      refine ⟨dir, dir', hdir, hdir', ?_⟩
      simp only [hentry, hentry', lookUp, bind, Except.bind, throw, throwThe, MonadExceptOf.throw,
        pure, Except.pure] at h
      repeat' split at h
      all_goals first
        | exact .inl (Except.ok.inj h).symm
        | exact .inr (.inl (Except.ok.inj h).symm)
        | exact .inr (.inr (Except.ok.inj h).symm)
        | cases h

/-- Within a directory, what is at the new name decides. -/
theorem Holder.rename_eq (h : v.Holder p dir) (h' : v.Holder q dir) (hp : p.Named) (hq : q.Named)
    (hfits : p.Fits) (hfits' : q.Fits) (hne : p.filename ≠ q.filename)
    (hnode : v.node? (dir ++ [p.filename]) = some n) : v.rename p q =
      match n, v.node? (dir ++ [q.filename]) with
      | _, none => .ok (v.moveTree (dir ++ [p.filename]) (dir ++ [q.filename]))
      | .directory, some .directory =>
        if v.isEmptyAt (dir ++ [q.filename]) then
          .ok ((v.erase (dir ++ [q.filename])).moveTree (dir ++ [p.filename]) (dir ++ [q.filename]))
        else .error .notEmpty
      | .directory, some _ => .error .notDirectory
      | _, some .directory => .error .isDirectory
      | _, some _ =>
        .ok
          ((v.erase (dir ++ [q.filename])).moveTree (dir ++ [p.filename])
            (dir ++ [q.filename])) := by
  have hprefix {a b : Bytes} (hab : a ≠ b) : (dir ++ [a]).isPrefixOf (dir ++ [b]) = false := by
    simpa [List.prefix_append_right_inj, Bool.eq_false_iff] using hab
  have hlength (r : Path) (hr : r.Fits) :
      ¬maxName < ((dir ++ [r.filename]).getLastD []).length := by
    rw [List.getLastD_concat]
    exact Nat.not_lt.mpr hr.filename
  rw [rename, h.entry?_eq hp hfits.path, h'.entry?_eq hq hfits'.path]
  simp only [lookUp, if_neg (hlength p hfits), if_neg (hlength q hfits'), hnode, hprefix hne,
    hprefix hne.symm, bind, Except.bind, throw, throwThe, MonadExceptOf.throw, pure, Except.pure,
    List.append_cancel_left_eq, List.cons.injEq, hne, and_true, if_false, Bool.or_self,
    Bool.and_false, Bool.false_eq_true]
  cases n <;> cases v.node? (dir ++ [q.filename]) with
  | none => rfl
  | some m => cases m <;> rfl

/-- A file can be renamed within its directory to what is no directory. -/
theorem Holder.exists_rename (h : v.Holder p dir) (h' : v.Holder q dir) (hp : p.Named)
    (hq : q.Named) (hfits : p.Fits) (hfits' : q.Fits) (hne : p.filename ≠ q.filename)
    (hnode : v.node? (dir ++ [p.filename]) = some n) (hn : n ≠ .directory)
    (hthere : v.node? (dir ++ [q.filename]) ≠ some .directory) : ∃ w, v.rename p q = .ok w := by
  rw [h.rename_eq h' hp hq hfits hfits' hne hnode]
  cases hdst : v.node? (dir ++ [q.filename]) with
  | none => exact ⟨_, rfl⟩
  | some m =>
    cases m with
    | directory => exact absurd hdst hthere
    | _ =>
      cases n with
      | directory => exact absurd rfl hn
      | _ => exact ⟨_, rfl⟩

end JarRepair.Volume

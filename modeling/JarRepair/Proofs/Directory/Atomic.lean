import JarRepair.Proofs.Directory.Calls

/-! # Writing a directory tree at once

Until a writer finishes, its root is as it was; then it holds what has been accepted and nothing
else. A writer that is dropped before that leaves neither a trace at the root nor its staging
directory. Finishing succeeds where nothing is at the root or an empty directory. -/

namespace JarRepair.Directory.Writer

open JarRepair.Volume
open JarRepair.Zip (Call)

variable {w w' : Writer} {v v' v₀ u : Volume} {r : Volume.Path} {dir : Location}
  {accepted : List Call}

/-! ## Placing -/

/-- What has been accepted is at the root, and nothing is left beside it. -/
def Built (r : Volume.Path) (accepted : List Call) (v : Volume) : Prop :=
  (∃ loc, v.status r = .present loc .directory ∧
    v.Contains loc (directories accepted) (files accepted)) ∧
    VacantAt r.sibling v

namespace Laid

variable (hr : Rooted r) (h : Laid r v₀ accepted u dir v)

include h

theorem agreeOff : AgreeOff (dir ++ [r.sibling.filename] <+: ·) u v :=
  ⟨h.staged.workingDirectory, h.staged.outside⟩

theorem agreeOff_both (hagree : AgreeOff (dir ++ [r.filename] <+: ·) v v') :
    AgreeOff (fun l => dir ++ [r.filename] <+: l ∨ dir ++ [r.sibling.filename] <+: l) u v' :=
  (h.agreeOff.mono fun _ => .inr).trans (hagree.mono fun _ => .inl)

theorem sameAt : SameAt r v₀ v := h.based.sameAt v h.agreeOff

theorem holder : v.Holder r dir := h.based.holder v (h.agreeOff.mono fun _ => .inr)

theorem tree : v.IsTreeAt (dir ++ [r.filename]) := by
  refine h.based.tree.move fun rel => h.staged.outside _ ?_
  rw [← List.append_cons]
  exact not_prefix_of_ne r.filename_sibling_ne

theorem fits_root : r.Fits := by
  refine ⟨(List.prefix_append r _).length_le.trans h.fits.path, ?_⟩
  have hfilename := h.fits.filename
  rw [Volume.Path.filename_sibling, List.length_append] at hfilename
  omega

include hr

section

variable (hagree : AgreeOff (dir ++ [r.filename] <+: ·) v v')

include hagree

theorem rename_eq (hvacant : v'.node? (dir ++ [r.filename]) = none) :
    v'.rename r.sibling r = .ok
      (v'.moveTree (dir ++ [r.sibling.filename]) (dir ++ [r.filename])) := by
  have hdir := h.based.holder v' (h.agreeOff_both hagree)
  have hnode := (hagree.node?_of_ne r.filename_sibling_ne.symm []).trans h.staged.directory
  rw [Holder.rename_eq ((holder_sibling_iff hr.named.filename).mpr hdir) hdir
    hr.way.named_sibling hr.named h.fits h.fits_root r.filename_sibling_ne hnode, hvacant]

theorem built_moveTree (hvacant : ∀ rest, v'.node? (dir ++ r.filename :: rest) = none) :
    Built r accepted (v'.moveTree (dir ++ [r.sibling.filename]) (dir ++ [r.filename])) := by
  have hboth := h.agreeOff_both hagree
  have hmoved (rest : Location) :
      (v'.moveTree (dir ++ [r.sibling.filename]) (dir ++ [r.filename])).node?
        (dir ++ [r.filename] ++ rest) = v.node? (dir ++ [r.sibling.filename] ++ rest) := by
    rw [node?_moveTree_append (by simp) (by simp) (List.append_cons .. ▸ hvacant rest),
      ← List.append_cons]
    exact hagree.node?_of_ne r.filename_sibling_ne.symm rest
  have hdir := h.based.holder (v'.moveTree (dir ++ [r.sibling.filename]) (dir ++ [r.filename]))
    ⟨hboth.workingDirectory, fun l hl => by
      rw [not_or] at hl
      rw [node?_moveTree hl.2 hl.1, hboth.node? l (not_or.mpr hl)]⟩
  have hroot := hmoved []
  rw [List.append_nil, List.append_nil, h.staged.directory] at hroot
  refine ⟨⟨_, hdir.status_eq hr.named h.fits_root hroot (by simp), h.contains.move hmoved⟩,
    fun _ _ => ?_⟩
  refine resolve_ne_found hr.way.named_sibling fun d hd => ?_
  obtain rfl := ((holder_sibling_iff hr.named.filename).mp hd).unique hdir
  have hgone : (v'.moveTree (d ++ [r.sibling.filename]) (d ++ [r.filename])).node?
      (d ++ [r.sibling.filename] ++ []) = none := by
    refine node?_moveTree_source (by simp) ?_
    rw [List.append_nil]
    exact not_prefix_of_ne r.filename_sibling_ne.symm
  rwa [List.append_nil] at hgone

end

theorem place_of_vacant (hroot : w.root = r) (hnode : v.node? (dir ++ [r.filename]) = none) :
    ∃ v', w.place v = (.ok (), v') ∧ Built r accepted v' := by
  have hbelow (rest : Location) : v.node? (dir ++ r.filename :: rest) = none := by
    rw [List.append_cons]
    by_cases hnil : rest = []
    · rw [hnil, List.append_nil, hnode]
    · exact h.tree.eq_none_below (by simp [hnode]) hnil
  have hrename := h.rename_eq hr (.refl _ v) hnode
  have hstatus : v.status r = .absent := by
    rw [status, h.holder.resolve_eq hr.named h.fits_root (by simp [hnode]), placeAt, hnode]
  rw [Writer.place, staging_eq, hroot, hstatus]
  dsimp only
  rw [hrename]
  exact ⟨_, rfl, h.built_moveTree hr (.refl _ v) hbelow⟩

/-- An empty directory goes, and so does a link to one. -/
theorem remove_of_isEmptyDirectory (hempty : v.isEmptyDirectory r = true) :
    v.remove r = .ok (v.erase (dir ++ [r.filename])) ∧
      ∀ rest, rest ≠ [] → v.node? (dir ++ [r.filename] ++ rest) = none := by
  obtain ⟨loc, hloc, hemptyAt⟩ := isEmptyDirectory_iff.mp hempty
  rw [h.holder.remove_eq hr.named h.fits_root.path, if_neg (Nat.not_lt.mpr h.fits_root.filename)]
  cases hnode : v.node? (dir ++ [r.filename]) with
  | none =>
    rw [status_eq_present_iff, h.holder.resolve_eq hr.named h.fits_root (by simp [hnode]), placeAt,
      hnode] at hloc
    simp at hloc
  | some n =>
    by_cases hn : n = .directory
    · subst hn
      rw [h.holder.status_eq hr.named h.fits_root hnode (by simp)] at hloc
      obtain ⟨rfl, -⟩ := Status.present.inj hloc
      exact ⟨if_pos hemptyAt, fun rest => h.tree.eq_none_of_isEmptyAt hemptyAt⟩
    · refine ⟨?_, fun rest => h.tree.eq_none_below (by simpa [hnode] using hn)⟩
      cases n with
      | directory => exact absurd rfl hn
      | _ => rfl

theorem place_of_isEmptyDirectory (hroot : w.root = r) (hempty : v.isEmptyDirectory r = true) :
    ∃ v', w.place v = (.ok (), v') ∧ Built r accepted v' := by
  obtain ⟨hremove, hnone⟩ := h.remove_of_isEmptyDirectory hr hempty
  have hbelow (rest : Location) :
      (v.erase (dir ++ [r.filename])).node? (dir ++ r.filename :: rest) = none := by
    rw [node?_erase (by simp), List.append_cons]
    split
    · rfl
    · rename_i hne
      exact hnone rest fun hnil => hne (by rw [hnil, List.append_nil])
  have hagree : AgreeOff (dir ++ [r.filename] <+: ·) v (v.erase (dir ++ [r.filename])) :=
    agreeOff_erase (by simp)
  have hrename := h.rename_eq hr hagree (hbelow [])
  obtain ⟨loc, hloc, -⟩ := isEmptyDirectory_iff.mp hempty
  rw [Writer.place, staging_eq, hroot, hloc]
  dsimp only
  rw [if_pos hempty, hremove]
  dsimp only
  rw [hrename]
  exact ⟨_, rfl, h.built_moveTree hr hagree hbelow⟩

theorem place_of_hasRoom (hroot : w.root = r) (hroom : HasRoom r v) :
    ∃ v', w.place v = (.ok (), v') ∧ Built r accepted v' := by
  rcases hroom with hvacant | hempty
  · exact h.place_of_vacant hr hroot ((h.holder.vacantAt_iff hr.named h.fits_root).mp hvacant)
  · exact h.place_of_isEmptyDirectory hr hroot hempty

theorem place_of_not (hroot : w.root = r) (hroom : ¬HasRoom r v) :
    ∃ e, w.place v = (.error e, v) := by
  obtain ⟨hvacant, hempty⟩ := not_or.mp hroom
  rw [h.holder.vacantAt_iff hr.named h.fits_root] at hvacant
  rw [Writer.place, staging_eq, hroot]
  dsimp only
  cases hstatus : v.status r with
  | unknown => exact ⟨_, rfl⟩
  | present =>
    dsimp only
    rw [if_neg hempty]
    exact ⟨_, rfl⟩
  | absent =>
    -- only a link that leads nowhere is there
    obtain ⟨n, hn⟩ := Option.ne_none_iff_exists'.mp hvacant
    dsimp only
    rw [Holder.rename_eq h.staged.holder_staged h.holder hr.way.named_sibling hr.named
      h.fits h.fits_root r.filename_sibling_ne h.staged.directory, hn]
    cases n with
    | directory =>
      rw [h.holder.status_eq hr.named h.fits_root hn (by simp)] at hstatus
      cases hstatus
    | _ => exact ⟨_, rfl⟩

end Laid

/-! ## Ends of writers -/

/-- The root is as it was and the staging directory is gone. -/
def Discarded (r : Volume.Path) (v₀ v : Volume) : Prop := SameAt r v₀ v ∧ VacantAt r.sibling v

/-- Whatever is asked of the writer, it fails, and nothing changes, even when it is dropped. -/
structure Closed (w : Writer) (v : Volume) : Prop where
  run : ∀ c, ∃ e, w.run v c = (.error e, w, v)
  finish : ∃ e, w.finish v = (.error e, w, v)
  drop : w.drop v = (none, v)

theorem closed_of_finished (hfinished : w.finished = true) (v : Volume) : w.Closed v where
  run c := by
    cases c with
    | directory p => exact ⟨_, if_pos hfinished⟩
    | file p data => exact ⟨_, if_pos hfinished⟩
  finish := ⟨_, if_pos hfinished⟩
  drop := by rw [Writer.drop, hfinished, Bool.not_true, Bool.and_false, if_neg Bool.false_ne_true]

namespace Open

theorem sameAt (h : Open r v₀ accepted w v) : SameAt r v₀ v := by
  rcases h.volume with ⟨-, -, -, -, -, hsame⟩ | ⟨-, u, dir, hlaid⟩
  · exact hsame
  · exact hlaid.sameAt

theorem staged_of_ne_nil (h : Open r v₀ accepted w v) (haccepted : accepted ≠ []) :
    w.staged = true :=
  (h.volume.resolve_left fun hvolume => haccepted hvolume.2.1).1

variable (hr : Rooted r) (h : Open r v₀ accepted w v)

include hr h

theorem finish : (w.finish v).Ensures
    (fun w' v' => w'.finished = true ∧ HasRoom r v₀ ∧ Built r accepted v')
    fun w' v' => Open r v₀ accepted w' v' ∧ (w.staged = true → ¬HasRoom r v₀) := by
  have hstage := h.stage hr
  rw [Writer.finish, if_neg (by simp [h.unfinished])]
  rcases hstep : w.stage v with ⟨_ | ⟨⟩, w', v'⟩ <;> rw [hstep] at hstage <;> dsimp only
  · refine ⟨hstage, fun hstaged => ?_⟩
    rw [Writer.stage, if_pos hstaged] at hstep
    cases hstep
  · obtain ⟨h', hstaged, -⟩ := hstage
    obtain ⟨-, u, dir, hlaid⟩ := h'.volume.resolve_left fun hvolume => by simp [hstaged] at hvolume
    have hroom := hlaid.sameAt.hasRoom_iff
    by_cases hroom' : HasRoom r v'
    · obtain ⟨v'', hplace, hbuilt⟩ := hlaid.place_of_hasRoom hr h'.root hroom'
      rw [hplace]
      exact ⟨rfl, hroom.mp hroom', hbuilt⟩
    · obtain ⟨e, hplace⟩ := hlaid.place_of_not hr h'.root hroom'
      rw [hplace]
      exact ⟨h', fun _ hroom₀ => hroom' (hroom.mpr hroom₀)⟩

theorem drop (hstaged : w.staged = true) : Discarded r v₀ (w.drop v).2 := by
  obtain ⟨-, u, dir, hlaid⟩ := h.volume.resolve_left fun hvolume => by simp [hstaged] at hvolume
  obtain ⟨v', hremove, hcwd, hnode⟩ := hlaid.staged.exists_removeAll hr.way.named_sibling hlaid.fits
  have hagree : AgreeOff (fun _ => False) u v' := ⟨hcwd, fun l _ => hnode l⟩
  rw [drop_of_staged hstaged h.unfinished, staging_eq, h.root, hremove]
  refine ⟨hlaid.based.sameAt v' (hagree.mono fun _ => False.elim), fun _ _ => ?_⟩
  refine resolve_ne_found hr.way.named_sibling fun d hd => ?_
  obtain rfl := ((holder_sibling_iff hr.named.filename).mp hd).unique
    (hlaid.based.holder v' (hagree.mono fun _ => False.elim))
  rw [hnode, hlaid.staged.vacant []]

end Open

/-- After any calls the root is as it was. Finishing puts exactly what has been accepted there, if
nothing or an empty directory was there, and closes the writer; if it fails, or the writer is
dropped, the root is as it was, and nothing is left of what has been accepted. -/
theorem runAll_atomic {p : Volume.Path} {calls : List Call} (hr : Rooted p.withoutTrailingSlash)
    (hstraight : v₀.Straight p.withoutTrailingSlash) (htree : v₀.IsTree)
    (hapart : Apart p.withoutTrailingSlash v₀)
    (hcalls : ∀ c ∈ calls, Admits p.withoutTrailingSlash c)
    (hrun : (ofPath p).runAll v₀ calls = (accepted, w, v)) :
    SameAt p.withoutTrailingSlash v₀ v ∧
    (accepted ≠ [] → Discarded p.withoutTrailingSlash v₀ (w.drop v).2) ∧
    (w.finish v).Ensures
      (fun w' v' => HasRoom p.withoutTrailingSlash v₀ ∧ Built p.withoutTrailingSlash accepted v' ∧
        w'.Closed v')
      fun w' v' => SameAt p.withoutTrailingSlash v₀ v' ∧
        (accepted ≠ [] → ¬HasRoom p.withoutTrailingSlash v₀ ∧
          Discarded p.withoutTrailingSlash v₀ (w'.drop v').2) := by
  have hopen := Open.runAll hr hcalls (open_fresh htree (hapart.firm hr.named hstraight) hapart)
  have hfresh : ({ root := p.withoutTrailingSlash } : Writer) = ofPath p := rfl
  rw [hfresh, hrun, List.nil_append] at hopen
  dsimp only at hopen
  refine ⟨hopen.sameAt, fun haccepted => hopen.drop hr (hopen.staged_of_ne_nil haccepted), ?_⟩
  have hfinish := hopen.finish hr
  rcases hstep : w.finish v with ⟨_ | ⟨⟩, w', v'⟩ <;> rw [hstep] at hfinish
  · obtain ⟨hopen', hroom⟩ := hfinish
    exact ⟨hopen'.sameAt, fun haccepted => ⟨hroom (hopen.staged_of_ne_nil haccepted),
      hopen'.drop hr (hopen'.staged_of_ne_nil haccepted)⟩⟩
  · obtain ⟨hfinished, hroom, hbuilt⟩ := hfinish
    exact ⟨hroom, hbuilt, closed_of_finished hfinished v'⟩

/-- A leftover of an earlier run is beside the root. -/
def sampleVolume : Volume :=
  (({} : Volume).put [Bytes.ascii "out.tmp"] .directory).addFile
    [Bytes.ascii "out.tmp", Bytes.ascii "stale"] []

def sampleCalls : List Call :=
  [.file "a/b" "text", .directory "a/b", .directory "a", .file "a" "text", .file "a/b/c" "text",
    .directory "d/e", .file "a/b" "again", .directory "../x"]

theorem isTree_sampleVolume : sampleVolume.IsTree :=
  (isTree_empty.put [] (Bytes.ascii "out.tmp") .directory rfl rfl).addFile [Bytes.ascii "out.tmp"]
    (Bytes.ascii "stale") [] (by decide +kernel) (by decide +kernel)

theorem apart_sampleVolume : Apart "out" sampleVolume := by
  refine apart_of_linkFree ⟨by decide, by decide, by decide⟩ (by decide) fun l target => ?_
  rw [sampleVolume, node?_addFile (by simp), node?_put (by simp)]
  split
  · simp
  · split
    · simp
    · cases l <;> simp [node?]

theorem runAll_atomic_sample :
    ∃ w v w' v', (ofPath "out/").runAll sampleVolume sampleCalls =
        ([.file "a/b" "text", .directory "a", .directory "d/e"], w, v) ∧
      VacantAt "out" v ∧ w.finish v = (.ok (), w', v') ∧
      v'.read? "out/a/b" = some (Bytes.ascii "text") ∧ v'.isDirectory "out/d/e" = true ∧
      Built "out" [.file "a/b" "text", .directory "a", .directory "d/e"] v' ∧ w'.Closed v' := by
  have hlimits : ∀ c ∈ sampleCalls, (0 : UInt8) ∉ c.path ∧
      (Volume.Path.join (Volume.Path.sibling (Volume.Path.withoutTrailingSlash "out/"))
        c.path).length ≤ maxPath ∧
      ∀ name ∈ c.path.components, name.length ≤ maxName := by
    decide +kernel
  have hrun : ((ofPath "out/").runAll sampleVolume sampleCalls).1 =
      [.file "a/b" "text", .directory "a", .directory "d/e"] := by
    decide +kernel
  have hstep : (let run := (ofPath "out/").runAll sampleVolume sampleCalls
      let step := run.2.1.finish run.2.2
      (step.1.toOption, step.2.2.read? "out/a/b", step.2.2.isDirectory "out/d/e")) =
        (some (), some (Bytes.ascii "text"), true) := by
    decide +kernel
  rcases hall : (ofPath "out/").runAll sampleVolume sampleCalls with ⟨accepted, w, v⟩
  rw [hall] at hrun hstep
  obtain rfl : accepted = _ := hrun
  obtain ⟨hsame, -, hfinish⟩ := runAll_atomic (p := "out/")
    ⟨⟨by decide, by decide, by decide⟩, by decide⟩
    (Volume.Path.Straight.straight (by decide) sampleVolume) isTree_sampleVolume apart_sampleVolume
    (fun c hc => ⟨(hlimits c hc).1, fun _ => (hlimits c hc).2.1, fun _ => (hlimits c hc).2.2⟩) hall
  have hroot : Volume.Path.withoutTrailingSlash "out/" = "out" := by decide
  have hvacant : sampleVolume.resolve false "out" = .ok (.vacant [Bytes.ascii "out"]) := by
    decide +kernel
  rw [hroot] at hsame hfinish
  dsimp only at hstep
  rcases hw : w.finish v with ⟨_ | ⟨⟩, w', v'⟩ <;> rw [hw] at hfinish hstep
  · simp [Except.toOption] at hstep
  · obtain ⟨-, hbuilt, hclosed⟩ := hfinish
    obtain ⟨hread, hdirectory⟩ := Prod.mk.inj (Prod.mk.inj hstep).2
    refine ⟨w, v, w', v', rfl, fun loc n hn => ?_, hw, hread, hdirectory, hbuilt, hclosed⟩
    rw [hsame.itself, hvacant] at hn
    simp at hn

/-- A root that is made as a parent of its sibling is what the path names from then on: it stays,
also when the writer is dropped. -/
theorem runAll_changes_root :
    let run := (ofPath "a/../a").runAll {} [.file "x" "text"]
    run.1 = [.file "x" "text"] ∧ ({} : Volume).status "a/../a" = .absent ∧
      run.2.2.status "a/../a" = .present [Bytes.ascii "a"] .directory ∧
      (run.2.1.drop run.2.2).2.status "a/../a" = .present [Bytes.ascii "a"] .directory := by
  decide +kernel

/-- A directory that is named by a dot holds its own sibling. -/
theorem runAll_fills_root :
    let run := (ofPath ".").runAll {} [.file "x" "text"]
    run.1 = [.file "x" "text"] ∧ ({} : Volume).isEmptyDirectory "." = true ∧
      run.2.2.isEmptyDirectory "." = false := by
  decide +kernel

/-- A link to the sibling leads somewhere once the sibling is there. -/
theorem runAll_completes_link :
    let v : Volume := ({} : Volume).put [Bytes.ascii "out"] (.link "out.tmp")
    let run := (ofPath "out").runAll v [.file "x" "text"]
    run.1 = [.file "x" "text"] ∧ v.status "out" = .absent ∧
      run.2.2.status "out" = .present [Bytes.ascii "out.tmp"] .directory := by
  decide +kernel

/-- A root that a link on the way to it goes through is lost when the writer cannot finish. -/
theorem finish_loses_root :
    let v : Volume :=
      (({} : Volume).put [Bytes.ascii "out"] .directory).put [Bytes.ascii "way"] (.link "out/..")
    let run := (ofPath "way/out").runAll v [.file "x" "text"]
    run.1 = [.file "x" "text"] ∧ v.isEmptyDirectory "way/out" = true ∧
      (run.2.1.finish run.2.2).1.toOption = none ∧
      (run.2.1.finish run.2.2).2.2.status "way/out" = .absent := by
  decide +kernel

end JarRepair.Directory.Writer

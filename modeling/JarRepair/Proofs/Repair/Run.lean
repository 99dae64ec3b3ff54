import JarRepair.Proofs.Archive.Output
import JarRepair.Repair.Run

/-! # What a run does to a volume

A run clears its output path, opens the containers, and writes. It is followed step by step to every
way in which it can end: what it leaves is what was there before, without the old output, and at the
output path nothing or all of the new container. -/

namespace JarRepair

open JarRepair.Task
open JarRepair.Volume (Away Holder IsTree Leftover Location Node Spares Within)

/-! ## Reading -/

theorem Zip.Archive.leaves_openPath (p : Volume.Path) (v : Volume) :
    (Zip.Archive.openPath p).Leaves v := by
  refine Ensures.bind (ensures_state.mpr ?_)
  cases v.read? p with
  | none => exact ensures_throw.mpr rfl
  | some data =>
    refine Ensures.bind (ensures_ofExcept.mpr ?_)
    cases Zip.Archive.ofBytes data p with
    | error e => exact rfl
    | ok a => exact Ensures.bind (ensures_note.mpr (ensures_pure.mpr rfl))

namespace Directory.Tree

theorem leaves_read (t : Tree) (p : Archive.Path) (v : Volume) : (t.read p).Leaves v := by
  rw [read]
  split
  · exact Ensures.bind (ensures_throw.mpr rfl)
  · refine Ensures.bind (ensures_state.mpr ?_)
    split
    · exact ensures_pure.mpr rfl
    · exact ensures_throw.mpr rfl

theorem leaves_openPath (root : Volume.Path) (v : Volume) : (openPath root).Leaves v := by
  refine Ensures.bind (ensures_state.mpr ?_)
  split
  · exact Ensures.bind (ensures_throw.mpr rfl)
  · refine Ensures.bind ((ensures_forIn (s := v) fun p => ?_).mono ?_ fun _ _ => id)
    · exact Ensures.bind (ensures_note.mpr (ensures_pure.mpr ⟨rfl, rfl⟩))
    · rintro ⟨⟩ _ rfl
      split
      · exact Ensures.bind (ensures_throw.mpr rfl)
      · exact Ensures.bind (ensures_note.mpr (ensures_pure.mpr rfl))

end Directory.Tree

namespace Archive

theorem Container.leaves_openPath (p : Volume.Path) (v : Volume) :
    (Container.openPath p).Leaves v := by
  refine Ensures.bind (ensures_state.mpr ?_)
  dsimp only
  by_cases hexist : (!v.exist p) = true
  · rw [if_pos hexist]
    exact Ensures.bind (ensures_throw.mpr rfl)
  · rw [if_neg hexist]
    split
    · refine Ensures.bind ((Directory.Tree.leaves_openPath p v).mono ?_ fun _ _ => id)
      exact fun _ _ hw => ensures_pure.mpr hw
    · refine Ensures.bind ((Zip.Archive.leaves_openPath p v).mono ?_ fun _ _ => id)
      exact fun _ _ hw => ensures_pure.mpr hw

theorem Container.leaves_read (c : Container) (p : Path) (v : Volume) :
    (c.reader.read p).Leaves v := by
  cases c with
  | directory t => exact t.leaves_read p v
  | zip a =>
    refine ensures_ofExcept.mpr ?_
    cases a.read p with
    | ok data => exact rfl
    | error e => exact rfl

theorem keeps_onVolume {α : Type} {I J : Site Volume → Prop} {t : Task Volume α}
    (h : ∀ v, t.Leaves v) (hJ : ∀ s, I s → J s) :
    (onVolume t : Task (Site Volume) α).Keeps I J := by
  intro s hs
  refine ensures_onVolume.mpr ((h s.world).mono ?_ ?_)
  · rintro _ _ rfl
    exact hs
  · rintro _ _ rfl
    exact hJ s hs

end Archive

namespace Repair

variable {o : Options} {v w : Volume} {p : Volume.Path}

/-! ## Room for the output -/

/-- What a volume becomes when room is made at a path: a file goes, an empty directory stays. -/
inductive Room (p : Volume.Path) (v : Volume) : Volume → Prop
  | same (hempty : v.isDirectory p = true → v.isEmptyDirectory p = true) : Room p v v
  | removed {w : Volume} (hfile : v.isFile p = true) (h : v.remove p = .ok w) : Room p v w

/-- The output is one of the inputs. -/
def Overwrites (o : Options) (v : Volume) : Prop :=
  ∃ q ∈ o.input :: o.fallback.toList, v.same q o.output = true

theorem ensures_clearOutput (o : Options) (v : Volume) :
    (clearOutput o).Ensures v (fun _ w => ¬Overwrites o v ∧ Room o.output v w) fun _ w =>
      w = v := by
  refine Ensures.bind (ensures_state.mpr ?_)
  dsimp only
  by_cases hsame : (v.same o.input o.output || o.fallback.any fun p => v.same p o.output) = true
  · rw [if_pos hsame]
    exact Ensures.bind (ensures_throw.mpr rfl)
  · rw [if_neg hsame]
    have hother : ¬Overwrites o v := by
      simpa [Overwrites, Option.any_eq_true] using hsame
    split
    · rename_i hfile
      split
      · rename_i w hremove
        exact Ensures.bind
          (ensures_setState.mpr (ensures_note.mpr ⟨hother, .removed hfile hremove⟩))
      · exact ensures_throw.mpr rfl
    · split
      · exact ensures_throw.mpr rfl
      · rename_i hrefuse
        refine ensures_pure.mpr ⟨hother, .same fun hdirectory => ?_⟩
        simpa [hdirectory] using hrefuse

theorem outputDigest_ends (p : Volume.Path) (v : Volume) :
    (outputDigest p).Ensures v (fun _ w => w = v) fun _ _ => False := by
  refine Ensures.bind (ensures_state.mpr ?_)
  split
  · rename_i hfile
    refine ensures_ofExcept.mpr ?_
    rw [Volume.isFile] at hfile
    rw [digestOf, Volume.read?]
    split at hfile
    · exact rfl
    · simp at hfile
  · exact ensures_pure.mpr rfl

namespace Room

theorem named (h : Room p v w) (hzero : (0 : UInt8) ∉ p) :
    w = v ∨ p.Named ∧ v.remove p = .ok w := by
  cases h with
  | same => exact .inl rfl
  | removed hfile h =>
    refine .inr ⟨Volume.named_of_remove hzero (.inl ?_) h, h⟩
    rw [Volume.isFile] at hfile
    split at hfile
    · rename_i hstatus
      exact Volume.hasFilename_of_status hzero hstatus (by simp)
    · simp at hfile

theorem within (h : Room p v w) (hzero : (0 : UInt8) ∉ p) : Within (fun _ => True) w v := by
  rcases h.named hzero with rfl | ⟨hnamed, hremove⟩
  · exact .refl _ w
  · exact (Volume.cleared_of_remove hnamed hremove).part

theorem tree (h : Room p v w) (hzero : (0 : UInt8) ∉ p) (hv : v.IsTree) : w.IsTree := by
  rcases h.named hzero with rfl | ⟨hnamed, hremove⟩
  · exact hv
  · exact (Volume.cleared_of_remove hnamed hremove).tree hv

theorem firm (h : Room p v w) (hzero : (0 : UInt8) ∉ p) (hfirm : v.Firm p.withoutTrailingSlash) :
    w.Firm p.withoutTrailingSlash := by
  rcases h.named hzero with rfl | ⟨hnamed, hremove⟩
  · exact hfirm
  · rw [Volume.Path.withoutTrailingSlash, if_pos hnamed.filename] at hfirm ⊢
    exact hfirm.cleared (Volume.cleared_of_remove hnamed hremove)

theorem spares (h : Room p v w) (hzero : (0 : UInt8) ∉ p) : Spares p.withoutTrailingSlash v w := by
  rcases h.named hzero with rfl | ⟨hnamed, hremove⟩
  · exact fun _ _ _ hn => hn
  · rw [Volume.Path.withoutTrailingSlash, if_pos hnamed.filename]
    intro l n hl hn
    rw [(Volume.cleared_of_remove hnamed hremove).spares l hl.path, hn]

/-- A directory that has stayed is empty. -/
theorem isEmptyAt (h : Room p v w) {loc : Location} (hp : v.status p = .present loc .directory) :
    v.isEmptyAt loc = true := by
  cases h with
  | same hempty =>
    have hloc := hempty (by rw [Volume.isDirectory, hp])
    rwa [Volume.isEmptyDirectory, hp] at hloc
  | removed hfile => simp [Volume.isFile, hp] at hfile

end Room

/-! ## Runs -/

/-- Whether a repair goes well or not, what is left keeps to the output. -/
theorem ensures_repairInto {r : Volume.Path} {src : Sources (Archive.Site Volume)}
    (hr : r.Way) (hfirm : v.Firm r) (hv : v.IsTree)
    (hsrc : ∀ I J : Archive.Site Volume → Prop, (∀ s, I s → J s) → src.Keep I J)
    {s : Archive.Site Volume} (hs : Archive.Output.Pending r v s) :
    (repairInto src o).Ensures s (fun _ s' => Spares r v (Archive.Output.rest s'))
      fun _ s' => Leftover r v (Archive.Output.rest s') := by
  have hgiven (s : Archive.Site Volume) :
      Archive.Output.Pending r v s → Archive.Output.GivenUp r v s :=
    Archive.Output.Pending.givenUp hr
  refine Ensures.bind (ensures_state.mpr ?_)
  refine Ensures.bind (ensures_note.mpr (Ensures.bind (ensures_state.mpr ?_)))
  have hrepair :
      (repair src .bridge Archive.Output.writer).Keeps (InWorld (Archive.Output.Pending r v))
      (InWorld (Archive.Output.GivenUp r v)) :=
    keeps_repair hgiven (hsrc _ _ hgiven) (Archive.Output.keeps_addDirectory hr hfirm hv)
      (Archive.Output.keeps_addFile hr hfirm hv) .bridge
  refine Ensures.bind (Ensures.mono (Q := fun _ => Archive.Output.Pending r v)
    (E := fun _ => Archive.Output.GivenUp r v) ?_ (fun report s' hs' => ?_) fun _ _ => id)
  · intro notes
    have h := hrepair { world := s } hs notes
    dsimp only
    rcases hrun : repair src .bridge Archive.Output.writer { state := { world := s }, notes } with
        ⟨_ | _, b⟩ <;>
      rw [hrun] at h <;> exact h
  · refine Ensures.bind ((Archive.Output.ensures_finish hr hfirm hv hs').mono ?_ fun _ _ => id)
    rintro ⟨⟩ s'' ⟨hspares, hrest⟩
    refine Ensures.bind (Archive.ensures_onVolume.mpr ?_)
    refine (outputDigest_ends o.output s''.world).mono ?_ fun _ _ => False.elim
    rintro digest _ rfl
    refine Ensures.bind (ensures_note.mpr (ensures_pure.mpr ?_))
    show Spares r v (Archive.Output.rest s'')
    rwa [hrest]

theorem ensures_run (hzero : (0 : UInt8) ∉ o.output) (hfirm : v.Firm o.output.withoutTrailingSlash)
    (hv : v.IsTree) :
    (run o : Task Volume Report).Ensures v
      (fun _ w => ¬Overwrites o v ∧ ∃ u, Room o.output v u ∧
        Spares o.output.withoutTrailingSlash u w)
      fun _ w => w = v ∨ ¬Overwrites o v ∧
        ∃ u, Room o.output v u ∧ Leftover o.output.withoutTrailingSlash u w := by
  have hway := Volume.Path.way_withoutTrailingSlash hzero
  refine Ensures.bind ((ensures_clearOutput o v).mono ?_ fun _ _ => .inl)
  rintro _ u ⟨hother, hu⟩
  have hleft {u' : Volume} (heq : u' = u) : u' = v ∨ ¬Overwrites o v ∧
      ∃ u, Room o.output v u ∧ Leftover o.output.withoutTrailingSlash u u' :=
    .inr ⟨hother, u, hu, heq ▸ .refl _ _⟩
  refine Ensures.bind ((Archive.Container.leaves_openPath o.input u).mono (fun input u' hu' => ?_)
    fun _ _ => hleft)
  subst hu'
  refine Ensures.bind (Ensures.mono (Q := fun _ w => w = u') (E := fun _ w => w = u') ?_
    (fun fallback w hw => ?_) fun _ _ => hleft)
  · cases o.fallback with
    | none => exact ensures_pure.mpr rfl
    | some p =>
      refine Ensures.bind ((Archive.Container.leaves_openPath p u').mono ?_ fun _ _ => id)
      exact fun _ _ hw => ensures_pure.mpr hw
  · subst hw
    refine Ensures.bind (ensures_state.mpr ?_)
    refine Archive.Output.ensures_during ?_
    refine (ensures_repairInto hway (hu.firm hzero hfirm) (hu.tree hzero hv) ?_
      (Archive.Output.pending_ofPath o.output w)).mono
      (fun _ _ hs => ⟨hother, w, hu, hs⟩) fun _ _ hs => .inr ⟨hother, w, hu, hs⟩
    intro I J hJ reader hreader p
    have hread (c : Archive.Container) :
        ((c.reader.through onVolume : Archive.Reader (Archive.Site Volume)).read p).Keeps I J :=
      Archive.keeps_onVolume (c.leaves_read p) hJ
    rcases hreader with rfl | hreader
    · exact hread input
    · obtain ⟨c, -, rfl⟩ := Option.map_eq_some_iff.mp hreader
      exact hread c

/-! ## Failed runs -/

/-- What is still at a name of the output path was there before. -/
theorem Room.keptAt (hzero : (0 : UInt8) ∉ p) (hv : v.IsTree) {u : Volume} (hroom : Room p v u)
    (hleft : Leftover p.withoutTrailingSlash u w) {q : Volume.Path}
    (hroot : ∀ loc n, w.status q = .present loc n →
      w.status p.withoutTrailingSlash = .present loc n)
    (hdirectory : ∀ loc, v.status q = .present loc .directory →
      v.status p = .present loc .directory) :
    Volume.KeptAt q v w := by
  intro loc n hn
  rcases hleft.nothingNew with hpart | hnone
  · have hwithin := hpart.trans (hroom.within hzero)
    have hbefore := hwithin.status_eq (fun _ _ => trivial) trivial hn
    refine ⟨hbefore, fun rest hrest => ?_⟩
    -- there was nothing below, whatever it is
    have hnothing : v.node? (loc ++ rest) = none := by
      by_cases hloc : n = .directory
      · subst hloc
        exact hv.eq_none_of_isEmptyAt (hroom.isEmptyAt (hdirectory loc hbefore)) hrest
      · have hthere : v.node? loc = some n :=
          ((Volume.isIn_of_resolve (Volume.status_eq_present_iff.mp hbefore)).resolve_left hloc).2
        exact hv.eq_none (fun hthere' => hloc (Option.some.inj (hthere.symm.trans hthere'))) hrest
    rw [hnothing, Option.eq_none_iff_forall_ne_some]
    intro m hm
    simp [hwithin.node? _ m trivial hm] at hnothing
  · exact absurd (hroot loc n hn) (hnone loc n)

/-- A run that fails leaves nothing at its output path but what was there before. -/
theorem keptAt_of_run_error (hzero : (0 : UInt8) ∉ o.output)
    (hfirm : v.Firm o.output.withoutTrailingSlash) (hv : v.IsTree) :
    (run o : Task Volume Report).Ensures v (fun _ _ => True) fun _ w => Volume.KeptAt o.output v w ∧
      (o.output.length ≤ Volume.maxPath → Volume.KeptAt o.output.withoutTrailingSlash v w) := by
  refine (ensures_run hzero hfirm hv).mono (fun _ _ _ => trivial) ?_
  rintro _ w (rfl | ⟨-, u, hroom, hleft⟩)
  · exact ⟨.refl _ w, fun _ => .refl _ w⟩
  · refine ⟨hroom.keptAt hzero hv hleft ?_ fun _ => id, fun hlength => ?_⟩
    · exact fun loc n => Volume.status_withoutTrailingSlash hzero
    · refine hroom.keptAt hzero hv hleft (fun _ _ => id) fun loc hloc => ?_
      exact Volume.status_of_withoutTrailingSlash hzero hlength hloc

/-- A directory with a file in it, and an empty directory and a file beside it. -/
def sampleVolume : Volume :=
  (({} : Volume).put ["d"] .directory).addFile ["d", "x.txt"] "hello" |>.put ["e"] .directory
    |>.addFile ["out"] "old"

theorem isTree_sampleVolume : sampleVolume.IsTree := by
  have hdirectory : (({} : Volume).put ["d"] .directory).IsTree :=
    Volume.isTree_empty.put [] "d" .directory rfl (by decide +kernel)
  have hfile := hdirectory.addFile ["d"] "x.txt" "hello" (by decide +kernel)
    (by decide +kernel)
  have hempty := hfile.put [] "e" .directory rfl (by decide +kernel)
  exact hempty.addFile [] "out" "old" rfl (by decide +kernel)

/-- A path can turn back where a directory is. -/
theorem firm_sampleVolume : sampleVolume.Firm "e/../out" := by
  let front : List Bytes := ["e", ".."]
  have hnames : Volume.Path.names "e/../out" = front ++ [Bytes.ascii "out"] := by decide
  have hfront : sampleVolume.LeadsTo (sampleVolume.start "e/../out") front [] := by decide +kernel
  refine Volume.firm_of_leadsTo hnames (by decide) hfront fun l n hl hn => ?_
  have hways {name : Bytes} (hname : ∀ m, sampleVolume.node? [name] = some m → ¬m.IsWay)
      {rest : Location}
      (hn : sampleVolume.node? ([name] ++ rest) = some n) : ¬n.IsWay := by
    by_cases hrest : rest = []
    · subst hrest
      exact hname n hn
    · rw [isTree_sampleVolume.eq_none (fun hdirectory => hname _ hdirectory trivial) hrest] at hn
      cases hn
  rcases hl with ⟨dir, hdir, rest, rfl⟩ | ⟨dir, hdir, rest, rfl⟩
  · obtain rfl := hdir.unique (by decide +kernel : sampleVolume.Holder "e/../out" [])
    have hfile : sampleVolume.node? ["out"] = some (.file 1 "old") := by decide +kernel
    refine hways (fun m hm => ?_) hn
    obtain rfl := Option.some.inj (hfile.symm.trans hm)
    exact id
  · obtain rfl :=
      hdir.unique (by decide +kernel : sampleVolume.Holder (Volume.Path.sibling "e/../out") [])
    have hvacant : sampleVolume.node? ["out.tmp"] = none := by decide +kernel
    refine hways (fun m hm => ?_) hn
    cases hvacant.symm.trans hm

/-- The input is missing, and the old output is gone. -/
theorem keptAt_of_run_error_sample :
    ∃ e s, (run { input := "in", output := "e/../out" } : Task Volume Report)
        { state := sampleVolume } = (.error e, s) ∧
      Volume.KeptAt "e/../out" sampleVolume s.state ∧ s.state.status "e/../out" = .absent := by
  let o : Options := { input := "in", output := "e/../out" }
  have hfails : ((run o : Task Volume Report) { state := sampleVolume }).1.toOption = none := by
    decide +kernel
  have habsent :
      ((run o : Task Volume Report) { state := sampleVolume }).2.state.status "e/../out" =
        .absent := by
    decide +kernel
  have hkept := keptAt_of_run_error (o := o) (by decide) firm_sampleVolume isTree_sampleVolume #[]
  rcases hrun : (run o : Task Volume Report) { state := sampleVolume } with ⟨e | report, s⟩
  · rw [hrun] at hkept habsent
    exact ⟨e, s, rfl, hkept.1, habsent⟩
  · simp [hrun, Except.toOption] at hfails

/-- A parent of the output path can be what the path names once it is there: it stays when the
output cannot be put into place. -/
theorem run_leaves_parent :
    let s := (run { input := "e", output := "a/../a" } : Task Volume Report).runOn sampleVolume
    s.1.toOption = none ∧ sampleVolume.status "a/../a" = .absent ∧
      s.2.state.status "a/../a" = .present ["a"] .directory := by
  decide +kernel

/-! ## Inputs -/

/-- What is at or below an input is as it was, if it is neither at or below the output path or the
sibling of that nor where a link at the sibling leads. -/
def InputsKept (o : Options) (v w : Volume) : Prop :=
  ∀ q ∈ o.input :: o.fallback.toList, ∀ loc n, v.status q = .present loc n →
    ∀ l m, loc <+: l → v.Away o.output.withoutTrailingSlash l → v.node? l = some m →
    w.node? l = some m

/-- However a run ends, it keeps the inputs where they are away from the output. An output that is
an input is refused, and all is kept. -/
theorem inputsKept_of_run (hzero : (0 : UInt8) ∉ o.output)
    (hfirm : v.Firm o.output.withoutTrailingSlash) (hv : v.IsTree) :
    (run o : Task Volume Report).Ensures v (fun _ w => ¬Overwrites o v ∧ InputsKept o v w)
      fun _ w => (Overwrites o v → w = v) ∧ InputsKept o v w := by
  have hkept {u w : Volume} (hroom : Room o.output v u)
      (hspares : Spares o.output.withoutTrailingSlash u w) : InputsKept o v w :=
        fun _ _ _ _ _ l m _ hl hm =>
    (hroom.spares hzero).trans (hroom.within hzero) hspares l m hl hm
  refine (ensures_run hzero hfirm hv).mono ?_ ?_
  · rintro _ w ⟨hother, u, hroom, hspares⟩
    exact ⟨hother, hkept hroom hspares⟩
  · rintro _ w (rfl | ⟨hother, u, hroom, hleft⟩)
    · exact ⟨fun _ => rfl, fun _ _ _ _ _ _ _ _ _ hm => hm⟩
    · exact ⟨fun h => absurd h hother, hkept hroom hleft.spares⟩

theorem away_sampleVolume : sampleVolume.Away "o" ["d", "x.txt"] where
  sibling dir hdir := by
    have hroot : sampleVolume.Holder (Volume.Path.sibling "o") [] := by decide +kernel
    obtain rfl := hdir.unique hroot
    decide
  path dir hdir := by
    have hroot : sampleVolume.Holder "o" [] := by decide +kernel
    obtain rfl := hdir.unique hroot
    decide
  link n hn := by
    have habsent : sampleVolume.status (Volume.Path.sibling "o") = .absent := by decide +kernel
    simp [habsent] at hn

/-- The file is in the output, and in the input as before. -/
theorem inputsKept_of_run_sample :
    ∃ report s, (run { input := "d", output := "o/" } : Task Volume Report)
        { state := sampleVolume } = (.ok report, s) ∧
      s.state.node? ["o", "x.txt"] = some (.file 2 "hello") ∧
      s.state.node? ["d", "x.txt"] = some (.file 0 "hello") := by
  let o : Options := { input := "d", output := "o/" }
  have hends : ((run o : Task Volume Report) { state := sampleVolume }).1.toOption ≠ none := by
    decide +kernel
  have hnew :
      ((run o : Task Volume Report) { state := sampleVolume }).2.state.node? ["o", "x.txt"] =
        some (.file 2 "hello") := by
    decide +kernel
  have hplace : sampleVolume.status "d" = .present ["d"] .directory := by decide +kernel
  have hkept := inputsKept_of_run (o := o) (by decide)
    (Volume.Path.Straight.firm (by decide) sampleVolume) isTree_sampleVolume #[]
  rcases hrun : (run o : Task Volume Report) { state := sampleVolume } with ⟨e | report, s⟩
  · simp [hrun, Except.toOption] at hends
  · rw [hrun] at hkept hnew
    exact ⟨report, s, rfl, hnew, hkept.2 "d" List.mem_cons_self ["d"] .directory hplace
      ["d", "x.txt"] _ (by decide) away_sampleVolume (by decide +kernel)⟩

/-- An output in an input directory takes the place of a file there. -/
theorem run_replaces_input :
    let s := (run { input := "d", output := "d/x.txt" } : Task Volume Report).runOn sampleVolume
    sampleVolume.status "d" = .present ["d"] .directory ∧
      sampleVolume.node? ["d", "x.txt"] = some (.file 0 "hello") ∧
      s.2.state.node? ["d", "x.txt"] ≠ some (.file 0 "hello") := by
  decide +kernel

end Repair

end JarRepair

import JarRepair.Archive.Container
import JarRepair.Proofs.Directory.Staging
import JarRepair.Proofs.Repair.Keeping
import JarRepair.Proofs.Zip.Save

/-! # Outputs under way

A zip file is put together in memory, a directory tree in its staging directory. Until the output is
finished nothing has reached its path, and what is left when it is given up is nothing new. -/

namespace JarRepair

open JarRepair.Task
open JarRepair.Volume (IsTree Leftover Spares)

namespace Zip.Writer

theorem path_accept (e : Entry) (w : Writer) : (w.accept e).2.path = w.path := by
  rw [accept]
  split
  · rfl
  · split
    · rfl
    · split <;> rfl

theorem path_addNamed (p : Archive.Path) (name : Bytes) (e : Unit → Entry) (w : Writer) :
    (w.addNamed p name e).2.path = w.path := by
  rw [addNamed]
  split
  · rfl
  · exact path_accept _ _

theorem path_addDirectory (p : Archive.Path) (w : Writer) : (w.addDirectory p).2.path = w.path := by
  rw [addDirectory]
  split
  · rfl
  · exact path_addNamed _ _ _ _

theorem path_addFile (p : Archive.Path) (data : Bytes) (w : Writer) :
    (w.addFile p data).2.path = w.path := by
  rw [addFile]
  split
  · rfl
  · split
    · rfl
    · exact path_addNamed _ _ _ _

theorem path_finish {w w' : Writer} (h : w.finish = .ok w') : w'.path = w.path := by
  rw [finish] at h
  split at h
  · cases h
  · split at h
    · cases h
    · cases h
      rfl

end Zip.Writer

namespace Archive

variable {α : Type} {r : Volume.Path} {v : Volume} {s : Site Volume}

/-! ## Steps on a site -/

section

variable {Q : α → Site Volume → Prop} {E : Error → Site Volume → Prop}

theorem ensures_onVolume {t : Task Volume α} : (onVolume t : Task (Site Volume) α).Ensures s Q E ↔
    t.Ensures s.world (fun a v => Q a { s with world := v }) fun e v => E e { s with world := v } :=
  ensures_focus

end

namespace Output

theorem ensures_stepZip {σ : Type} {step : Except Error Unit × Zip.Writer} {s : Site σ}
    {Q : Unit → Site σ → Prop} {E : Error → Site σ → Prop} : (stepZip step).Ensures s Q E ↔
    match step with
    | (.ok _, w) => Q () { s with output := .zip w }
    | (.error e, w) => E e { s with output := .zip w } := by
  obtain ⟨_ | ⟨⟩, w⟩ := step <;> exact ⟨fun h => h #[], fun h _ => h⟩

variable {Q : Unit → Site Volume → Prop} {E : Error → Site Volume → Prop}

theorem ensures_stepDirectory {step : Volume → Directory.Writer.Step} :
    (stepDirectory step).Ensures s Q E ↔
      match step s.world with
      | (.ok _, w, v) => Q () { world := v, output := .directory w }
      | (.error e, w, v) => E e { world := v, output := .directory w } := by
  have hrun (notes : Array Log.Note) :
      (stepDirectory step : Task (Site Volume) Unit) { state := s, notes := notes } =
        ((step s.world).1,
          { state := { world := (step s.world).2.2, output := .directory (step s.world).2.1 },
            notes := notes }) := rfl
  simp only [Ensures, hrun]
  obtain ⟨_ | ⟨⟩, w, v⟩ := step s.world <;> exact ⟨fun h => h #[], fun h _ => h⟩

/-- The volume after the output is dropped. -/
def rest (s : Site Volume) : Volume :=
  match s.output with
  | .zip _ => s.world
  | .directory w => (w.drop s.world).2

theorem ensures_drop (s : Site Volume) : (drop : Task (Site Volume) Unit).Ensures s
    (fun _ s' => s'.world = rest s) fun _ s' => s'.world = rest s := by
  refine Ensures.bind (ensures_state.mpr ?_)
  obtain ⟨world, w | w⟩ := s
  · exact ensures_pure.mpr rfl
  · refine Ensures.bind (ensures_onVolume.mpr (ensures_ofStep.mpr ?_))
    dsimp only
    split
    · exact ensures_note.mpr rfl
    · exact ensures_pure.mpr rfl

theorem world_drop (s : Traced (Site Volume)) : (drop s).2.state.world = rest s.state := by
  have hdrop := ensures_drop s.state s.notes
  rcases hrun : (drop : Task (Site Volume) Unit) s with ⟨_ | _, s'⟩ <;> rw [hrun] at hdrop <;>
    exact hdrop

/-- What a task that writes to an output leaves is what it leaves once the output is dropped. -/
theorem ensures_during {o : Output} {t : Task (Site Volume) α} {Q : α → Volume → Prop}
    {E : Error → Volume → Prop}
    (h : t.Ensures { world := v, output := o } (fun a s => Q a (rest s)) fun e s => E e (rest s)) :
    (o.during t).Ensures v Q E := by
  intro notes
  have h' := h notes
  rw [during]
  rcases hrun : t { state := { world := v, output := o }, notes } with ⟨e | a, s'⟩ <;>
    rw [hrun] at h'
  · exact (congrArg (E e) (world_drop s')).mpr h'
  · exact (congrArg (Q a) (world_drop s')).mpr h'

/-! ## Writing -/

/-- The output for the path `r` has not been finished, and the volume was `v` before it. -/
def Pending (r : Volume.Path) (v : Volume) (s : Site Volume) : Prop :=
  match s.output with
  | .zip w => w.path = r ∧ s.world = v ∧ (r = [] ∨ r.hasFilename = true) ∧ v.isDirectory r = false
  | .directory w => w.Underway r v s.world

/-- Giving the output up leaves nothing new. -/
def GivenUp (r : Volume.Path) (v : Volume) (s : Site Volume) : Prop := Leftover r v (rest s)

theorem Pending.givenUp (hr : r.Way) (h : Pending r v s) : GivenUp r v s := by
  obtain ⟨world, w | w⟩ := s
  · obtain ⟨-, rfl, -⟩ := h
    exact .refl r _
  · exact Directory.Writer.Underway.dropped hr h

theorem pending_ofPath (p : Volume.Path) (v : Volume) :
    Pending p.withoutTrailingSlash v { world := v, output := ofPath p v } := by
  rw [ofPath]
  split
  · exact ⟨rfl, rfl, .inl ⟨rfl, rfl⟩⟩
  · rename_i hzip
    simp only [Bool.or_eq_true, decide_eq_true_eq, not_or, Bool.not_eq_true] at hzip
    have hname : p = [] ∨ p.hasFilename = true := by
      refine (List.eq_nil_or_concat p).imp_right ?_
      rintro ⟨front, b, rfl⟩
      rw [List.concat_eq_append, List.getLast?_concat, Option.some.injEq] at hzip
      rw [Volume.Path.hasFilename, List.concat_eq_append, List.getLast?_concat]
      exact bne_iff_ne.mpr hzip.1.2
    have hpath : p.withoutTrailingSlash = p := by
      rcases hname with rfl | hname
      · rfl
      · rw [Volume.Path.withoutTrailingSlash, if_pos hname]
    rw [hpath]
    exact ⟨rfl, rfl, hname, hzip.1.1⟩

theorem Pending.ensures_stepZip {w : Zip.Writer} (h : Pending r v s) (hs : s.output = .zip w)
    {step : Except Error Unit × Zip.Writer} (hpath : step.2.path = w.path) :
    (stepZip step).Ensures s (fun _ => Pending r v) fun _ => GivenUp r v := by
  obtain ⟨world, output⟩ := s
  subst hs
  obtain ⟨hr, rfl, hzip⟩ := h
  refine Output.ensures_stepZip.mpr ?_
  rcases step with ⟨_ | _, w'⟩
  · exact Leftover.refl _ _
  · exact ⟨hpath.trans hr, rfl, hzip⟩

theorem Pending.ensures_stepDirectory {w : Directory.Writer} (h : Pending r v s)
    (hs : s.output = .directory w) {step : Volume → Directory.Writer.Step}
    (hstep : w.Underway r v s.world → (step s.world).Ensures (Directory.Writer.Underway r v)
      (Directory.Writer.Dropped r v)) :
    (stepDirectory step).Ensures s (fun _ => Pending r v) fun _ => GivenUp r v := by
  obtain ⟨world, output⟩ := s
  subst hs
  have hdone := hstep h
  refine Output.ensures_stepDirectory.mpr ?_
  dsimp only at hdone ⊢
  rcases hrun : step world with ⟨_ | ⟨⟩, w', v'⟩ <;> rw [hrun] at hdone <;> exact hdone

variable (hr : r.Way) (hfirm : v.Firm r) (hv : v.IsTree)

include hr hfirm hv

theorem keeps_addDirectory (p : Path) :
    (addDirectory p : Task (Site Volume) Unit).Keeps (Pending r v) (GivenUp r v) := by
  intro s hs
  refine Ensures.bind (ensures_state.mpr ?_)
  cases houtput : s.output with
  | zip w => exact hs.ensures_stepZip houtput (w.path_addDirectory p)
  | directory w => exact hs.ensures_stepDirectory houtput fun h => h.addDirectory hr hfirm hv p

theorem keeps_addFile (p : Path) (data : Bytes) :
    (addFile p data : Task (Site Volume) Unit).Keeps (Pending r v) (GivenUp r v) := by
  intro s hs
  refine Ensures.bind (ensures_state.mpr ?_)
  cases houtput : s.output with
  | zip w => exact hs.ensures_stepZip houtput (w.path_addFile p data)
  | directory w => exact hs.ensures_stepDirectory houtput fun h => h.addFile hr hfirm hv p data

/-- The output is put into place and other nodes are spared, or nothing new is left. -/
theorem ensures_finish (hs : Pending r v s) :
    (finish : Task (Site Volume) Unit).Ensures s
      (fun _ s' => Spares r v s'.world ∧ rest s' = s'.world) fun _ => GivenUp r v := by
  refine Ensures.bind (ensures_state.mpr ?_)
  obtain ⟨world, w | w⟩ := s
  · obtain ⟨hpath, rfl, hname, hdirectory⟩ := hs
    dsimp only
    refine Ensures.bind (ensures_ofExcept.mpr ?_)
    cases hfinish : w.finish with
    | error e => exact Leftover.refl _ _
    | ok w' =>
      have hsave := Zip.Writer.save_leftover hr hname hfirm.straight hv hdirectory
        ((Zip.Writer.path_finish hfinish).trans hpath)
      refine Ensures.bind (ensures_modifyState.mpr (Ensures.bind (ensures_onVolume.mpr ?_)))
      refine ensures_ofStep.mpr ?_
      dsimp only
      rcases hstep : w'.save world with ⟨_ | ⟨⟩, v'⟩ <;> rw [hstep] at hsave
      · exact hsave
      · exact ensures_note.mpr ⟨hsave, rfl⟩
  · refine Ensures.bind (ensures_stepDirectory.mpr ?_)
    have hfinish := Directory.Writer.Underway.finish hr hfirm hv hs
    dsimp only
    rcases hstep : w.finish world with ⟨_ | ⟨⟩, w', v'⟩ <;> rw [hstep] at hfinish
    · exact hfinish
    · refine ensures_note.mpr ⟨hfinish.2, ?_⟩
      rw [rest]
      simp [Directory.Writer.drop, hfinish.1]

end Output

end Archive

end JarRepair

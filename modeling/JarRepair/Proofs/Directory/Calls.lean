import JarRepair.Proofs.Directory.Staging
import JarRepair.Proofs.Volume.Apart
import JarRepair.Proofs.Volume.Inside
import JarRepair.Proofs.Zip.Calls

/-! # What a writer puts into its staging directory

A writer accepts some of the calls that it gets. In its staging directory is a file for each file
accepted, and the directories that these and the directories accepted need. A call that is turned
down leaves nothing there, whether its path is at fault, its name has been used or something else is
in its place. -/

namespace JarRepair.Directory.Writer

open JarRepair.Volume
open JarRepair.Zip (Call)

variable {w : Writer} {v v₀ u : Volume} {r z : Volume.Path} {dir : Location} {accepted : List Call}

/-! ## Calls -/

def run (w : Writer) (v : Volume) : Call → Step
  | .directory p => w.addDirectory p v
  | .file p data => w.addFile p data v

/-- The calls that are accepted of these, and the writer and the volume after all of them. -/
def runAll (w : Writer) (v : Volume) : List Call → List Call × Writer × Volume
  | [] => ([], w, v)
  | c :: calls =>
    match w.run v c with
    | (.ok _, w, v) => (c :: (w.runAll v calls).1, (w.runAll v calls).2)
    | (.error _, w, v) => w.runAll v calls

/-- The directory that a call asks for: its own or the one that its file is in. -/
def folder : Call → List Bytes
  | .directory p => Archive.Path.components p
  | .file p _ => (Archive.Path.components p).dropLast

/-- The directories accepted, the parents of all that is accepted, and the root. -/
def directories (accepted : List Call) (rel : List Bytes) : Prop :=
  rel = [] ∨ ∃ c ∈ accepted, rel <+: folder c

/-- The files accepted. -/
def files (accepted : List Call) (rel : List Bytes) (content : Bytes) : Prop :=
  ∃ p, .file p content ∈ accepted ∧ Archive.Path.components p = rel

theorem directories_concat (accepted : List Call) (c : Call) (rel : List Bytes) :
    (rel <+: folder c ∨ directories accepted rel) ↔ directories (accepted ++ [c]) rel := by
  simp only [directories, List.mem_append, List.mem_singleton, or_and_right, exists_or,
    exists_eq_left]
  rw [or_comm, or_assoc]

theorem files_concat_directory (accepted : List Call) (p : Archive.Path) (rel : List Bytes)
    (content : Bytes) :
    files accepted rel content ↔ files (accepted ++ [.directory p]) rel content := by
  simp [files]

theorem files_concat_file (accepted : List Call) (p : Archive.Path) (data : Bytes)
    (rel : List Bytes) (content : Bytes) :
    (rel = p.components ∧ content = data ∨ files accepted rel content) ↔
      files (accepted ++ [.file p data]) rel content := by
  simp only [files, List.mem_append, List.mem_singleton, Call.file.injEq, or_and_right, exists_or,
    and_assoc, exists_eq_left]
  rw [or_comm, and_comm, eq_comm (a := rel)]

/-! ## Paths of entries -/

/-- What the system's limits and its way to end a path ask of a call. -/
structure Admits (r : Volume.Path) (c : Call) : Prop where
  zero : (0 : UInt8) ∉ c.path
  path_le : c.path.fault? = none → (r.sibling.join c.path).length ≤ maxPath
  name_le : c.path.fault? = none → ∀ name ∈ c.path.components, name.length ≤ maxName

theorem along_join {p : Archive.Path} (hz : z.Named) (hp : p.fault? = none)
    (hzero : (0 : UInt8) ∉ p) (hpath : (z.join p).length ≤ maxPath)
    (hname : ∀ name ∈ p.components, name.length ≤ maxName) :
    Volume.Path.Along z (z.join p) p.components := by
  have hbelow := below_join hp hz.filename
  obtain ⟨hjoin, hproper⟩ := join_eq_of_fault? hp hz.filename
  rw [hjoin] at hpath hbelow ⊢
  have hnames : Volume.Path.names p = p.components := by
    refine List.filter_eq_self.mpr fun name hname => ?_
    rw [bne_iff_ne]
    rintro rfl
    exact absurd (hproper [] hname) (by decide)
  refine ⟨?_, hbelow.hasFilename, ?_, ?_, fun name hname => ?_, hpath, hname⟩
  · rw [List.mem_append, List.mem_cons]
    rintro (h | h | h)
    · exact hz.zero h
    · exact absurd h (by decide)
    · exact hzero h
  · exact (Volume.Path.isAbsolute_of_prefix (List.prefix_append z _) hz.ne_nil).symm
  · rw [Volume.Path.names_append_slash, hnames]
  · have hordinary := hproper name hname
    simp only [Archive.Path.isProper, Bool.and_eq_true, bne_iff_ne] at hordinary
    simp [Volume.Path.isDots, hordinary.1.2, hordinary.2]

/-! ## Open writers -/

/-- The root is a name in a directory, and its sibling's names are not too long. -/
structure Rooted (r : Volume.Path) : Prop where
  named : r.Named
  name_le : ∀ name ∈ Volume.Path.names r.sibling, name.length ≤ maxName

theorem Rooted.way (hr : Rooted r) : r.Way := ⟨hr.named.zero, .inl hr.named.filename⟩

/-- The staging directory has what has been accepted, and apart from it the volume is `u`. -/
structure Laid (r : Volume.Path) (v₀ : Volume) (accepted : List Call) (u : Volume) (dir : Location)
    (v : Volume) : Prop where
  staged : Staged r.sibling u v dir
  fits : r.sibling.Fits
  based : Based r v₀ u dir
  contains : v.Contains (dir ++ [r.sibling.filename]) (directories accepted) (files accepted)

/-- In a staging directory that has just been created is nothing yet. -/
theorem exists_laid {lead ahead : List Bytes} {d : Location} {name : Bytes} (hr : Rooted r)
    (htree : u.IsTree) (hapart : Apart r u) (hsame : SameAt r v₀ u)
    (h : Created r.sibling u v lead d name ahead ahead) :
    ∃ u dir, Laid r v₀ [] u dir v := by
  obtain ⟨u', dir, hstaged, hfits, rfl, hu⟩ := h.exists_staged hr.way.named_sibling
  have hdir := (holder_sibling_iff hr.named.filename).mp hstaged.holder
  refine ⟨u', dir, hstaged, hfits, ?_, ?_⟩
  · rcases hu with rfl | ⟨ahead', hparent⟩
    · exact hapart.based htree hsame hdir
    · exact hparent.based hr.named hsame hdir
  · exact (Contains.fresh hstaged.vacant).congr (by simp [directories]) (by simp [files])

/-- The writer is open and has accepted these calls; the volume was `v₀` before it. -/
structure Open (r : Volume.Path) (v₀ : Volume) (accepted : List Call) (w : Writer) (v : Volume) :
    Prop where
  root : w.root = r
  unfinished : w.finished = false
  names : ∀ c ∈ accepted, c.name ∈ w.written
  volume : w.staged = false ∧ accepted = [] ∧ v.IsTree ∧ v.Firm r ∧ Apart r v ∧ SameAt r v₀ v ∨
    w.staged = true ∧ ∃ u dir, Laid r v₀ accepted u dir v

theorem Open.insert_name (h : Open r v₀ accepted w v) (name : Bytes) :
    Open r v₀ accepted { w with written := w.written.insert name } v :=
  { h with names := fun c hc => Std.TreeSet.mem_insert.mpr (.inr (h.names c hc)) }

theorem Open.stage (hr : Rooted r) (h : Open r v₀ accepted w v) :
    (w.stage v).Ensures
      (fun w' v' => Open r v₀ accepted w' v' ∧ w'.staged = true ∧ w'.written = w.written)
      (Open r v₀ accepted) := by
  rw [Writer.stage]
  by_cases hstaged : w.staged = true
  · rw [if_pos hstaged]
    exact ⟨h, hstaged, rfl⟩
  · rw [if_neg hstaged, staging_eq, h.root]
    obtain ⟨-, rfl, htree, hfirm, hapart, hsame⟩ :=
      h.volume.resolve_right fun hvolume => hstaged hvolume.1
    have hcleared := cleared_removeAll (v := v) hr.way.named_sibling
    have hopen {va : Volume} (hva : Cleared r.sibling v va) :
        va.IsTree ∧ va.Firm r ∧ Apart r va ∧ SameAt r v₀ va :=
      ⟨hva.tree htree, hfirm.cleared_sibling hva, hapart.cleared hr.named.filename hva,
        hsame.trans (hapart.sameAt_cleared hr.named.filename hva)⟩
    have hunstaged : w.staged = false := Bool.not_eq_true _ ▸ hstaged
    dsimp only
    rcases hremove : v.removeAll r.sibling with ⟨why | ⟨⟩, va⟩ <;> rw [hremove] at hcleared <;>
      dsimp only at hcleared ⊢
    · exact { h with volume := .inl ⟨hunstaged, rfl, hopen hcleared⟩ }
    · obtain ⟨htree', hfirm', hapart', hsame'⟩ := hopen hcleared
      have hcases := makeDirectories_cases (htree'.grounded _) (hfirm'.straight.sibling hr.way)
        hr.way.way_sibling
      rcases hmake : va.makeDirectories r.sibling with ⟨why | ⟨⟩, vb⟩ <;> rw [hmake] at hcases <;>
        dsimp only at hcases ⊢
      · rcases hcases with ⟨rfl, -⟩ | ⟨lead, d, name, ahead, further, hcreated, hiff⟩
        · exact { h with volume := .inl ⟨hunstaged, rfl, htree', hfirm', hapart', hsame'⟩ }
        · -- no name is too long to go on
          refine absurd (hiff.mpr (hcreated.complete fun name' hname' => hr.name_le name' ?_))
            (by simp)
          rw [hcreated.names]
          exact List.mem_append_right lead (List.mem_cons_of_mem name hname')
      · rcases hcases with ⟨rfl, hpresent⟩ | ⟨lead, d, name, ahead, further, hcreated, hiff⟩
        · obtain ⟨loc, hloc⟩ := hpresent hr.way.named_sibling rfl
          exact absurd hloc (Volume.status_ne_present hr.way.named_sibling fun dir hdir =>
            node?_of_removeAll hr.way.named_sibling hremove hdir)
        · obtain rfl := hiff.mp rfl
          obtain ⟨u, dir, hlaid⟩ := exists_laid hr htree' hapart' hsame' hcreated
          exact ⟨{ h with root := rfl, volume := .inr ⟨rfl, u, dir, hlaid⟩ }, rfl, rfl⟩

/-! ## Writing -/

/-- What a call asks for is in the staging directory, or what was there before. -/
def Laid.Next (r : Volume.Path) (v₀ : Volume) (accepted : List Call) (u : Volume) (dir : Location)
    (c : Call) :
    Except Error Unit × Volume → Prop
  | (.ok _, v) => Laid r v₀ (accepted ++ [c]) u dir v
  | (.error _, v) => Laid r v₀ accepted u dir v

section

variable {p : Archive.Path} {data : Bytes} (hr : Rooted r) (h : Laid r v₀ accepted u dir v)

include hr h

theorem Laid.next_writeDirectory
    (hp : Volume.Path.Along r.sibling (r.sibling.join p) (Archive.Path.components p)) :
    Laid.Next r v₀ accepted u dir (.directory p) (writeDirectory (r.sibling.join p) v) := by
  rw [writeDirectory]
  rcases h.staged.contains_makeDirectories hr.way.named_sibling h.fits h.contains hp with
      ⟨e, hmake⟩ | ⟨v', hmake, hstaged, hcontains⟩ <;> rw [hmake]
  · exact h
  · exact ⟨hstaged, h.fits, h.based, hcontains.congr (directories_concat accepted (.directory p))
      (files_concat_directory accepted p)⟩

theorem Laid.next_writeFile
    (hp : Volume.Path.Along r.sibling (r.sibling.join p) (Archive.Path.components p))
    (hnew : ∀ old, ¬files accepted (Archive.Path.components p) old) :
    Laid.Next r v₀ accepted u dir (.file p data) (writeFile data (r.sibling.join p) v) := by
  obtain ⟨front, name, hcomponents⟩ :=
    (List.eq_nil_or_concat (Archive.Path.components p)).resolve_left (Bytes.split_ne_nil _ p)
  rw [List.concat_eq_append] at hcomponents
  have hfolder : folder (.file p data) = front := by rw [folder, hcomponents, List.dropLast_concat]
  have hdirectories := directories_concat accepted (.file p data)
  have hfiles := files_concat_file accepted p data
  rw [hcomponents] at hp hnew hfiles
  rw [hfolder] at hdirectories
  have hnames : Volume.Path.names r.sibling ≠ [] := by
    simp [Volume.Path.names_eq_parent_append hr.way.named_sibling.filename]
  rw [writeFile]
  rcases h.staged.contains_makeDirectories hr.way.named_sibling h.fits h.contains (hp.parent hnames)
    with ⟨e, hmake⟩ | ⟨v', hmake, hstaged, hcontains⟩ <;> rw [hmake] <;> dsimp only
  · exact h
  · rcases hstaged.contains_write? data hr.way.named_sibling h.fits hcontains hp
      (.inl (List.prefix_refl front)) hnew with
      ⟨hwrite, hthere⟩ | ⟨v'', hwrite, hstaged', hcontains'⟩ <;> rw [hwrite]
    · -- a directory is in its place, so its parents were there
      have hthere' : directories accepted (front ++ [name]) := by
        refine hthere.resolve_left fun hprefix => ?_
        have := hprefix.length_le
        rw [List.length_append, List.length_singleton] at this
        omega
      refine ⟨hstaged, h.fits, h.based,
        hcontains.congr (fun rel => or_iff_right_of_imp fun hrel => ?_) fun _ _ => Iff.rfl⟩
      exact h.contains.directory_of_prefix hthere' (hrel.trans (List.prefix_append front [name]))
    · exact ⟨hstaged', h.fits, h.based, hcontains'.congr hdirectories hfiles⟩

end

/-! ## Runs -/

/-- A call is accepted or leaves the writer with what it had. -/
def Open.Next (r : Volume.Path) (v₀ : Volume) (accepted : List Call) (c : Call) (s : Step) : Prop :=
  s.Ensures (Open r v₀ (accepted ++ [c])) (Open r v₀ accepted)

theorem Open.next_add (hr : Rooted r) (h : Open r v₀ accepted w v) {c : Call}
    {write : Volume.Path → Volume → Except Error Unit × Volume}
    (hwrite : c.path.fault? = none → (∀ c' ∈ accepted, c'.name ≠ c.name) → ∀ u dir v,
      Laid r v₀ accepted u dir v →
      Laid.Next r v₀ accepted u dir c (write (r.sibling.join c.path) v)) :
    Open.Next r v₀ accepted c (w.add c.path c.name write v) := by
  rw [Writer.add, if_neg (by simp [h.unfinished])]
  split
  · exact h
  · rename_i hvalid
    split
    · exact h
    · rename_i hnew
      have hnames : ∀ c' ∈ accepted, c'.name ≠ c.name := fun c' hc' heq =>
        hnew (Std.TreeSet.mem_iff_contains.mp (heq ▸ h.names c' hc'))
      have hstage := (h.insert_name c.name).stage hr
      split
      · rename_i hstep
        rw [hstep] at hstage
        exact hstage
      · rename_i w' v' hstep
        rw [hstep] at hstage
        obtain ⟨h', hstaged, hwritten⟩ := hstage
        obtain ⟨-, u, dir, hlaid⟩ := h'.volume.resolve_left fun hvolume => by
          simp [hstaged] at hvolume
        have hnext := hwrite hvalid hnames u dir v' hlaid
        rw [staging_eq, h'.root]
        rcases hresult : write (r.sibling.join c.path) v' with ⟨_ | ⟨⟩, v''⟩ <;>
          rw [hresult] at hnext
        · exact { h' with volume := .inr ⟨hstaged, u, dir, hnext⟩ }
        · refine ⟨h'.root, h'.unfinished, ?_, .inr ⟨hstaged, u, dir, hnext⟩⟩
          refine List.forall_mem_append.mpr ⟨h'.names, List.forall_mem_singleton.mpr ?_⟩
          rw [hwritten]
          exact Std.TreeSet.mem_insert_self

theorem Open.next_run (hr : Rooted r) (h : Open r v₀ accepted w v) {c : Call} (hc : Admits r c) :
    Open.Next r v₀ accepted c (w.run v c) := by
  have halong (hvalid : c.path.fault? = none) :=
    along_join hr.way.named_sibling hvalid hc.zero (hc.path_le hvalid) (hc.name_le hvalid)
  cases c with
  | directory p =>
    exact h.next_add (c := .directory p) hr fun hvalid _ u dir v hlaid =>
      hlaid.next_writeDirectory hr (halong hvalid)
  | file p data =>
    refine h.next_add (c := .file p data) hr fun hvalid hnames u dir v hlaid =>
      hlaid.next_writeFile hr (halong hvalid) ?_
    rintro old ⟨p', hp', hcomponents⟩
    exact hnames _ hp' (Bytes.split_injective _ hcomponents)

theorem open_fresh (htree : v.IsTree) (hfirm : v.Firm r) (hapart : Apart r v) :
    Open r v [] { root := r } v where
  root := rfl
  unfinished := rfl
  names := by simp
  volume := .inl ⟨rfl, rfl, htree, hfirm, hapart, .refl r v⟩

/-- After any calls the writer is open, with what it has accepted. -/
theorem Open.runAll (hr : Rooted r) {calls : List Call} (hcalls : ∀ c ∈ calls, Admits r c)
    (h : Open r v₀ accepted w v) :
    Open r v₀ (accepted ++ (w.runAll v calls).1) (w.runAll v calls).2.1 (w.runAll v calls).2.2 := by
  induction calls generalizing accepted w v with
  | nil => rwa [Writer.runAll, List.append_nil]
  | cons c calls ih =>
    rw [List.forall_mem_cons] at hcalls
    have hnext := h.next_run hr hcalls.1
    rw [Writer.runAll]
    rcases hrun : w.run v c with ⟨_ | ⟨⟩, w', v'⟩ <;> rw [hrun] at hnext
    · exact ih hcalls.2 hnext
    · have hrest := ih hcalls.2 hnext
      rwa [List.append_assoc, List.singleton_append] at hrest

end JarRepair.Directory.Writer

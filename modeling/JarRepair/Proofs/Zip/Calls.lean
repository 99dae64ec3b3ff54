import Mathlib.Algebra.Order.BigOperators.Group.List
import Mathlib.Algebra.Order.Ring.Nat
import Mathlib.Data.List.Nodup
import JarRepair.Proofs.Outcome
import JarRepair.Proofs.Zip.Layout

/-! # What a writer has accepted

A writer accepts some of the calls that it gets, and holds an entry for each. The stored names of
these entries differ, their paths are valid, and their lengths add up to what the writer counts. -/

namespace JarRepair.Zip

open JarRepair.Archive (Path)

/-! ## Calls -/

inductive Call where
  | directory (p : Path)
  | file (p : Path) (data : Bytes)
deriving DecidableEq, Repr

namespace Call

def path : Call → Path
  | directory p | file p _ => p

/-- What a listing shows of a call. -/
def entry : Call → Archive.Entry
  | directory p => { path := p, kind := .directory }
  | file p _ => { path := p, kind := .file }

/-- The stored name of a call's entry. -/
def name : Call → Bytes
  | directory p => p ++ [Path.slash]
  | file p _ => p

/-- What a writer holds for a call. -/
def stored : Call → Writer.Entry
  | directory p => .ofDirectory p
  | file p data => .ofFile p data

def run (w : Writer) : Call → Except Error Unit × Writer
  | directory p => w.addDirectory p
  | file p data => w.addFile p data

@[simp] theorem path_entry (c : Call) : c.entry.path = c.path := by cases c <;> rfl

theorem entry_eq_directory_iff {c : Call} {p : Path} :
    c.entry = { path := p, kind := .directory } ↔ c = directory p := by
  cases c <;> simp [entry]

theorem entry_eq_file_iff {c : Call} {p : Path} :
    c.entry = { path := p, kind := .file } ↔ ∃ data, c = file p data := by
  cases c <;> simp [entry]

/-- No path is in a listing in both kinds if none is called for in both. -/
theorem kinds_apart_iff {calls : List Call} :
    (∀ p, { path := p, kind := .directory } ∈ calls.map entry →
      { path := p, kind := .file } ∉ calls.map entry) ↔
      ∀ p data, directory p ∈ calls → file p data ∉ calls := by
  simp only [List.mem_map, entry_eq_directory_iff, entry_eq_file_iff, exists_eq_right]
  constructor
  · exact fun h p data hdirectory hfile => h p hdirectory ⟨_, hfile, data, rfl⟩
  · rintro h p hdirectory ⟨_, hfile, data, rfl⟩
    exact h p data hdirectory hfile

@[simp] theorem name_stored (c : Call) : c.stored.name = c.name := by
  cases c with
  | directory p => rfl
  | file p data =>
    rw [stored, Writer.Entry.ofFile]
    split <;> rfl

theorem size_stored_file (p : Path) (data : Bytes) : (file p data).stored.size = data.length := by
  rw [stored, Writer.Entry.ofFile]
  split <;> rfl

def content : Call → Bytes
  | directory _ => []
  | file _ data => data

/-- What a call adds to an image at most. -/
def weight (c : Call) : Nat := 76 + 2 * c.name.length + c.content.length

theorem length_stored_le (c : Call) :
    c.stored.localLength + (CentralHeader.length + c.stored.name.length) ≤ c.weight := by
  rw [Writer.Entry.localLength, name_stored, weight, show LocalHeader.length = 30 from rfl,
    show CentralHeader.length = 46 from rfl]
  cases c with
  | directory p =>
    show 30 + _ + 0 + _ ≤ _ + 0
    omega
  | file p data =>
    -- The compressed form is only taken if it is shorter.
    have hpayload : (file p data).stored.payload.length ≤ data.length := by
      rw [stored, Writer.Entry.ofFile]
      split
      · rename_i packed hpacked
        exact Nat.le_of_lt (Deflate.shorten?_eq_some_iff.mp hpacked).2
      · exact Nat.le_refl _
    show _ ≤ _ + data.length
    omega

end Call

theorem length_layout_le (calls : List Call) :
    (layout (calls.map Call.stored)).length ≤ (calls.map Call.weight).sum + EndRecord.length := by
  rw [length_layout, directory, withOffsets_eq]
  refine Nat.add_le_add_right ?_ _
  generalize 0 = offset
  induction calls generalizing offset with
  | nil => exact Nat.le_refl 0
  | cons c calls ih =>
    have hc := c.length_stored_le
    have hcalls := ih (offset + c.stored.localLength)
    simp only [List.map_cons, offsetsFrom, body, List.flatMap_cons, List.length_append,
      List.sum_cons, Writer.Entry.length_localPart, Writer.Entry.length_centralPart] at hcalls ⊢
    omega

namespace Writer

/-- The calls that are accepted of these, and the writer after all of them. -/
def runAll (w : Writer) : List Call → List Call × Writer
  | [] => ([], w)
  | c :: calls =>
    match c.run w with
    | (.ok _, w) => (c :: (w.runAll calls).1, (w.runAll calls).2)
    | (.error _, w) => w.runAll calls

/-! ## Steps -/

/-- The writer is open and has accepted these calls. -/
structure Holds (accepted : List Call) (w : Writer) : Prop where
  unfinished : w.finished = false
  entries : w.entries = accepted.map Call.stored
  bodyLength : w.bodyLength = (body w.entries).length
  names : ∀ c ∈ accepted, c.name ∈ w.names
  nodup : (accepted.map Call.name).Nodup
  valid : ∀ c ∈ accepted, c.path.fault? = none
  size : ∀ p data, .file p data ∈ accepted → data.length ≤ maxFile

variable {w w' : Writer} {accepted : List Call} {c : Call}

theorem holds_fresh (path : Volume.Path) : Holds [] { path } where
  unfinished := rfl
  entries := rfl
  bodyLength := rfl
  names := by simp
  nodup := List.nodup_nil
  valid := by simp
  size := by simp

/-- A call is accepted or leaves the writer with what it had. -/
def Holds.Next (accepted : List Call) (c : Call) : Except Error Unit × Writer → Prop
  | (.ok _, w) => Holds (accepted ++ [c]) w
  | (.error _, w) => Holds accepted w

theorem Holds.insert_name (h : Holds accepted w) (name : Bytes) :
    Holds accepted { w with names := w.names.insert name } :=
  { h with names := fun c hc => Std.TreeSet.mem_insert.mpr (.inr (h.names c hc)) }

/-- An entry whose name is reserved for it is accepted unless the image has no room for it. -/
theorem Holds.next_accept (h : Holds accepted w) (hname : c.name ∈ w.names)
    (hnew : ∀ c' ∈ accepted, c'.name ≠ c.name) (hvalid : c.path.fault? = none)
    (hsize : ∀ p data, c = .file p data → data.length ≤ maxFile) :
    Holds.Next accepted c (w.accept c.stored) := by
  rw [accept, if_neg (by rw [h.unfinished]; simp)]
  split
  · exact h
  · split
    · exact h
    · have hentries : (c.stored :: w.accepted).reverse = w.entries ++ [c.stored] :=
        List.reverse_cons
      refine ⟨h.unfinished, ?_, ?_, ?_, ?_, ?_, ?_⟩
      · rw [List.map_append, ← h.entries]
        exact hentries
      · rw [Writer.entries, hentries, body, List.flatMap_append, List.length_append, h.bodyLength,
          List.flatMap_singleton, Entry.length_localPart]
        rfl
      · exact List.forall_mem_append.mpr ⟨h.names, List.forall_mem_singleton.mpr hname⟩
      · rw [List.map_append, List.nodup_append]
        refine ⟨h.nodup, List.nodup_singleton _, ?_⟩
        rintro _ hfirst _ hlast rfl
        obtain ⟨c', hc', heq⟩ := List.mem_map.mp hfirst
        rw [List.map_singleton, List.mem_singleton] at hlast
        exact hnew c' hc' (heq.trans hlast)
      · exact List.forall_mem_append.mpr ⟨h.valid, List.forall_mem_singleton.mpr hvalid⟩
      · intro p data hfile
        rcases List.mem_append.mp hfile with hfile | hfile
        · exact h.size p data hfile
        · exact hsize p data (List.mem_singleton.mp hfile).symm

theorem Holds.next_addNamed (h : Holds accepted w) (hvalid : c.path.fault? = none)
    (hsize : ∀ p data, c = .file p data → data.length ≤ maxFile) (p : Path) :
    Holds.Next accepted c (w.addNamed p c.name fun _ => c.stored) := by
  rw [addNamed]
  split
  · exact h
  · rename_i hnew
    refine (h.insert_name c.name).next_accept Std.TreeSet.mem_insert_self ?_ hvalid hsize
    exact fun c' hc' heq => hnew (Std.TreeSet.mem_iff_contains.mp (heq ▸ h.names c' hc'))

theorem Holds.next_run (h : Holds accepted w) (c : Call) : Holds.Next accepted c (c.run w) := by
  cases c with
  | directory p =>
    rw [Call.run, addDirectory]
    split
    · exact h
    · rename_i hvalid
      exact h.next_addNamed (c := .directory p) hvalid (by simp) p
  | file p data =>
    rw [Call.run, addFile]
    split
    · exact h
    · rename_i hvalid
      split
      · exact h
      · rename_i hsize
        refine h.next_addNamed (c := .file p data) hvalid ?_ p
        rintro _ _ ⟨⟩
        exact Nat.not_lt.mp hsize

/-- After some calls a writer holds those that it has accepted. -/
theorem Holds.runAll (h : Holds accepted w) (calls : List Call) :
    Holds (accepted ++ (w.runAll calls).1) (w.runAll calls).2 := by
  induction calls generalizing w accepted with
  | nil => simpa [Writer.runAll] using h
  | cons c calls ih =>
    have hnext := h.next_run c
    rw [Writer.runAll]
    rcases hrun : c.run w with ⟨e | _, w'⟩
    · rw [hrun] at hnext
      exact ih hnext
    · rw [hrun] at hnext
      have hall := ih hnext
      rwa [List.append_assoc] at hall

theorem holds_of_runAll {path : Volume.Path} {calls : List Call}
    (hrun : ({ path } : Writer).runAll calls = (accepted, w)) : Holds accepted w := by
  have hall := (holds_fresh path).runAll calls
  rwa [hrun, List.nil_append] at hall

/-! ## Calls that are all accepted -/

/-- The writer after a call that it accepts. -/
def step (w : Writer) (c : Call) : Except Error Writer :=
  match c.run w with
  | (.ok _, w) => .ok w
  | (.error e, _) => .error e

/-- The writer after these calls, if it accepts all of them. -/
def acceptAll (w : Writer) (calls : List Call) : Except Error Writer := calls.foldlM step w

theorem acceptAll_append (w : Writer) (calls rest : List Call) :
    w.acceptAll (calls ++ rest) = w.acceptAll calls >>= fun w => w.acceptAll rest :=
      List.foldlM_append ..

theorem acceptAll_concat {w w₁ w₂ : Writer} {calls : List Call} (h : w.acceptAll calls = .ok w₁)
    (hrun : c.run w₁ = (.ok (), w₂)) : w.acceptAll (calls ++ [c]) = .ok w₂ := by
  rw [acceptAll_append, h]
  show w₁.step c >>= pure = _
  rw [step, hrun]
  rfl

/-- Each of these calls is accepted after those before it. -/
theorem exists_run_of_acceptAll {w w' : Writer} {calls rest : List Call}
    (h : w.acceptAll (calls ++ c :: rest) = .ok w') :
    ∃ w₁ w₂, w.acceptAll calls = .ok w₁ ∧ c.run w₁ = (.ok (), w₂) := by
  rw [acceptAll_append] at h
  obtain ⟨w₁, hcalls, hrest⟩ := Outcome.bind_eq_ok_iff.mp h
  rw [acceptAll, List.foldlM_cons] at hrest
  obtain ⟨w₂, hstep, -⟩ := Outcome.bind_eq_ok_iff.mp hrest
  rw [step] at hstep
  split at hstep
  · rename_i hrun
    exact ⟨w₁, _, hcalls, hrun⟩
  · exact nomatch hstep

theorem Holds.acceptAll (h : Holds accepted w) {calls : List Call}
    (hrun : w.acceptAll calls = .ok w') :
    Holds (accepted ++ calls) w' := by
  induction calls generalizing w accepted with
  | nil =>
    obtain rfl := Except.ok.inj hrun
    rwa [List.append_nil]
  | cons c calls ih =>
    rw [Writer.acceptAll, List.foldlM_cons] at hrun
    obtain ⟨w₁, hstep, hrest⟩ := Outcome.bind_eq_ok_iff.mp hrun
    have hnext := h.next_run c
    rw [step] at hstep
    split at hstep
    · rename_i hc
      obtain rfl := Except.ok.inj hstep
      rw [hc] at hnext
      have hall := ih hnext hrest
      rwa [List.append_assoc] at hall
    · exact nomatch hstep

/-- What a writer holds, and no more: it counts its entries and reserves their names only. -/
structure HoldsOnly (accepted : List Call) (w : Writer) : Prop extends Holds accepted w where
  count : w.count = accepted.length
  only : ∀ name ∈ w.names, ∃ c ∈ accepted, c.name = name

theorem holdsOnly_fresh (path : Volume.Path) : HoldsOnly [] { path } where
  toHolds := holds_fresh path
  count := rfl
  only := by simp

/-- A call is acceptable after some others: its path is valid and its name new, and there is
room. -/
structure Acceptable (accepted : List Call) (c : Call) : Prop where
  valid : c.path.fault? = none
  new : ∀ c' ∈ accepted, c'.name ≠ c.name
  size : ∀ p data, c = .file p data → data.length ≤ maxFile
  count : accepted.length < maxEntries
  room : (body ((accepted ++ [c]).map Call.stored)).length ≤ maxImage

theorem HoldsOnly.addNamed_eq (h : HoldsOnly accepted w) (hc : Acceptable accepted c) (p : Path) :
    ∃ w', w.addNamed p c.name (fun _ => c.stored) = (.ok (), w') ∧ w'.count = w.count + 1 ∧
      w'.names = w.names.insert c.name := by
  have hname : ¬ w.names.contains c.name = true := by
    rw [← Std.TreeSet.mem_iff_contains]
    intro hmem
    obtain ⟨c', hc', heq⟩ := h.only c.name hmem
    exact hc.new c' hc' heq
  have hcount : ¬ maxEntries ≤ w.count := by
    rw [h.count]
    exact Nat.not_le.mpr hc.count
  have hroom : ¬ maxImage < w.bodyLength + c.stored.localLength := by
    have hlength := hc.room
    rw [List.map_append, ← h.entries, body, List.flatMap_append, List.length_append,
      List.map_singleton, List.flatMap_singleton, Entry.length_localPart] at hlength
    rw [h.bodyLength]
    exact Nat.not_lt.mpr hlength
  rw [addNamed, if_neg hname, accept]
  dsimp only
  rw [h.unfinished, if_neg (by simp), if_neg hcount, if_neg hroom]
  exact ⟨_, rfl, rfl, rfl⟩

theorem HoldsOnly.exists_run (h : HoldsOnly accepted w) (hc : Acceptable accepted c) :
    ∃ w', c.run w = (.ok (), w') ∧ HoldsOnly (accepted ++ [c]) w' := by
  obtain ⟨w', hrun, hcount, hnames⟩ : ∃ w', c.run w = (.ok (), w') ∧ w'.count = w.count + 1 ∧
      w'.names = w.names.insert c.name := by
    have hvalid := hc.valid
    cases c with
    | directory p =>
      rw [Call.run, addDirectory, show p.fault? = none from hvalid]
      exact h.addNamed_eq hc p
    | file p data =>
      rw [Call.run, addFile, show p.fault? = none from hvalid]
      dsimp only
      rw [if_neg (Nat.not_lt.mpr (hc.size p data rfl))]
      exact h.addNamed_eq hc p
  have hnext := h.next_run c
  rw [hrun] at hnext
  refine ⟨w', hrun, hnext, ?_, fun name hname => ?_⟩
  · rw [hcount, h.count, List.length_append, List.length_singleton]
  · rw [hnames, Std.TreeSet.mem_insert, Std.LawfulEqCmp.compare_eq_iff_eq] at hname
    rcases hname with rfl | hname
    · exact ⟨c, List.mem_append_right _ (List.mem_singleton_self c), rfl⟩
    · obtain ⟨c', hc', heq⟩ := h.only name hname
      exact ⟨c', List.mem_append_left _ hc', heq⟩

/-- Calls with valid paths and different names are all accepted if there is room for them. -/
theorem HoldsOnly.exists_acceptAll (h : HoldsOnly accepted w) {calls : List Call}
    (hvalid : ∀ c ∈ calls, c.path.fault? = none)
    (hnodup : ((accepted ++ calls).map Call.name).Nodup)
    (hsize : ∀ p data, .file p data ∈ calls → data.length ≤ maxFile)
    (hcount : (accepted ++ calls).length ≤ maxEntries)
    (hroom : (body ((accepted ++ calls).map Call.stored)).length ≤ maxImage) :
    ∃ w', w.acceptAll calls = .ok w' := by
  induction calls generalizing w accepted with
  | nil => exact ⟨w, rfl⟩
  | cons c calls ih =>
    have hassoc : accepted ++ c :: calls = accepted ++ [c] ++ calls := by simp
    have hc : Acceptable accepted c := by
      refine ⟨hvalid c List.mem_cons_self, fun c' hc' heq => ?_, ?_, ?_, ?_⟩
      · rw [List.map_append, List.nodup_append] at hnodup
        exact hnodup.2.2 _ (List.mem_map_of_mem hc') _ List.mem_cons_self heq
      · rintro p data rfl
        exact hsize p data List.mem_cons_self
      · rw [List.length_append, List.length_cons] at hcount
        omega
      · rw [hassoc, List.map_append, body, List.flatMap_append, List.length_append] at hroom
        exact Nat.le_of_add_right_le hroom
    obtain ⟨w₁, hrun, h₁⟩ := h.exists_run hc
    rw [hassoc] at hnodup hcount hroom
    obtain ⟨w', hrest⟩ := ih h₁ (fun c' hc' => hvalid c' (List.mem_cons_of_mem c hc')) hnodup
      (fun p data hmem => hsize p data (List.mem_cons_of_mem c hmem)) hcount hroom
    refine ⟨w', ?_⟩
    rw [acceptAll, List.foldlM_cons, step, hrun]
    exact hrest

/-- Calls with valid paths and different names are all accepted if they are not too heavy. -/
theorem exists_acceptAll_of_weight (path : Volume.Path) (calls : List Call)
    (hvalid : ∀ c ∈ calls, c.path.fault? = none) (hnodup : (calls.map Call.name).Nodup)
    (hcount : calls.length ≤ maxEntries)
    (hweight : (calls.map Call.weight).sum + EndRecord.length ≤ maxImage) :
    ∃ w, ({ path } : Writer).acceptAll calls = .ok w ∧ (layout w.entries).length < 4294967296 := by
  have hlayout := Nat.le_trans (length_layout_le calls) hweight
  have hlength := length_layout (calls.map Call.stored)
  rw [maxImage] at hlayout hweight
  rw [show EndRecord.length = 22 from rfl] at hlength hweight
  have hsize (p : Path) (data : Bytes) (hc : .file p data ∈ calls) : data.length ≤ maxFile := by
    have hle : (Call.file p data).weight ≤ (calls.map Call.weight).sum :=
      List.le_sum_of_mem (List.mem_map_of_mem hc)
    rw [Call.weight, show (Call.file p data).content = data from rfl] at hle
    rw [maxFile]
    omega
  obtain ⟨w, hw⟩ := (holdsOnly_fresh path).exists_acceptAll hvalid hnodup hsize hcount
    (show (body (calls.map Call.stored)).length ≤ maxImage by
      rw [maxImage]
      omega)
  refine ⟨w, hw, ?_⟩
  rw [((holds_fresh path).acceptAll hw).entries, List.nil_append]
  omega

/-- The same writer for another path. -/
def moved (w : Writer) (path : Volume.Path) : Writer := { w with path }

theorem accept_moved (e : Entry) (w : Writer) (path : Volume.Path) :
    (w.moved path).accept e = ((w.accept e).1, (w.accept e).2.moved path) := by
  by_cases hfinished : w.finished = true
  · simp [accept, moved, hfinished]
  · by_cases hcount : maxEntries ≤ w.count
    · simp [accept, moved, hfinished, hcount]
    · by_cases himage : maxImage < w.bodyLength + e.localLength
      · simp [accept, moved, hfinished, hcount, himage]
      · simp [accept, moved, hfinished, hcount, himage]

theorem addNamed_moved (p : Path) (name : Bytes) (e : Unit → Entry) (w : Writer)
    (path : Volume.Path) :
    (w.moved path).addNamed p name e =
      ((w.addNamed p name e).1, (w.addNamed p name e).2.moved path) := by
  have hnames : (w.moved path).names.contains name = w.names.contains name := rfl
  rw [addNamed, addNamed, hnames]
  by_cases hname : w.names.contains name = true
  · rw [if_pos hname, if_pos hname]
  · rw [if_neg hname, if_neg hname]
    exact accept_moved (e ()) { w with names := w.names.insert name } path

/-- What is accepted does not depend on where the image will be. -/
theorem run_moved (c : Call) (w : Writer) (path : Volume.Path) :
    c.run (w.moved path) = ((c.run w).1, (c.run w).2.moved path) := by
  cases c with
  | directory p =>
    rw [Call.run, Call.run, addDirectory, addDirectory]
    split
    · rfl
    · exact addNamed_moved p _ _ w path
  | file p data =>
    rw [Call.run, Call.run, addFile, addFile]
    split
    · rfl
    · split
      · rfl
      · exact addNamed_moved p _ _ w path

theorem acceptAll_moved {w w' : Writer} {calls : List Call} (h : w.acceptAll calls = .ok w')
    (path : Volume.Path) : (w.moved path).acceptAll calls = .ok (w'.moved path) := by
  induction calls generalizing w with
  | nil =>
    obtain rfl := Except.ok.inj h
    rfl
  | cons c calls ih =>
    rw [acceptAll, List.foldlM_cons] at h ⊢
    obtain ⟨w₁, hstep, hrest⟩ := Outcome.bind_eq_ok_iff.mp h
    refine Outcome.bind_eq_ok_iff.mpr ⟨w₁.moved path, ?_, ih hrest⟩
    rw [step] at hstep ⊢
    rw [run_moved]
    rcases hrun : c.run w with ⟨_ | _, w₂⟩
    · rw [hrun] at hstep
      exact nomatch hstep
    · rw [hrun] at hstep
      obtain rfl := Except.ok.inj hstep
      rfl

/-! ## Finishing -/

theorem image_of_finish (h : w.finish = .ok w') : w'.image = layout w.entries := by
  rw [finish] at h
  split at h
  · exact nomatch h
  · split at h
    · exact nomatch h
    · obtain rfl := Except.ok.inj h
      rfl

theorem finish_moved (h : w.finish = .ok w') (path : Volume.Path) :
    (w.moved path).finish = .ok (w'.moved path) := by
  rw [finish] at h ⊢
  split at h
  · exact nomatch h
  · rename_i hfinished
    split at h
    · exact nomatch h
    · rename_i himage
      obtain rfl := Except.ok.inj h
      exact (if_neg hfinished).trans (if_neg himage)

end Writer

end JarRepair.Zip

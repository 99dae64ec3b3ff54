import JarRepair.Proofs.Zip.Calls

/-! # Why a writer refuses a call

A call is refused for its path, because its stored name was asked for before, or because there is no
room for its entry. A writer that got some calls, accepted or refused, was asked for their names
only. -/

namespace JarRepair.Zip.Writer

open JarRepair.Archive (alreadyFinished writtenTwice)

inductive Refuses (w : Writer) : Call → Error → Prop
  | path {c : Call} {fault : Archive.Path.Fault} (h : c.path.fault? = some fault) :
    Refuses w c (.io (fault.text c.path))
  | twice {c : Call} (h : c.name ∈ w.names) : Refuses w c (writtenTwice c.path)
  | finished {c : Call} (h : w.finished = true) : Refuses w c (alreadyFinished.withEntry c.name)
  | entries {c : Call} (h : maxEntries ≤ w.count) :
    Refuses w c (.io "too many entries for a zip without zip64")
  | image {c : Call} (h : maxImage < w.bodyLength + c.stored.localLength) :
    Refuses w c (.io "archive exceeds 4 GiB without zip64")
  | file {p : Archive.Path} {data : Bytes} (h : maxFile < data.length) :
    Refuses w (.file p data) ((Error.io "entry exceeds 4 GiB without zip64").withEntry p)

/-- What a writer can be after some calls. -/
structure After (w : Writer) (calls : List Call) (w' : Writer) : Prop where
  finished : w'.finished = w.finished
  names : ∀ name ∈ w'.names, name ∈ w.names ∨ ∃ c ∈ calls, c.name = name
  count : w'.count ≤ w.count + calls.length

variable {w w' w₁ w₂ : Writer} {c : Call} {calls rest : List Call}

theorem After.refl (w : Writer) (calls : List Call) : After w calls w where
  finished := rfl
  names _ := .inl
  count := Nat.le_add_right _ _

theorem After.trans (h : After w calls w₁) (h' : After w₁ rest w₂) :
    After w (calls ++ rest) w₂ where
  finished := h'.finished.trans h.finished
  names name hname := by
    rcases h'.names name hname with hname | ⟨c, hc, heq⟩
    · rcases h.names name hname with hname | ⟨c, hc, heq⟩
      · exact .inl hname
      · exact .inr ⟨c, List.mem_append_left _ hc, heq⟩
    · exact .inr ⟨c, List.mem_append_right _ hc, heq⟩
  count := by
    have hfirst := h.count
    have hsecond := h'.count
    rw [List.length_append]
    omega

/-- How a single call ends: the writer is one after it, and a refusal has its reason before it. -/
def Ends (w : Writer) (c : Call) : Except Error Unit × Writer → Prop
  | (.ok _, w') => After w [c] w'
  | (.error e, w') => Refuses w c e ∧ After w [c] w'

theorem ends_addNamed (w : Writer) (c : Call) :
    Ends w c (w.addNamed c.path c.name fun _ => c.stored) := by
  have hasked (accepted : List Entry) (count bodyLength : Nat) (hcount : count ≤ w.count + 1) :
      After w [c] { w with names := w.names.insert c.name, accepted, count, bodyLength } := by
    refine ⟨rfl, fun name hname => ?_, hcount⟩
    rw [Std.TreeSet.mem_insert, Std.LawfulEqCmp.compare_eq_iff_eq] at hname
    exact hname.elim (fun heq => .inr ⟨c, List.mem_singleton_self c, heq⟩) .inl
  rw [addNamed]
  split
  · rename_i hname
    exact ⟨.twice (Std.TreeSet.mem_iff_contains.mpr hname), .refl w [c]⟩
  · rw [accept]
    have hrefused := hasked w.accepted w.count w.bodyLength (Nat.le_succ _)
    split
    · rename_i hfinished
      rw [c.name_stored]
      exact ⟨.finished (c := c) hfinished, hrefused⟩
    · split
      · rename_i hcount
        exact ⟨.entries hcount, hrefused⟩
      · split
        · rename_i himage
          exact ⟨.image himage, hrefused⟩
        · exact hasked _ _ _ (Nat.le_refl _)

theorem ends_run (w : Writer) (c : Call) : Ends w c (c.run w) := by
  cases c with
  | directory p =>
    rw [Call.run, addDirectory]
    split
    · rename_i fault hfault
      exact ⟨.path hfault, .refl w _⟩
    · exact ends_addNamed w (.directory p)
  | file p data =>
    rw [Call.run, addFile]
    split
    · rename_i fault hfault
      exact ⟨.path hfault, .refl w _⟩
    · split
      · rename_i hlarge
        exact ⟨.file hlarge, .refl w _⟩
      · exact ends_addNamed w (.file p data)

theorem refuses_of_run {e : Error} (h : (c.run w).1 = .error e) : Refuses w c e := by
  have hends := ends_run w c
  rcases hrun : c.run w with ⟨e' | _, w'⟩
  · rw [hrun] at hends h
    obtain rfl := Except.error.inj h
    exact hends.1
  · rw [hrun] at h
    exact nomatch h

theorem after_runAll (w : Writer) (calls : List Call) : After w calls (w.runAll calls).2 := by
  induction calls generalizing w with
  | nil => exact .refl w []
  | cons c calls ih =>
    have hends := ends_run w c
    rw [runAll]
    rcases hrun : c.run w with ⟨_ | _, w'⟩
    · rw [hrun] at hends
      exact hends.2.trans (ih w')
    · rw [hrun] at hends
      exact After.trans hends (ih w')

end JarRepair.Zip.Writer

import JarRepair.Proofs.Repair.Overriding

/-! # Edits and the class-file format

A repair edits classes in three ways: it realigns their constructors, marks the methods that
override, and adds single markers. Edits that fail leave a class behind too. Whatever is edited
stays well-formed, so if the class can be written it is read back as it is. -/

namespace JarRepair.Repair

open JarRepair.Task

/-- An edit of a class, with all that it depends on. -/
inductive Edit : Type 1 where
  | realign
  /-- Marks what overrides methods of the ancestors that are found from the bench. -/
  | override {σ : Type} (src : Sources σ) (bench : Bench σ) (r : ClassFile.Resolver)
  | mark (k : Nat) (type : Bytes)

namespace Edit

/-- The class after an edit, whether or not the edit fails. -/
def apply (c : ClassFile) : Edit → ClassFile
  | .realign => (ClassFile.realign.runOn c).2.state
  | .override src bench r =>
    match ((inheritedSignatures src c).runOn bench).1 with
    | .ok inherited => ((ClassFile.markOverrides r inherited).runOn c).2.state
    | .error _ => c
  | .mark k type => ((ClassFile.addMarker k type).runOn c).2.state

variable {c : ClassFile}

theorem wellFormed_runOn {α : Type} {t : Task ClassFile α}
    (h : t.Ensures c (fun _ => ClassFile.WellFormed) (fun _ => ClassFile.WellFormed)) :
    (t.runOn c).2.state.WellFormed := by
  have h' := h #[]
  rw [runOn]
  split at h'
  · rename_i hrun
    rw [hrun]
    exact h'
  · rename_i hrun
    rw [hrun]
    exact h'

theorem wellFormed_apply (hc : c.WellFormed) (e : Edit) : (e.apply c).WellFormed := by
  cases e with
  | realign => exact wellFormed_runOn hc.ensures_realign
  | override src bench r =>
    rw [apply]
    split
    · rename_i inherited _
      exact wellFormed_runOn
        (ClassFile.ensures_markOverrides hc (fun _ _ _ _ hc hrun => hc.of_mark hrun)
        (fun _ _ hc => hc) (fun _ _ _ _ _ hc hrun => hc.of_mark hrun))
    · exact hc
  | mark k type =>
    exact wellFormed_runOn
      (ClassFile.ensures_addMarker (fun _ _ hrun => hc.of_mark hrun)
        (fun _ _ hrun => hc.of_mark hrun))

theorem wellFormed_foldl (hc : c.WellFormed) (edits : List Edit) :
    (edits.foldl apply c).WellFormed := by
  induction edits generalizing c with
  | nil => exact hc
  | cons e edits ih => exact ih (wellFormed_apply hc e)

end Edit

open ClassFile

/-- A class that was read and edited is read back as it is from the bytes that are written for
it. -/
theorem decode_of_encode_edits {data data' : Bytes} {c : ClassFile} (edits : List Edit)
    (hread : decode data = .ok c) (hwrite : (edits.foldl Edit.apply c).encode = .ok data') :
    decode data' = .ok (edits.foldl Edit.apply c) := by
  have hc : c.WellFormed := (decode_eq_ok_iff.mp hread).1
  exact decode_eq_ok_iff.mpr ⟨Edit.wellFormed_foldl hc edits, hwrite⟩

/-- Every kind of edit; no container holds any class. -/
def sampleEdits : List Edit :=
  [.realign,
    .override
    { primary := { location := [], entries := [], files := ∅, read := fun _ => throw (.io []) } }
      { world := () } .bridge,
    .mark 0 "LX;", .mark 1 "LX;"]

theorem decode_of_encode_sampleEdits : ∃ c data, decode twiceAnnotated = .ok c ∧
    (sampleEdits.foldl Edit.apply c).encode = .ok data ∧ data.length = twiceAnnotated.length + 10 ∧
      decode data = .ok (sampleEdits.foldl Edit.apply c) := by
  have hrun : ((decode twiceAnnotated).toOption.bind fun c =>
      (sampleEdits.foldl Edit.apply c).encode.toOption.map List.length) =
        some (twiceAnnotated.length + 10) := by decide +kernel
  cases hread : decode twiceAnnotated with
  | error failure => simp [hread, Except.toOption] at hrun
  | ok c =>
    cases hwrite : (sampleEdits.foldl Edit.apply c).encode with
    | error e => simp [hread, hwrite, Except.toOption] at hrun
    | ok data =>
      have hlength : data.length = twiceAnnotated.length + 10 := by
        simpa [hread, hwrite, Except.toOption] using hrun
      exact ⟨c, data, rfl, hwrite, hlength, decode_of_encode_edits sampleEdits hread hwrite⟩

end JarRepair.Repair

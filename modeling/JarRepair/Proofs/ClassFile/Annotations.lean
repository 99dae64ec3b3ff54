import JarRepair.Proofs.ClassFile.PoolGrowth

/-! # Annotations that can be written and read back

An annotation is kept as its bytes. It is well-formed if these bytes are exactly one annotation and
the type named in them is its type. Sets of such annotations, alone and for each parameter, are read
back from what is written for them, and nothing else is read as them. -/

namespace JarRepair.ClassFile

open JarRepair.Outcome
open JarRepair.ClassFile.Parser

variable {pool pool' : Pool}

theorem wordCount_eq_ok_iff {α : Type} {fault : Fault} {xs : List α} {bs : Bytes} :
    wordCount fault xs = .ok bs ↔ xs.length ≤ maxWord ∧ bs = Bytes.word xs.length.toUInt16 := by
  rw [wordCount, ite_error_eq_ok_iff, Nat.not_lt]

/-! ## Element values -/

instance (depth : Nat) : Local (elementValue depth) := by
  induction depth with
  | zero => exact inferInstanceAs (Local (throw Fault.tooDeep : Parser Fault Unit))
  | succ depth ih =>
    unfold elementValue
    infer_instance

instance : Local annotationType := by
  unfold annotationType
  infer_instance

instance : Local (annotationEntry pool) := by
  have h (x : UInt16 × Bytes) : Local (match x with
      | (index, raw) => do return { type := ← pool.utf8 index, raw } :
          Parser Fault Annotation) := by
    obtain ⟨index, raw⟩ := x
    infer_instance
  unfold annotationEntry
  infer_instance

/-! ## Annotations -/

def Annotation.WellFormed (pool : Pool) (a : Annotation) : Prop :=
  ∃ index, Reads annotationType a.raw index ∧ pool.utf8 index = .ok a.type

theorem Annotation.WellFormed.mono {a : Annotation} (ha : a.WellFormed pool) (h : pool ≤ pool') :
    a.WellFormed pool' := by
  obtain ⟨index, hraw, htype⟩ := ha
  exact ⟨index, hraw, Pool.utf8_mono h htype⟩

theorem Annotation.wellFormed_marker {type : Bytes} {index : UInt16}
    (h : pool.utf8 index = .ok type) : Annotation.WellFormed pool (.marker type index) := by
  have hpairs : Reads word [0, 0] 0 := reads_word 0
  have hnone : Reads (skipTimes (do skip 2; elementValue (maxDepth + 1)) 0) [] () := reads_pure ()
  exact ⟨index, (reads_word index).bind (hpairs.bind (hnone.bind_pure fun _ => index)), h⟩

theorem reads_annotationEntry_iff {bs : Bytes} {a : Annotation} :
    Reads (annotationEntry pool) bs a ↔ bs = a.raw ∧ a.WellFormed pool := by
  have h (x : UInt16 × Bytes) : Local (match x with
      | (index, raw) => do return { type := ← pool.utf8 index, raw } :
          Parser Fault Annotation) := by
    obtain ⟨index, raw⟩ := x
    infer_instance
  simp only [annotationEntry, reads_bind_iff, Prod.exists, reads_withSource_iff, reads_liftM_iff,
    reads_pure_iff, Annotation.WellFormed]
  constructor
  · rintro ⟨index, raw, _, ⟨hraw, rfl⟩, _, ⟨type, _, ⟨htype, rfl⟩, _, ⟨rfl, rfl⟩, rfl⟩, rfl⟩
    exact ⟨by simp, index, hraw, htype⟩
  · rintro ⟨rfl, index, hraw, htype⟩
    exact ⟨index, a.raw, a.raw, ⟨hraw, rfl⟩, [], ⟨a.type, [], ⟨htype, rfl⟩, [], by simp⟩, by simp⟩

/-! ## Sets -/

/-- Every annotation of the set is well-formed. -/
def AnnotationSet.WellFormed (pool : Pool) (set : AnnotationSet) : Prop :=
  ∀ a ∈ set, a.WellFormed pool

theorem AnnotationSet.WellFormed.mono {set : AnnotationSet} (hs : set.WellFormed pool)
    (h : pool ≤ pool') : set.WellFormed pool' := fun a ha => (hs a ha).mono h

theorem AnnotationSet.encode_eq_ok_iff {set : AnnotationSet} {bs : Bytes} :
    set.encode = .ok bs ↔
      set.length ≤ maxWord ∧ bs = Bytes.word set.length.toUInt16 ++ set.flatMap Annotation.raw := by
  simp only [AnnotationSet.encode, bind_eq_ok_iff, wordCount_eq_ok_iff, pure_eq_ok_iff]
  constructor
  · rintro ⟨_, ⟨hlength, rfl⟩, rfl⟩
    exact ⟨hlength, rfl⟩
  · rintro ⟨hlength, rfl⟩
    exact ⟨_, ⟨hlength, rfl⟩, rfl⟩

instance : Local (annotationSet pool) := by
  unfold annotationSet
  infer_instance

theorem reads_annotationSet_iff {bs : Bytes} {set : AnnotationSet} :
    Reads (annotationSet pool) bs set ↔ set.encode = .ok bs ∧ set.WellFormed pool := by
  simp only [annotationSet, reads_bind_iff, reads_word_iff, AnnotationSet.encode_eq_ok_iff,
    reads_times_iff_flatMap reads_annotationEntry_iff]
  constructor
  · rintro ⟨count, _, rfl, _, ⟨rfl, hlength, hgood⟩, rfl⟩
    have hlt := count.toNat_lt
    rw [hlength, toUInt16_toNat]
    exact ⟨⟨by simp only [maxWord]; omega, rfl⟩, hgood⟩
  · rintro ⟨⟨hlength, rfl⟩, hgood⟩
    exact ⟨_, _, rfl, _, ⟨rfl, (toNat_toUInt16 hlength).symm, hgood⟩, rfl⟩

/-! ## Sets for parameters -/

namespace ParameterChannel

variable {p : ParameterChannel}

theorem length_written (p : ParameterChannel) : p.written.length = p.count.toNat := by
  simp only [written, List.length_append, List.length_take, List.length_replicate]
  omega

/-- What is written for a position is its set, or an empty one past the last. -/
theorem getElem?_written {i : Nat} (hi : i < p.count.toNat) :
    p.written[i]? = some ((p.sets.getD []).getD i []) := by
  simp only [written, List.getElem?_append, List.length_take, List.getElem?_take, hi, if_true,
    List.getElem?_replicate, List.getD_eq_getElem?_getD]
  by_cases hlt : i < (p.sets.getD []).length
  · rw [if_pos (by omega), List.getElem?_eq_getElem hlt, Option.getD_some]
  · rw [if_neg (by omega), if_pos (by omega), List.getElem?_eq_none (by omega), Option.getD_none]

theorem written_of_count_eq {sets : List AnnotationSet} :
    ({ sets := some sets, count := sets.length } : ParameterChannel).written = sets := by
  simp [written]

theorem encode_eq_ok_iff_written {bs : Bytes} : p.encode = .ok bs ↔
    (0 ≤ p.count ∧ p.count ≤ maxByte) ∧ ∃ parts, p.written.mapM AnnotationSet.encode = .ok parts ∧
      bs = p.count.toNat.toUInt8 :: parts.flatten := by
  have hcond : (p.count < 0 ∨ (maxByte : Int) < p.count) ↔ ¬ (0 ≤ p.count ∧ p.count ≤ maxByte) := by
    omega
  simp only [encode, hcond]
  by_cases h : 0 ≤ p.count ∧ p.count ≤ maxByte
  · simp [h, @eq_comm _ bs]
  · simp [h]

/-- A channel whose count is that of its sets is written with all of them. -/
theorem encode_eq_ok_iff {sets : List AnnotationSet} {bs : Bytes} :
    ({ sets := some sets, count := sets.length } : ParameterChannel).encode = .ok bs ↔
      sets.length ≤ maxByte ∧ ∃ parts, sets.mapM AnnotationSet.encode = .ok parts ∧
        bs = sets.length.toUInt8 :: parts.flatten := by
  rw [encode_eq_ok_iff_written, written_of_count_eq, Int.toNat_natCast]
  simp

end ParameterChannel

instance : Local (parameterSets pool) := by
  unfold parameterSets
  infer_instance

theorem reads_parameterSets_iff {bs : Bytes} {sets : List AnnotationSet} :
    Reads (parameterSets pool) bs sets ↔
      ({ sets := some sets, count := sets.length } : ParameterChannel).encode = .ok bs ∧
        ∀ set ∈ sets, set.WellFormed pool := by
  simp only [parameterSets, reads_bind_iff, reads_byte_iff, ParameterChannel.encode_eq_ok_iff,
    reads_times_iff, forall₂_reads_iff_mapM reads_annotationSet_iff]
  constructor
  · rintro ⟨count, _, rfl, _, ⟨parts, ⟨hparts, hgood⟩, hlength, rfl⟩, rfl⟩
    have hlt := count.toNat_lt
    rw [hlength, toUInt8_eq_of_toNat rfl]
    exact ⟨⟨by simp only [maxByte]; omega, parts, hparts, rfl⟩, hgood⟩
  · rintro ⟨⟨hlength, parts, hparts, rfl⟩, hgood⟩
    exact ⟨_, _, rfl, _, ⟨parts, ⟨hparts, hgood⟩,
      (toNat_toUInt8 (Nat.lt_succ_of_le hlength)).symm, rfl⟩, rfl⟩

end JarRepair.ClassFile

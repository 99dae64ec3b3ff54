import JarRepair.ClassFile.Decode
import JarRepair.ClassFile.Encode
import JarRepair.Proofs.Outcome
import JarRepair.Proofs.Reading

/-! # Constant pools that can be written and read back

A pool is well-formed if its slots after slot 0 are those of constants of the right length. These
are the pools that decoding makes and that adding text keeps, and each is read back from its bytes.
A pool that has grown answers every lookup that succeeded before. -/

namespace JarRepair.ClassFile

open JarRepair.Outcome
open JarRepair.ClassFile.Parser

/-- The bytes that may follow a tag. -/
def Tag.Admits (tag : UInt8) (raw : Bytes) : Prop :=
  if tag = Tag.utf8 then ∃ text : Bytes, text.length ≤ Pool.maxText ∧ raw = Pool.utf8Raw text
  else Tag.size? tag = some raw.length

namespace Pool

/-! ## Slots of constants -/

def slotsOf (c : UInt8 × Bytes) : List Slot :=
  .entry c.1 c.2 :: if Tag.isWide c.1 then [.unusable] else []

def encodeConstant (c : UInt8 × Bytes) : Bytes := c.1 :: c.2

@[simp] theorem flatMap_encode_slotsOf (c : UInt8 × Bytes) :
    (slotsOf c).flatMap Slot.encode = encodeConstant c := by
  rw [slotsOf]
  split <;> simp [Slot.encode, encodeConstant]

theorem length_slotsOf_pos (c : UInt8 × Bytes) : 0 < (slotsOf c).length := by simp [slotsOf]

theorem eq_of_toList {p p' : Pool} (h : p.slots.toList = p'.slots.toList) : p = p' := by
  cases p
  cases p'
  simpa using h

theorem toList_push (p : Pool) (c : UInt8 × Bytes) :
    (p.push c.1 c.2).slots.toList = p.slots.toList ++ slotsOf c := by
  rw [push, slotsOf]
  split <;> simp

theorem size_push (p : Pool) (c : UInt8 × Bytes) :
    (p.push c.1 c.2).slots.size = p.slots.size + (slotsOf c).length := by
  rw [← Array.length_toList, toList_push, List.length_append, Array.length_toList]

structure WellFormed (p : Pool) : Prop where
  constants : ∃ cs : List (UInt8 × Bytes), (∀ c ∈ cs, Tag.Admits c.1 c.2) ∧
    p.slots.toList = .unusable :: cs.flatMap slotsOf
  size_le : p.slots.size ≤ maxSlots

theorem WellFormed.size_pos {p : Pool} (h : p.WellFormed) : 0 < p.slots.size := by
  obtain ⟨cs, -, hslots⟩ := h.constants
  rw [← Array.length_toList, hslots]
  simp

theorem WellFormed.toNat_count {p : Pool} (h : p.WellFormed) : p.count.toNat = p.slots.size :=
  toNat_toUInt16 h.size_le

end Pool

/-! ## Reading a pool back -/

theorem reads_utf8Constant_iff {bs raw : Bytes} :
    Reads utf8Constant bs raw ↔
      raw = bs ∧ ∃ text : Bytes, text.length ≤ Pool.maxText ∧ raw = Pool.utf8Raw text := by
  simp only [utf8Constant, reads_bind_iff, reads_word_iff, reads_bytes_iff, reads_pure_iff]
  constructor
  · rintro ⟨length, _, rfl, _, ⟨text, _, ⟨rfl, hlength⟩, _, ⟨rfl, rfl⟩, rfl⟩, rfl⟩
    have hlt := length.toNat_lt
    refine ⟨by simp, text, by simp only [Pool.maxText]; omega, ?_⟩
    rw [Pool.utf8Raw, hlength, toUInt16_toNat]
  · rintro ⟨rfl, text, hlength, rfl⟩
    refine ⟨text.length.toUInt16, _, rfl, text, ⟨text, _, ⟨rfl, ?_⟩, [], ⟨rfl, rfl⟩, by simp⟩, rfl⟩
    rw [toNat_toUInt16 hlength]

instance : Local utf8Constant := by
  unfold utf8Constant
  infer_instance

instance (index : UInt16) : Local (constant index) := by
  have hfixed (tag : UInt8) : Local (match Tag.size? tag with
      | some size => do return (tag, ← bytes size)
      | none => throw (.unknownTag tag index) : Parser Fault (UInt8 × Bytes)) := by
    split <;> infer_instance
  unfold constant
  infer_instance

theorem reads_constant_iff {index : UInt16} {bs : Bytes} {c : UInt8 × Bytes} :
    Reads (constant index) bs c ↔ bs = Pool.encodeConstant c ∧ Tag.Admits c.1 c.2 := by
  obtain ⟨tag, raw⟩ := c
  have hfixed (t : UInt8) : Local (match Tag.size? t with
      | some size => do return (t, ← bytes size)
      | none => throw (.unknownTag t index) : Parser Fault (UInt8 × Bytes)) := by
    split <;> infer_instance
  rw [constant, reads_bind_iff]
  simp only [reads_byte_iff]
  constructor
  · rintro ⟨t, _, rfl, b, h, rfl⟩
    split at h
    · rename_i ht
      simp only [reads_bind_iff, reads_utf8Constant_iff, reads_pure_iff, Prod.mk.injEq] at h
      obtain ⟨_, _, ⟨rfl, htext⟩, _, ⟨rfl, rfl, rfl⟩, rfl⟩ := h
      exact ⟨by simp [Pool.encodeConstant], by simpa [Tag.Admits, ht] using htext⟩
    · rename_i ht
      split at h
      · rename_i size hsize
        simp only [reads_bind_iff, reads_bytes_iff, reads_pure_iff, Prod.mk.injEq] at h
        obtain ⟨_, _, ⟨rfl, rfl⟩, _, ⟨rfl, rfl, rfl⟩, rfl⟩ := h
        exact ⟨by simp [Pool.encodeConstant], by simpa [Tag.Admits, ht] using hsize⟩
      · exact absurd h not_reads_throw
  · rintro ⟨rfl, hadmits⟩
    refine ⟨tag, [tag], rfl, raw, ?_, rfl⟩
    simp only [Tag.Admits] at hadmits
    split
    · rename_i ht
      rw [if_pos ht] at hadmits
      exact (reads_utf8Constant_iff.mpr ⟨rfl, hadmits⟩).bind_pure _
    · rename_i ht
      rw [if_neg ht] at hadmits
      simp only [hadmits]
      exact (reads_bytes_iff.mpr ⟨rfl, rfl⟩).bind_pure _

theorem constants_succ (count fuel : Nat) (p : Pool) :
    constants count (fuel + 1) p =
      if count ≤ p.slots.size then pure p
      else constant p.count >>= fun c => constants count fuel (p.push c.1 c.2) := by
  funext c
  split
  · rename_i h
    simp only [constants, h, if_true, pure_apply]
  · rename_i h
    simp only [constants, h, if_false, bind_apply]
    cases constant p.count c <;> rfl

instance (count fuel : Nat) (p : Pool) : Local (constants count fuel p) := by
  induction fuel generalizing p with
  | zero => exact inferInstanceAs (Local (pure p))
  | succ fuel ih =>
    rw [constants_succ]
    infer_instance

/-- Reading constants appends their slots. -/
theorem exists_of_reads_constants {count fuel : Nat} {p p' : Pool} {bs : Bytes}
    (h : Reads (constants count fuel p) bs p') :
    ∃ cs : List (UInt8 × Bytes), (∀ c ∈ cs, Tag.Admits c.1 c.2) ∧
      bs = cs.flatMap Pool.encodeConstant ∧
      p'.slots.toList = p.slots.toList ++ cs.flatMap Pool.slotsOf := by
  induction fuel generalizing p bs with
  | zero =>
    rw [constants, reads_pure_iff] at h
    obtain ⟨rfl, rfl⟩ := h
    exact ⟨[], by simp, rfl, by simp⟩
  | succ fuel ih =>
    rw [constants_succ] at h
    split at h
    · rw [reads_pure_iff] at h
      obtain ⟨rfl, rfl⟩ := h
      exact ⟨[], by simp, rfl, by simp⟩
    · rw [reads_bind_iff] at h
      obtain ⟨c, _, hc, b, hrest, rfl⟩ := h
      obtain ⟨rfl, hadmits⟩ := reads_constant_iff.mp hc
      obtain ⟨cs, hcs, rfl, hslots⟩ := ih hrest
      refine ⟨c :: cs, List.forall_mem_cons.mpr ⟨hadmits, hcs⟩, rfl, ?_⟩
      rw [hslots, Pool.toList_push, List.append_assoc, List.flatMap_cons]

/-- Constants that fill the pool up to the count are read back, given fuel for a slot each. -/
theorem reads_constants {count fuel : Nat} {p p' : Pool} {cs : List (UInt8 × Bytes)}
    (hcs : ∀ c ∈ cs, Tag.Admits c.1 c.2)
    (hslots : p'.slots.toList = p.slots.toList ++ cs.flatMap Pool.slotsOf)
    (hsize : p'.slots.size = count) (hfuel : count ≤ p.slots.size + fuel) :
    Reads (constants count fuel p) (cs.flatMap Pool.encodeConstant) p' := by
  induction cs generalizing p fuel with
  | nil =>
    obtain rfl : p' = p := Pool.eq_of_toList (by simpa using hslots)
    cases fuel with
    | zero => exact reads_pure _
    | succ fuel =>
      rw [constants_succ, if_pos (by omega)]
      exact reads_pure _
  | cons c cs ih =>
    have hlength : p'.slots.size =
        p.slots.size + ((Pool.slotsOf c).length + (cs.flatMap Pool.slotsOf).length) := by
      rw [← Array.length_toList, hslots, List.flatMap_cons, List.length_append, List.length_append,
        Array.length_toList]
    have hpos := Pool.length_slotsOf_pos c
    obtain ⟨fuel, rfl⟩ : ∃ n, fuel = n + 1 := ⟨fuel - 1, by omega⟩
    rw [constants_succ, if_neg (by omega), List.flatMap_cons]
    refine Reads.bind (reads_constant_iff.mpr ⟨rfl, hcs c (by simp)⟩) ?_
    refine ih (fun d hd => hcs d (by simp [hd])) ?_ ?_
    · rw [hslots, Pool.toList_push, List.append_assoc, List.flatMap_cons]
    · rw [Pool.size_push]
      omega

theorem Pool.encode_eq {p : Pool} {cs : List (UInt8 × Bytes)}
    (h : p.slots.toList = .unusable :: cs.flatMap slotsOf) :
    p.encode = Bytes.word p.count ++ cs.flatMap encodeConstant := by
  rw [encode, h, List.drop_one, List.tail_cons, List.flatMap_assoc]
  simp only [flatMap_encode_slotsOf]

instance : Local constantPool := by
  unfold constantPool
  dsimp only
  infer_instance

theorem reads_constantPool_iff {bs : Bytes} {p : Pool} :
    Reads constantPool bs p ↔ bs = p.encode ∧ p.WellFormed := by
  simp only [constantPool, reads_bind_iff, reads_word_iff]
  constructor
  · rintro ⟨count, _, rfl, b, h, rfl⟩
    split at h
    · simp at h
    · simp only [reads_bind_iff] at h
      obtain ⟨q, _, hq, _, hcheck, rfl⟩ := h
      split at hcheck
      · rename_i hsize
        obtain ⟨rfl, rfl⟩ := reads_pure_iff.mp hcheck
        obtain ⟨cs, hcs, rfl, hslots⟩ := exists_of_reads_constants hq
        have hlt := count.toNat_lt
        have hcount : p.count = count := by rw [Pool.count, hsize, toUInt16_toNat]
        refine ⟨?_, ⟨cs, hcs, hslots⟩, by simp only [Pool.maxSlots]; omega⟩
        rw [Pool.encode_eq hslots, hcount, List.append_nil]
      · exact absurd hcheck not_reads_throw
  · rintro ⟨rfl, hwf⟩
    obtain ⟨cs, hcs, hslots⟩ := hwf.constants
    have hcount := hwf.toNat_count
    have hpos := hwf.size_pos
    refine ⟨p.count, _, rfl, cs.flatMap Pool.encodeConstant, ?_, Pool.encode_eq hslots⟩
    have hne : p.count ≠ 0 := by
      intro h0
      rw [h0] at hcount
      simp at hcount
      omega
    rw [if_neg hne, reads_bind_iff]
    refine ⟨p, _, reads_constants hcs hslots hcount.symm (by omega), [], ?_, by simp⟩
    rw [if_pos hcount.symm]
    exact reads_pure p

end JarRepair.ClassFile

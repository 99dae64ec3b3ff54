import JarRepair.Deflate.Block
import JarRepair.Proofs.Deflate.Streams

/-! # Packed bits

A packer holds the bits that it has taken, those of full bytes and those of the byte that was begun.
At the end the last byte is filled up with zeros. -/

namespace JarRepair.Deflate

/-! ## Numbers -/

theorem lowBits_zero (n : Nat) : lowBits n 0 = List.replicate n false := by
  induction n with
  | zero => rfl
  | succ n ih =>
    rw [lowBits, List.replicate_succ, ← ih]
    rfl

/-- A bit more at the high end. -/
theorem lowBits_concat {n v : Nat} (h : v < 2 ^ n) (bit : Bool) :
    lowBits (n + 1) (v + bit.toNat * 2 ^ n) = lowBits n v ++ [bit] := by
  rw [← lowBits_append n 1, ← lowBits_mod n (v + _), Nat.add_mul_mod_self_right, Nat.mod_eq_of_lt h,
    Nat.add_mul_div_right _ _ (Nat.two_pow_pos n), Nat.div_eq_of_lt h, Nat.zero_add]
  cases bit <;> rfl

/-- More bits than a number has are zeros. -/
theorem lowBits_of_lt {n m v : Nat} (hle : n ≤ m) (h : v < 2 ^ n) :
    lowBits m v = lowBits n v ++ List.replicate (m - n) false := by
  rw [← lowBits_zero, ← Nat.div_eq_of_lt h, lowBits_append, Nat.add_sub_cancel' hle]

theorem byteBits_toUInt8 {v : Nat} (h : v < 256) : byteBits v.toUInt8 = lowBits 8 v := by
  rw [byteBits, toNat_toUInt8 h]

/-- The complement of a number has the other bits. -/
theorem lowBits_complement {n v : Nat} (h : v < 2 ^ n) :
    lowBits n (2 ^ n - 1 - v) = (lowBits n v).map (!·) := by
  induction n generalizing v with
  | zero => rfl
  | succ n ih =>
    rw [Nat.pow_succ] at h ⊢
    have hhalf : (2 ^ n * 2 - 1 - v) / 2 = 2 ^ n - 1 - v / 2 := by omega
    have hlow : ((2 ^ n * 2 - 1 - v) % 2 == 1) = !(v % 2 == 1) := by
      rcases Nat.mod_two_eq_zero_or_one v with hv | hv
      · rw [hv, show (2 ^ n * 2 - 1 - v) % 2 = 1 by omega]
        rfl
      · rw [hv, show (2 ^ n * 2 - 1 - v) % 2 = 0 by omega]
        rfl
    rw [lowBits, lowBits, List.map_cons, hhalf, ih (by omega), hlow]

/-! ## Packers -/

namespace Packer

variable {p : Packer}

/-- The bits taken so far. -/
def bits (p : Packer) : List Bool := p.done.toList.flatMap byteBits ++ lowBits p.count p.value

/-- The byte that was begun is not full, and holds its bits only. -/
structure Begun (p : Packer) : Prop where
  count_lt : p.count < 8
  value_lt : p.value < 2 ^ p.count

theorem begun_empty : Begun {} := ⟨by decide, by decide⟩

theorem length_bits (p : Packer) : p.bits.length = 8 * p.done.size + p.count := by
  rw [bits, List.length_append, length_lowBits, length_flatMap_byteBits, Array.length_toList]

theorem bits_push_byte {done : Array UInt8} {v : Nat} (h : v < 256) :
    bits { done := done.push v.toUInt8 } = done.toList.flatMap byteBits ++ lowBits 8 v := by
  rw [bits, Array.toList_push, List.flatMap_append, List.flatMap_singleton,
    byteBits_toUInt8 h, lowBits, List.append_nil]

theorem bits_push (hp : p.Begun) (bit : Bool) :
    (p.push bit).Begun ∧ (p.push bit).bits = p.bits ++ [bit] := by
  have hvalue : (if bit then p.value + Nat.pow 2 p.count else p.value) =
      p.value + bit.toNat * 2 ^ p.count := by
    cases bit
    · rw [Bool.toNat_false, Nat.zero_mul]
      rfl
    · rw [Bool.toNat_true, Nat.one_mul]
      rfl
  have hlt : p.value + bit.toNat * 2 ^ p.count < 2 ^ (p.count + 1) := by
    have hbit : bit.toNat * 2 ^ p.count ≤ 1 * 2 ^ p.count :=
      Nat.mul_le_mul_right _ (Bool.toNat_le bit)
    have hsmall := hp.value_lt
    rw [Nat.pow_succ]
    omega
  rw [push, hvalue]
  split
  · rename_i hfull
    have hbits := lowBits_concat hp.value_lt bit
    rw [hfull] at hlt hbits
    rw [hfull, bits_push_byte hlt, hbits, bits, hfull, List.append_assoc]
    exact ⟨⟨Nat.succ_pos 7, Nat.one_pos⟩, rfl⟩
  · rename_i hroom
    have hcount := hp.count_lt
    refine ⟨⟨by dsimp only; omega, hlt⟩, ?_⟩
    rw [bits, bits, lowBits_concat hp.value_lt, List.append_assoc]

theorem bits_pushAll (hp : p.Begun) (bits' : List Bool) :
    (p.pushAll bits').Begun ∧ (p.pushAll bits').bits = p.bits ++ bits' := by
  induction bits' generalizing p with
  | nil => exact ⟨hp, (List.append_nil _).symm⟩
  | cons bit bits' ih =>
    obtain ⟨hpush, hbits⟩ := bits_push hp bit
    obtain ⟨hall, hbits'⟩ := ih hpush
    refine ⟨hall, ?_⟩
    rw [pushAll_cons, hbits', hbits, List.append_assoc, List.singleton_append]

/-- Only zeros are filled in, and no more than the last byte takes. -/
theorem bits_align (hp : p.Begun) : p.align.Begun ∧ p.align.count = 0 ∧ ∃ n < 8,
    p.align.bits = p.bits ++ List.replicate n false := by
  rw [align]
  split
  · rename_i hempty
    exact ⟨hp, hempty, 0, by decide, (List.append_nil _).symm⟩
  · have hcount := hp.count_lt
    have hvalue : p.value < 256 :=
      Nat.lt_of_lt_of_le hp.value_lt (Nat.pow_le_pow_right (by decide) hcount.le)
    refine ⟨⟨Nat.succ_pos 7, Nat.one_pos⟩, rfl, 8 - p.count, by omega, ?_⟩
    rw [bits_push_byte hvalue, lowBits_of_lt hcount.le hp.value_lt, bits, List.append_assoc]

theorem bits_of_count_eq_zero (h : p.count = 0) : p.bits = p.done.toList.flatMap byteBits := by
  rw [bits, h, lowBits, List.append_nil]

theorem flatMap_bytes (hp : p.Begun) :
    ∃ n < 8, p.bytes.flatMap byteBits = p.bits ++ List.replicate n false := by
  obtain ⟨-, hcount, n, hn, hbits⟩ := bits_align hp
  exact ⟨n, hn, by rw [bytes, ← bits_of_count_eq_zero hcount, hbits]⟩

/-- Bytes are appended to full ones. -/
theorem bits_append_bytes (h : p.count = 0) (data : Bytes) :
    bits { p with done := p.done ++ data.toArray } = p.bits ++ data.flatMap byteBits := by
  rw [bits_of_count_eq_zero h, ← List.flatMap_append, ← Array.toList_append]
  exact bits_of_count_eq_zero h

end Packer

end JarRepair.Deflate

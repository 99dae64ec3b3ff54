import JarRepair.Bytes

/-! # Big-endian words

Splitting a word into bytes and joining two bytes into a word are inverse, so a word that was read
is written back as it was. -/

namespace JarRepair

theorem toNat_wordOf (hi lo : UInt8) : (wordOf hi lo).toNat = hi.toNat * 256 + lo.toNat := by
  have hhi := hi.toNat_lt
  have hlo := lo.toNat_lt
  rw [wordOf, Nat.toUInt16_eq, UInt16.toNat_ofNat', Nat.mod_eq_of_lt (by omega)]

theorem toNat_dwordOf (a b c d : UInt8) :
    (dwordOf a b c d).toNat = ((a.toNat * 256 + b.toNat) * 256 + c.toNat) * 256 + d.toNat := by
  have ha := a.toNat_lt
  have hb := b.toNat_lt
  have hc := c.toNat_lt
  have hd := d.toNat_lt
  rw [dwordOf, Nat.toUInt32_eq, UInt32.toNat_ofNat', Nat.mod_eq_of_lt (by omega)]

theorem toUInt8_eq_of_toNat {n : Nat} {b : UInt8} (h : n = b.toNat) : n.toUInt8 = b := by
  rw [h, Nat.toUInt8_eq, UInt8.ofNat_toNat]

theorem toNat_toUInt8 {n : Nat} (h : n < 256) : n.toUInt8.toNat = n := by
  rw [Nat.toUInt8_eq, UInt8.toNat_ofNat', Nat.mod_eq_of_lt (by omega)]

theorem toNat_toUInt16 {n : Nat} (h : n ≤ 65535) : n.toUInt16.toNat = n := by
  rw [Nat.toUInt16_eq, UInt16.toNat_ofNat', Nat.mod_eq_of_lt (by omega)]

theorem toNat_toUInt16_eq_iff {n : Nat} : n.toUInt16.toNat = n ↔ n ≤ 65535 := by
  refine ⟨fun h => ?_, toNat_toUInt16⟩
  have hlt := n.toUInt16.toNat_lt
  omega

theorem toNat_toUInt32 {n : Nat} (h : n ≤ 4294967295) : n.toUInt32.toNat = n := by
  rw [Nat.toUInt32_eq, UInt32.toNat_ofNat', Nat.mod_eq_of_lt (by omega)]

@[simp] theorem toUInt16_toNat (v : UInt16) : v.toNat.toUInt16 = v := by
  rw [Nat.toUInt16_eq, UInt16.ofNat_toNat]

@[simp] theorem toUInt32_toNat (v : UInt32) : v.toNat.toUInt32 = v := by
  rw [Nat.toUInt32_eq, UInt32.ofNat_toNat]

@[simp] theorem word_wordOf (hi lo : UInt8) : Bytes.word (wordOf hi lo) = [hi, lo] := by
  have hhi := hi.toNat_lt
  have hlo := lo.toNat_lt
  have hsum := toNat_wordOf hi lo
  rw [Bytes.word,
    toUInt8_eq_of_toNat (b := hi) (by omega), toUInt8_eq_of_toNat (b := lo) (by omega)]

@[simp] theorem dword_dwordOf (a b c d : UInt8) : Bytes.dword (dwordOf a b c d) = [a, b, c, d] := by
  have ha := a.toNat_lt
  have hb := b.toNat_lt
  have hc := c.toNat_lt
  have hd := d.toNat_lt
  have hsum := toNat_dwordOf a b c d
  rw [Bytes.dword, toUInt8_eq_of_toNat (b := a) (by omega), toUInt8_eq_of_toNat (b := b) (by omega),
    toUInt8_eq_of_toNat (b := c) (by omega), toUInt8_eq_of_toNat (b := d) (by omega)]

/-- Every word is joined from its two bytes. -/
theorem exists_wordOf (v : UInt16) : ∃ hi lo, v = wordOf hi lo := by
  have hv := v.toNat_lt
  refine ⟨(v.toNat / 256).toUInt8, (v.toNat % 256).toUInt8, UInt16.toNat_inj.mp ?_⟩
  rw [toNat_wordOf, toNat_toUInt8 (by omega), toNat_toUInt8 (by omega)]
  omega

theorem exists_dwordOf (v : UInt32) : ∃ a b c d, v = dwordOf a b c d := by
  have hv := v.toNat_lt
  refine ⟨(v.toNat / 16777216).toUInt8, (v.toNat / 65536 % 256).toUInt8,
    (v.toNat / 256 % 256).toUInt8, (v.toNat % 256).toUInt8, UInt32.toNat_inj.mp ?_⟩
  rw [toNat_dwordOf, toNat_toUInt8 (by omega), toNat_toUInt8 (by omega), toNat_toUInt8 (by omega),
    toNat_toUInt8 (by omega)]
  omega

end JarRepair

import JarRepair.Proofs.Words
import JarRepair.Zip.Header

/-! # Zip headers are read back

Each kind of header has a fixed length, and what is decoded is what was encoded. A number is read by
going past those before it. -/

namespace JarRepair.Zip

/-! ## Numbers -/

@[simp] theorem word_wordOf (hi lo : UInt8) : word (wordOf hi lo) = [lo, hi] := by
  rw [word, JarRepair.word_wordOf]
  rfl

@[simp] theorem dword_dwordOf (a b c d : UInt8) : dword (dwordOf a b c d) = [d, c, b, a] := by
  rw [dword, JarRepair.dword_dwordOf]
  rfl

@[simp] theorem length_word (v : UInt16) : (word v).length = 2 := rfl

@[simp] theorem length_dword (v : UInt32) : (dword v).length = 4 := rfl

section

variable (v : UInt16) (v' : UInt32) (bs : Bytes) (i : Nat)

@[simp] theorem wordAt_word : wordAt (word v) 0 = v := by
  obtain ⟨hi, lo, rfl⟩ := exists_wordOf v
  rw [word_wordOf]
  rfl

@[simp] theorem wordAt_word_append : wordAt (word v ++ bs) 0 = v := by
  obtain ⟨hi, lo, rfl⟩ := exists_wordOf v
  rw [word_wordOf]
  rfl

@[simp] theorem dwordAt_dword : dwordAt (dword v') 0 = v' := by
  obtain ⟨a, b, c, d, rfl⟩ := exists_dwordOf v'
  rw [dword_dwordOf]
  rfl

@[simp] theorem dwordAt_dword_append : dwordAt (dword v' ++ bs) 0 = v' := by
  obtain ⟨a, b, c, d, rfl⟩ := exists_dwordOf v'
  rw [dword_dwordOf]
  rfl

@[simp] theorem wordAt_past_word : wordAt (word v ++ bs) (i + 2) = wordAt bs i := rfl

@[simp] theorem wordAt_past_dword : wordAt (dword v' ++ bs) (i + 4) = wordAt bs i := rfl

@[simp] theorem dwordAt_past_word : dwordAt (word v ++ bs) (i + 2) = dwordAt bs i := rfl

@[simp] theorem dwordAt_past_dword : dwordAt (dword v' ++ bs) (i + 4) = dwordAt bs i := rfl

end

/-! ## Headers -/

@[simp] theorem LocalHeader.length_encode (h : LocalHeader) : h.encode.length = length := by
  simp only [encode, List.length_append, length_word, length_dword]
  rfl

@[simp] theorem CentralHeader.length_encode (h : CentralHeader) : h.encode.length = length := by
  simp only [encode, List.length_append, length_word, length_dword]
  rfl

@[simp] theorem EndRecord.length_encode (r : EndRecord) : r.encode.length = length := by
  simp only [encode, List.length_append, length_word, length_dword]
  rfl

@[simp] theorem LocalHeader.decode?_encode (h : LocalHeader) : decode? h.encode = some h := by
  simp only [decode?, length_encode, true_and]
  simp [encode]

@[simp] theorem CentralHeader.decode?_encode (h : CentralHeader) : decode? h.encode = some h := by
  simp only [decode?, length_encode, true_and]
  simp [encode]

@[simp] theorem EndRecord.decode?_encode (r : EndRecord) : decode? r.encode = some r := by
  simp only [decode?, length_encode, true_and]
  simp [encode]

end JarRepair.Zip

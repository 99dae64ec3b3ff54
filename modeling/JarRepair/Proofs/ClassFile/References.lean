import JarRepair.Proofs.ClassFile.PoolGrowth

/-! # What an index refers to

A constant holds the indices of the constants it is made of. In a pool that was read, each constant
has the bytes for these indices and no more, so an index is looked up successfully exactly if the
slots hold what it is to refer to. -/

namespace JarRepair.ClassFile

open JarRepair.Outcome

/-- The word at a position, if both of its bytes are there. -/
def word? (info : Bytes) (i : Nat) : Option UInt16 := do return wordOf (← info[i]?) (← info[i + 1]?)

theorem word?_eq_wordAt {bs : Bytes} {i : Nat} (h : i + 2 ≤ bs.length) :
    word? bs i = some (bs.wordAt i) := by
  have hfirst : i < bs.length := by omega
  have hsecond : i + 1 < bs.length := h
  simp [word?, Bytes.wordAt, hfirst, hsecond]

theorem exists_eq_word {bs : Bytes} (h : bs.length = 2) : ∃ n, bs = Bytes.word n := by
  obtain ⟨hi, lo, rfl⟩ := List.length_eq_two.mp h
  exact ⟨wordOf hi lo, (word_wordOf hi lo).symm⟩

theorem exists_eq_words {bs : Bytes} (h : bs.length = 4) :
    ∃ k n, bs = Bytes.word k ++ Bytes.word n := by
  have hfirst : (bs.take 2).length = 2 := by simp [h]
  have hsecond : (bs.drop 2).length = 2 := by simp [h]
  obtain ⟨k, hk⟩ := exists_eq_word hfirst
  obtain ⟨n, hn⟩ := exists_eq_word hsecond
  exact ⟨k, n, by rw [← hk, ← hn, List.take_append_drop]⟩

@[simp] theorem wordAt_word_append (n : UInt16) (bs : Bytes) :
    (Bytes.word n ++ bs).wordAt 0 = n := by
  obtain ⟨hi, lo, rfl⟩ := exists_wordOf n
  rw [word_wordOf]
  rfl

@[simp] theorem wordAt_word (n : UInt16) : (Bytes.word n).wordAt 0 = n := by
  simpa using wordAt_word_append n []

@[simp] theorem wordAt_two (k n : UInt16) : (Bytes.word k ++ Bytes.word n).wordAt 2 = n := by
  obtain ⟨hi, lo, rfl⟩ := exists_wordOf n
  obtain ⟨hi', lo', rfl⟩ := exists_wordOf k
  rw [word_wordOf, word_wordOf]
  rfl

theorem Tag.Admits.length_eq {tag : UInt8} {raw : Bytes} (h : Tag.Admits tag raw) {n : Nat}
    (hsize : Tag.size? tag = some n) : raw.length = n := by
  rw [Tag.Admits] at h
  split at h
  · rename_i ht
    rw [ht, show Tag.size? Tag.utf8 = none by decide] at hsize
    simp at hsize
  · exact Option.some.inj (h.symm.trans hsize)

namespace Pool

variable {p : Pool} {i : UInt16}

/-! ## Constants in slots -/

/-- Slot `i` holds a constant. Nothing refers to slot 0. -/
def Holds (p : Pool) (i : UInt16) (tag : UInt8) (raw : Bytes) : Prop :=
  i ≠ 0 ∧ p.slots.toList[i.toNat]? = some (.entry tag raw)

def HoldsText (p : Pool) (i : UInt16) (text : Bytes) : Prop := p.Holds i Tag.utf8 (utf8Raw text)

def HoldsClass (p : Pool) (i : UInt16) (name : Bytes) : Prop :=
  ∃ text, p.Holds i Tag.classRef (Bytes.word text) ∧ p.HoldsText text name

def HoldsNameAndType (p : Pool) (i : UInt16) (name descriptor : Bytes) : Prop :=
  ∃ k n, p.Holds i Tag.nameAndType (Bytes.word k ++ Bytes.word n) ∧ p.HoldsText k name ∧
    p.HoldsText n descriptor

/-- A reference to a field, a method or a method of an interface. -/
def HoldsMember (p : Pool) (i : UInt16) (member : Member) : Prop :=
  ∃ tag owner both, tag ∈ [Tag.fieldRef, Tag.methodRef, Tag.interfaceMethodRef] ∧
    p.Holds i tag (Bytes.word owner ++ Bytes.word both) ∧ p.HoldsClass owner member.owner ∧
    p.HoldsNameAndType both member.name member.descriptor

theorem usable?_eq_some_iff_holds {tag : UInt8} {raw : Bytes} :
    p.usable? i = some (tag, raw) ↔ p.Holds i tag raw := usable?_eq_some_iff

theorem entry_eq_ok_iff_holds {tag : UInt8} {raw : Bytes} :
    p.entry i tag = .ok raw ↔ p.Holds i tag raw := by
  rw [entry_eq_ok_iff, usable?_eq_some_iff_holds]

/-! ## Constants that were read -/

theorem WellFormed.admits_of_mem (hp : p.WellFormed) {tag : UInt8} {raw : Bytes}
    (hmem : .entry tag raw ∈ p.slots.toList) : Tag.Admits tag raw := by
  obtain ⟨cs, hcs, hslots⟩ := hp.constants
  rw [hslots] at hmem
  obtain ⟨c, hc, hslot⟩ := List.mem_flatMap.mp ((List.mem_cons.mp hmem).resolve_left nofun)
  have heq : Slot.entry tag raw = .entry c.1 c.2 := by
    rw [slotsOf, List.mem_cons] at hslot
    refine hslot.resolve_right fun hwide => ?_
    split at hwide <;> simp at hwide
  obtain ⟨rfl, rfl⟩ := Slot.entry.inj heq
  exact hcs c hc

theorem Holds.admits {tag : UInt8} {raw : Bytes} (h : p.Holds i tag raw) (hp : p.WellFormed) :
    Tag.Admits tag raw :=
  hp.admits_of_mem (List.mem_of_getElem? h.2)

/-- A constant of a fixed size has that many bytes. -/
theorem Holds.length_eq {tag : UInt8} {raw : Bytes} (h : p.Holds i tag raw)
    (hp : p.WellFormed) {n : Nat} (hsize : Tag.size? tag = some n) : raw.length = n :=
  (h.admits hp).length_eq hsize

theorem utf8_eq_ok_iff_holds (hp : p.WellFormed) {text : Bytes} :
    p.utf8 i = .ok text ↔ p.HoldsText i text := by
  simp only [utf8_eq_ok_iff, entry_eq_ok_iff_holds]
  constructor
  · rintro ⟨raw, hraw, rfl⟩
    have hadmits := hraw.admits hp
    rw [Tag.Admits, if_pos rfl] at hadmits
    obtain ⟨text, -, rfl⟩ := hadmits
    exact hraw
  · exact fun h => ⟨_, h, textOf_utf8Raw text⟩

theorem className_eq_ok_iff (hp : p.WellFormed) {name : Bytes} :
    p.className i = .ok name ↔ p.HoldsClass i name := by
  simp only [className, bind_eq_ok_iff, entry_eq_ok_iff_holds, utf8_eq_ok_iff_holds hp]
  constructor
  · rintro ⟨raw, hraw, hname⟩
    obtain ⟨n, rfl⟩ := exists_eq_word (hraw.length_eq hp (by decide))
    exact ⟨n, hraw, by simpa using hname⟩
  · rintro ⟨n, hraw, hname⟩
    exact ⟨_, hraw, by simpa using hname⟩

theorem isMember_iff {tag : UInt8} :
    Tag.isMember tag = true ↔ tag ∈ [Tag.fieldRef, Tag.methodRef, Tag.interfaceMethodRef] := by
  simp [Tag.isMember, or_assoc]

theorem size?_of_isMember {tag : UInt8} (h : Tag.isMember tag = true) : Tag.size? tag = some 4 := by
  have hsize : ∀ tag ∈ [Tag.fieldRef, Tag.methodRef, Tag.interfaceMethodRef],
      Tag.size? tag = some 4 := by
    decide +kernel
  exact hsize tag (isMember_iff.mp h)

/-- A member is looked up exactly if the index refers to it. -/
theorem member_eq_ok_iff (hp : p.WellFormed) {member : Member} :
    p.member i = .ok member ↔ p.HoldsMember i member := by
  rw [Pool.member]
  constructor
  · intro h
    split at h
    · simp at h
    · rename_i tag raw hslot
      split at h
      · rename_i hmember
        have hholds := usable?_eq_some_iff_holds.mp hslot
        obtain ⟨k, n, rfl⟩ := exists_eq_words (hholds.length_eq hp (size?_of_isMember hmember))
        simp only [bind_eq_ok_iff, pure_eq_ok_iff, className_eq_ok_iff hp, entry_eq_ok_iff_holds,
          utf8_eq_ok_iff_holds hp, wordAt_word_append, wordAt_two] at h
        obtain ⟨owner, howner, both, hboth, name, hname, descriptor, hdescriptor, rfl⟩ := h
        obtain ⟨k', n', rfl⟩ := exists_eq_words (hboth.length_eq hp (by decide))
        exact ⟨tag, k, n, isMember_iff.mp hmember, hholds, howner, k', n',
          hboth, by simpa using hname, by simpa using hdescriptor⟩
      · simp at h
  · rintro ⟨tag, k, n, htag, hholds, howner, k', n', hboth, hname, hdescriptor⟩
    rw [usable?_eq_some_iff_holds.mpr hholds]
    simp only [isMember_iff.mpr htag, if_true, bind_eq_ok_iff, pure_eq_ok_iff,
      className_eq_ok_iff hp, entry_eq_ok_iff_holds, utf8_eq_ok_iff_holds hp,
      wordAt_word_append, wordAt_two]
    exact ⟨_, howner, _, hboth, _, by simpa using hname, _, by simpa using hdescriptor, rfl⟩

end Pool

end JarRepair.ClassFile

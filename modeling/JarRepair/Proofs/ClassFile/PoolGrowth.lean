import Mathlib.Order.Defs.PartialOrder
import JarRepair.Proofs.ClassFile.ConstantPool

/-! # Growing pools

Pools are ordered by growth: the larger one has the slots of the smaller one and more behind them.
Lookups that succeed keep their answer in a larger pool. Adding a text makes a larger pool, by one
slot at most, in which the index returned stands for the text. -/

namespace JarRepair.ClassFile

open JarRepair.Outcome

namespace Pool

instance : Preorder Pool where
  le p p' := p.slots.toList <+: p'.slots.toList
  le_refl _ := List.prefix_refl _
  le_trans _ _ _ := List.IsPrefix.trans

theorem le_def {p p' : Pool} : p ≤ p' ↔ p.slots.toList <+: p'.slots.toList := Iff.rfl

variable {p p' : Pool}

/-! ## Lookups -/

theorem usable?_eq_some_iff {i : UInt16} {c : UInt8 × Bytes} :
    p.usable? i = some c ↔ i ≠ 0 ∧ p.slots.toList[i.toNat]? = some (.entry c.1 c.2) := by
  rw [usable?, Array.getElem?_toList]
  split
  · rename_i tag raw hslot
    by_cases hi : i = 0
    · simp [hi]
    · simp [hi, hslot, Prod.ext_iff]
  · rename_i hslot
    simp only [reduceCtorEq, false_iff, not_and]
    exact fun _ h => hslot c.1 c.2 h

theorem usable?_mono (h : p ≤ p') {i : UInt16} {c : UInt8 × Bytes} (hc : p.usable? i = some c) :
    p'.usable? i = some c := by
  rw [usable?_eq_some_iff] at hc ⊢
  obtain ⟨hi, hslot⟩ := hc
  obtain ⟨more, hmore⟩ := h
  obtain ⟨hlt, -⟩ := List.getElem?_eq_some_iff.mp hslot
  rw [← hmore, List.getElem?_append_left hlt]
  exact ⟨hi, hslot⟩

theorem entry_eq_ok_iff {i : UInt16} {tag : UInt8} {raw : Bytes} :
    p.entry i tag = .ok raw ↔ p.usable? i = some (tag, raw) := by
  rw [entry]
  split
  · rename_i h
    simp [h]
  · rename_i tag' raw' h
    by_cases ht : tag' = tag <;> simp [h, ht]

theorem entry_mono (h : p ≤ p') {i : UInt16} {tag : UInt8} {raw : Bytes}
    (hr : p.entry i tag = .ok raw) : p'.entry i tag = .ok raw := by
  rw [entry_eq_ok_iff] at hr ⊢
  exact usable?_mono h hr

theorem utf8_eq_ok_iff {i : UInt16} {text : Bytes} :
    p.utf8 i = .ok text ↔ ∃ raw, p.entry i Tag.utf8 = .ok raw ∧ textOf raw = text := by
  simp only [utf8, bind_eq_ok_iff, pure_eq_ok_iff, @eq_comm _ text]

theorem utf8_mono (h : p ≤ p') {i : UInt16} {text : Bytes} (ht : p.utf8 i = .ok text) :
    p'.utf8 i = .ok text := by
  obtain ⟨raw, hraw, rfl⟩ := utf8_eq_ok_iff.mp ht
  exact utf8_eq_ok_iff.mpr ⟨raw, entry_mono h hraw, rfl⟩

theorem className_mono (h : p ≤ p') {i : UInt16} {name : Bytes} (hn : p.className i = .ok name) :
    p'.className i = .ok name := by
  simp only [className, bind_eq_ok_iff] at hn ⊢
  obtain ⟨raw, hraw, hname⟩ := hn
  exact ⟨raw, entry_mono h hraw, utf8_mono h hname⟩

theorem member_mono (h : p ≤ p') {i : UInt16} {m : Member} (hm : p.member i = .ok m) :
    p'.member i = .ok m := by
  rw [member] at hm
  split at hm
  · simp at hm
  · rename_i tag raw husable
    rw [member, usable?_mono h husable]
    dsimp only
    split at hm
    · rename_i ht
      simp only [ht, if_true, bind_eq_ok_iff, pure_eq_ok_iff] at hm ⊢
      obtain ⟨owner, howner, both, hboth, name, hname, descriptor, hdescriptor, rfl⟩ := hm
      exact ⟨owner, className_mono h howner, both, entry_mono h hboth, name, utf8_mono h hname,
        descriptor, utf8_mono h hdescriptor, rfl⟩
    · simp at hm

theorem optional_mono {i : UInt16} {f g : UInt16 → Except Fault Bytes} {text : Option Bytes}
    (hfg : ∀ {t}, f i = .ok t → g i = .ok t) (h : optional i f = .ok text) :
    optional i g = .ok text := by
  rw [optional] at h ⊢
  split at h
  · rename_i hi
    rw [if_pos hi]
    exact h
  · rename_i hi
    rw [if_neg hi, map_eq_ok_iff]
    obtain ⟨t, ht, rfl⟩ := map_eq_ok_iff.mp h
    exact ⟨t, hfg ht, rfl⟩

/-! ## Adding text -/

/-- The slot of an added text. -/
def textSlot (text : Bytes) : Slot := .entry Tag.utf8 (utf8Raw text)

@[simp] theorem textOf_utf8Raw (text : Bytes) : textOf (utf8Raw text) = text := rfl

theorem isText_textSlot (text : Bytes) : Slot.isText text (textSlot text) = true := by
  simp [textSlot, Slot.isText]

theorem findUtf8?_eq_none_iff {text : Bytes} :
    p.findUtf8? text = none ↔ ∀ s ∈ p.slots.toList.drop 1, Slot.isText text s = false := by
  rw [findUtf8?, Option.map_eq_none_iff, List.findIdx?_eq_none_iff]

/-- An index that is found stands for the text. -/
theorem utf8_of_findUtf8? (hp : p.WellFormed) {text : Bytes} {i : UInt16}
    (h : p.findUtf8? text = some i) : p.utf8 i = .ok text := by
  rw [findUtf8?, Option.map_eq_some_iff] at h
  obtain ⟨k, hk, rfl⟩ := h
  obtain ⟨hlt, htext, -⟩ := List.findIdx?_eq_some_iff_getElem.mp hk
  have hsize := hp.size_le
  have hk' : k + 1 < p.slots.toList.length := by
    rw [List.length_drop] at hlt
    omega
  have htoNat : (k + 1).toUInt16.toNat = k + 1 :=
    toNat_toUInt16 (by simp only [maxSlots, Array.length_toList] at *; omega)
  rw [List.getElem_drop] at htext
  have hslot : p.slots.toList[(k + 1).toUInt16.toNat]? = some p.slots.toList[1 + k] := by
    rw [htoNat, Nat.add_comm k 1]
    exact List.getElem?_eq_getElem _
  have hne : (k + 1).toUInt16 ≠ 0 := by
    intro h0
    rw [h0] at htoNat
    simp at htoNat
  cases hs : p.slots.toList[1 + k] with
  | unusable => simp [hs, Slot.isText] at htext
  | entry tag raw =>
    simp only [hs, Slot.isText, Bool.and_eq_true, beq_iff_eq] at htext
    obtain ⟨rfl, rfl⟩ := htext
    rw [hs] at hslot
    exact utf8_eq_ok_iff.mpr
      ⟨raw, entry_eq_ok_iff.mpr (usable?_eq_some_iff.mpr ⟨hne, hslot⟩), rfl⟩

/-- A text that is added is found or takes the next slot. -/
theorem addUtf8_cases {text : Bytes} {i : UInt16} (h : p.addUtf8 text = .ok (i, p')) :
    (p' = p ∧ p.findUtf8? text = some i) ∨
      (p.findUtf8? text = none ∧ p.slots.size < maxSlots ∧ text.length ≤ maxText ∧ i = p.count ∧
        p'.slots.toList = p.slots.toList ++ [textSlot text]) := by
  rw [addUtf8] at h
  split at h
  · rename_i j hj
    simp only [Except.ok.injEq, Prod.mk.injEq] at h
    obtain ⟨rfl, rfl⟩ := h
    exact .inl ⟨rfl, hj⟩
  · rename_i hnone
    split at h
    · simp at h
    · split at h
      · simp at h
      · simp only [Except.ok.injEq, Prod.mk.injEq] at h
        obtain ⟨rfl, rfl⟩ := h
        refine .inr ⟨hnone, by omega, by omega, rfl, ?_⟩
        simp [textSlot]

/-- A text that is not added is not found, and there is no room for it. -/
theorem addUtf8_eq_error_cases {fault : Fault} (h : p.addUtf8 text = .error fault) :
    p.findUtf8? text = none ∧
      (fault = .poolFull ∧ maxSlots ≤ p.slots.size ∨ fault = .textTooLong ∧
        maxText < text.length) := by
  rw [addUtf8] at h
  split at h
  · simp at h
  · rename_i hnone
    split at h
    · rename_i hfull
      exact ⟨hnone, .inl ⟨(Except.error.inj h).symm, hfull⟩⟩
    · split at h
      · rename_i hlong
        exact ⟨hnone, .inr ⟨(Except.error.inj h).symm, hlong⟩⟩
      · simp at h

theorem le_of_addUtf8 {text : Bytes} {i : UInt16} (h : p.addUtf8 text = .ok (i, p')) : p ≤ p' := by
  rcases addUtf8_cases h with ⟨rfl, -⟩ | ⟨-, -, -, -, hslots⟩
  · exact le_rfl
  · rw [le_def, hslots]
    exact List.prefix_append _ _

theorem WellFormed.addUtf8 (hp : p.WellFormed) {text : Bytes} {i : UInt16}
    (h : p.addUtf8 text = .ok (i, p')) : p'.WellFormed := by
  rcases addUtf8_cases h with ⟨rfl, -⟩ | ⟨-, hsize, htext, -, hslots⟩
  · exact hp
  · obtain ⟨cs, hcs, hold⟩ := hp.constants
    refine ⟨⟨cs ++ [(Tag.utf8, utf8Raw text)], ?_, ?_⟩, ?_⟩
    · intro c hc
      rcases List.mem_append.mp hc with hc | hc
      · exact hcs c hc
      · rw [List.mem_singleton] at hc
        subst hc
        exact ⟨text, htext, rfl⟩
    · rw [hslots, hold, List.flatMap_append, List.cons_append]
      rfl
    · rw [← Array.length_toList, hslots, List.length_append, Array.length_toList]
      exact hsize

theorem utf8_of_addUtf8 (hp : p.WellFormed) {text : Bytes} {i : UInt16}
    (h : p.addUtf8 text = .ok (i, p')) : p'.utf8 i = .ok text := by
  rcases addUtf8_cases h with ⟨rfl, hfind⟩ | ⟨-, hsize, -, rfl, hslots⟩
  · exact utf8_of_findUtf8? hp hfind
  · have hpos := hp.size_pos
    have hcount := hp.toNat_count
    have hslot : p'.slots.toList[p.count.toNat]? = some (textSlot text) := by
      rw [hslots, hcount, ← Array.length_toList]
      simp
    have hne : p.count ≠ 0 := by
      intro h0
      rw [h0] at hcount
      simp at hcount
      omega
    exact utf8_eq_ok_iff.mpr
      ⟨_, entry_eq_ok_iff.mpr (usable?_eq_some_iff.mpr ⟨hne, hslot⟩), rfl⟩

end Pool

end JarRepair.ClassFile

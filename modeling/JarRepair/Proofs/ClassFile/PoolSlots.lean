import JarRepair.Proofs.ClassFile.Codec
import JarRepair.Proofs.ClassFile.References

/-! # The slots of a pool

In a pool that was read, slot 0 and the slot behind each long or double constant are not usable, all
others are, and each constant has the bytes that its tag asks for. Adding a text keeps this and
every answer that a lookup gave. Lookups follow indices that a file may set to anything: they are
written a second time here, with accesses that have no result where a slot or a byte is missing, and
always have the result of the first ones. -/

namespace JarRepair.ClassFile

open JarRepair.Outcome

namespace Pool

variable {p p' : Pool} {i : UInt16} {text : Bytes}

/-! ## Which slots are usable -/

/-- A long or double constant. -/
def Slot.isWide : Slot → Bool
  | .unusable => false
  | .entry tag _ => Tag.isWide tag

/-- A slot that is not usable is the first one or is behind a wide constant, and each constant has
the bytes that its tag asks for. -/
structure Laid (p : Pool) : Prop where
  size_le : p.slots.size ≤ maxSlots
  first : p.slots[0]? = some .unusable
  unusable_iff (k : Nat) :
    p.slots[k + 1]? = some .unusable ↔ ∃ s, p.slots[k]? = some s ∧ Slot.isWide s = true
  admits (k : Nat) (tag : UInt8) (raw : Bytes) : p.slots[k]? = some (.entry tag raw) →
    Tag.Admits tag raw

/-- Behind a slot that is not wide, the slots of constants are usable except after wide ones. -/
theorem getElem?_flatMap_slotsOf {s : Slot} (hs : Slot.isWide s = false) (cs : List (UInt8 × Bytes))
    (k : Nat) :
    (s :: cs.flatMap slotsOf)[k + 1]? = some .unusable ↔
      ∃ t, (s :: cs.flatMap slotsOf)[k]? = some t ∧ Slot.isWide t = true := by
  induction cs generalizing s k with
  | nil => cases k <;> simp [hs]
  | cons c cs ih =>
    cases hwide : Tag.isWide c.1 with
    | false =>
      have hc : Slot.isWide (.entry c.1 c.2) = false := hwide
      cases k with
      | zero => simp [slotsOf, hs]
      | succ k => simpa [slotsOf, hwide] using ih hc k
    | true =>
      have hc : Slot.isWide (.entry c.1 c.2) = true := hwide
      rcases k with _ | _ | k
      · simp [slotsOf, hs]
      · simp [slotsOf, hwide, hc]
      · simpa [slotsOf, hwide] using ih (s := .unusable) rfl k

theorem WellFormed.laid (hp : p.WellFormed) : p.Laid where
  size_le := hp.size_le
  first := by
    obtain ⟨cs, -, hslots⟩ := hp.constants
    rw [← Array.getElem?_toList, hslots, List.getElem?_cons_zero]
  unusable_iff k := by
    obtain ⟨cs, -, hslots⟩ := hp.constants
    simp only [← Array.getElem?_toList, hslots]
    exact getElem?_flatMap_slotsOf rfl cs k
  admits k tag raw h := by
    rw [← Array.getElem?_toList] at h
    exact hp.admits_of_mem (List.mem_of_getElem? h)

/-! ## Looking within the slots and the bytes -/

/-- A lookup that may fail with a fault, and has no result if it looks outside the slots or past the
bytes of a constant. -/
abbrev Checked (α : Type) := ExceptT Fault Option α

/-- The text behind its length, if the length is there. -/
def text? (raw : Bytes) : Option Bytes := if 2 ≤ raw.length then some (textOf raw) else none

namespace Checked

variable (p : Pool) (i : UInt16)

/-- What a usable slot holds. Slot 0 is not looked at, nor is one behind the last. -/
def usable? : Option (Option (UInt8 × Bytes)) :=
  if i = 0 ∨ p.slots.size ≤ i.toNat then some none
  else
    match p.slots[i.toNat]? with
    | none => none
    | some .unusable => some none
    | some (.entry tag raw) => some (some (tag, raw))

def entry (expected : UInt8) : Checked Bytes := do
  match ← usable? p i with
  | none => throw (.badIndex i)
  | some (tag, raw) => if tag = expected then return raw else throw (.wrongTag i tag expected)

def utf8 : Checked Bytes := do
  let raw ← entry p i Tag.utf8
  text? raw

def className : Checked Bytes := do
  let raw ← entry p i Tag.classRef
  let name ← word? raw 0
  utf8 p name

def member : Checked Member := do
  match ← usable? p i with
  | none => throw (.badMemberIndex i)
  | some (tag, raw) =>
    if Tag.isMember tag then
      let owner ← word? raw 0
      let owner ← className p owner
      let both ← word? raw 2
      let both ← entry p both Tag.nameAndType
      let name ← word? both 0
      let name ← utf8 p name
      let descriptor ← word? both 2
      let descriptor ← utf8 p descriptor
      return { owner, name, descriptor }
    else throw (.notMember i)

end Checked

/-- No lookup looks outside the slots or past the bytes of a constant. -/
structure InBounds (p : Pool) : Prop where
  entry (i : UInt16) (tag : UInt8) : (Checked.entry p i tag).run = some (p.entry i tag)
  utf8 (i : UInt16) : (Checked.utf8 p i).run = some (p.utf8 i)
  className (i : UInt16) : (Checked.className p i).run = some (p.className i)
  member (i : UInt16) : (Checked.member p i).run = some (p.member i)

theorem Laid.admits_of_usable? (h : p.Laid) {c : UInt8 × Bytes} (hc : p.usable? i = some c) :
    Tag.Admits c.1 c.2 := by
  have hslot := (usable?_eq_some_iff.mp hc).2
  rw [Array.getElem?_toList] at hslot
  exact h.admits _ _ _ hslot

theorem Laid.admits_of_entry (h : p.Laid) {tag : UInt8} {raw : Bytes}
    (hr : p.entry i tag = .ok raw) :
    Tag.Admits tag raw :=
  h.admits_of_usable? (entry_eq_ok_iff.mp hr)

theorem Laid.length_of_entry (h : p.Laid) {tag : UInt8} {raw : Bytes} (hr : p.entry i tag = .ok raw)
    {n : Nat} (hsize : Tag.size? tag = some n) : raw.length = n :=
  (h.admits_of_entry hr).length_eq hsize

theorem text?_eq {raw : Bytes} (h : Tag.Admits Tag.utf8 raw) : text? raw = some (textOf raw) := by
  rw [Tag.Admits, if_pos rfl] at h
  obtain ⟨text, -, rfl⟩ := h
  exact if_pos (by simp [utf8Raw, Bytes.word])

namespace Checked

theorem usable?_eq (p : Pool) (i : UInt16) : usable? p i = some (p.usable? i) := by
  rw [usable?, Pool.usable?]
  by_cases hi : i = 0
  · rw [if_pos (.inl hi)]
    split
    · rw [if_pos hi]
    · rfl
  by_cases hlt : p.slots.size ≤ i.toNat
  · rw [if_pos (.inr hlt), Array.getElem?_eq_none hlt]
  · rw [if_neg (not_or.mpr ⟨hi, hlt⟩), Array.getElem?_eq_getElem (Nat.lt_of_not_le hlt)]
    cases p.slots[i.toNat] with
    | unusable => rfl
    | entry tag raw => simp only [if_neg hi]

theorem run_entry (p : Pool) (i : UInt16) (tag : UInt8) :
    (entry p i tag).run = some (p.entry i tag) := by
  rw [entry, run_access (usable?_eq p i), Pool.entry]
  cases p.usable? i with
  | none => rfl
  | some c =>
    dsimp only
    split <;> rfl

variable (h : p.Laid)

include h

theorem run_utf8 (i : UInt16) : (utf8 p i).run = some (p.utf8 i) :=
  run_bind (run_entry p i Tag.utf8) fun raw hraw => by
    rw [text?_eq (h.admits_of_entry hraw)]
    rfl

theorem run_className (i : UInt16) : (className p i).run = some (p.className i) :=
  run_bind (run_entry p i Tag.classRef) fun raw hraw => by
    have hlength : raw.length = 2 := h.length_of_entry hraw rfl
    rw [run_access (word?_eq_wordAt (Nat.le_of_eq hlength.symm))]
    exact run_utf8 h _

theorem run_member (i : UInt16) : (member p i).run = some (p.member i) := by
  rw [member, run_access (usable?_eq p i), Pool.member]
  cases hc : p.usable? i with
  | none => rfl
  | some c =>
    dsimp only
    split
    · rename_i hmember
      have hlength : c.2.length = 4 :=
        (h.admits_of_usable? hc).length_eq (size?_of_isMember hmember)
      rw [run_access (word?_eq_wordAt (by omega))]
      refine run_bind (run_className h _) fun owner _ => ?_
      rw [run_access (word?_eq_wordAt (by omega))]
      refine run_bind (run_entry p _ _) fun both hboth => ?_
      have hlength : both.length = 4 := h.length_of_entry hboth rfl
      rw [run_access (word?_eq_wordAt (by omega))]
      refine run_bind (run_utf8 h _) fun name _ => ?_
      rw [run_access (word?_eq_wordAt (by omega))]
      exact run_bind (run_utf8 h _) fun descriptor _ => rfl
    · rfl

end Checked

/-- Where each constant has the bytes of its tag, no lookup looks past them. -/
theorem Laid.inBounds (h : p.Laid) : p.InBounds where
  entry := Checked.run_entry p
  utf8 := Checked.run_utf8 h
  className := Checked.run_className h
  member := Checked.run_member h

/-! ## Adding texts -/

/-- What was looked up in `p` is the same in `p'`. -/
structure Keeps (p p' : Pool) : Prop where
  entry {i : UInt16} {tag : UInt8} {raw : Bytes} : p.entry i tag = .ok raw →
    p'.entry i tag = .ok raw
  utf8 {i : UInt16} {text : Bytes} : p.utf8 i = .ok text → p'.utf8 i = .ok text
  className {i : UInt16} {name : Bytes} : p.className i = .ok name → p'.className i = .ok name
  member {i : UInt16} {m : Member} : p.member i = .ok m → p'.member i = .ok m

theorem keeps_of_le (h : p ≤ p') : p.Keeps p' where
  entry := entry_mono h
  utf8 := utf8_mono h
  className := className_mono h
  member := member_mono h

/-- Some index stands for the text. -/
def HasText (p : Pool) (text : Bytes) : Prop := ∃ i, p.utf8 i = .ok text

/-- A text is found exactly if an index stands for it. -/
theorem findUtf8?_eq_none_iff_not_hasText (hp : p.WellFormed) :
    p.findUtf8? text = none ↔ ¬ p.HasText text := by
  constructor
  · rintro hnone ⟨i, hi⟩
    obtain ⟨hne, hslot⟩ := (utf8_eq_ok_iff_holds hp).mp hi
    have hpos : 1 ≤ i.toNat := Nat.one_le_iff_ne_zero.mpr fun h0 => hne (UInt16.toNat_inj.mp h0)
    have hmem : textSlot text ∈ p.slots.toList.drop 1 := by
      refine List.mem_of_getElem? (i := i.toNat - 1) ?_
      rw [List.getElem?_drop, Nat.add_sub_cancel' hpos]
      exact hslot
    have htext := findUtf8?_eq_none_iff.mp hnone _ hmem
    rw [isText_textSlot] at htext
    exact Bool.noConfusion htext
  · intro hno
    cases hfind : p.findUtf8? text with
    | none => rfl
    | some i => exact absurd ⟨i, utf8_of_findUtf8? hp hfind⟩ hno

/-- A call that adds a text: its answer, and the pool after it. -/
def addText (p : Pool) (text : Bytes) : Except Fault UInt16 × Pool :=
  match p.addUtf8 text with
  | .ok (i, p') => (.ok i, p')
  | .error fault => (.error fault, p)

/-- The pool after calls that add these texts, whether or not they fail. -/
def afterAdds (p : Pool) (texts : List Bytes) : Pool :=
  texts.foldl (fun p text => (p.addText text).2) p

/-- What a call may answer: an index that stands for the text, which takes a slot only if it was not
there, or a fault, for a text that is not there and that has no room or is too long. -/
def Adds (p : Pool) (text : Bytes) : Except Fault UInt16 × Pool → Prop
  | (.ok i, p') =>
    p'.utf8 i = .ok text ∧ p'.slots.size ≤ p.slots.size + 1 ∧ (p.HasText text → p' = p)
  | (.error fault, p') => p' = p ∧ ¬ p.HasText text ∧
      (fault = .poolFull ∧ p.slots.size = maxSlots ∨ fault = .textTooLong ∧ maxText < text.length)

theorem WellFormed.adds (hp : p.WellFormed) (text : Bytes) : p.Adds text (p.addText text) := by
  rw [addText]
  split
  · rename_i i p' hadd
    refine ⟨utf8_of_addUtf8 hp hadd, ?_⟩
    rcases addUtf8_cases hadd with ⟨rfl, -⟩ | ⟨hnone, -, -, -, hslots⟩
    · exact ⟨Nat.le_succ _, fun _ => rfl⟩
    · refine ⟨by simp [← Array.length_toList, hslots], fun htext => ?_⟩
      exact absurd htext ((findUtf8?_eq_none_iff_not_hasText hp).mp hnone)
  · rename_i fault hadd
    obtain ⟨hnone, hwhy⟩ := addUtf8_eq_error_cases hadd
    refine ⟨rfl, (findUtf8?_eq_none_iff_not_hasText hp).mp hnone, ?_⟩
    exact hwhy.imp_left fun ⟨hfault, hfull⟩ => ⟨hfault, Nat.le_antisymm hp.size_le hfull⟩

theorem le_addText (p : Pool) (text : Bytes) : p ≤ (p.addText text).2 := by
  rw [addText]
  split
  · rename_i hadd
    exact le_of_addUtf8 hadd
  · exact le_rfl

theorem WellFormed.addText (hp : p.WellFormed) (text : Bytes) : (p.addText text).2.WellFormed := by
  rw [Pool.addText]
  split
  · rename_i hadd
    exact hp.addUtf8 hadd
  · exact hp

theorem le_afterAdds (p : Pool) (texts : List Bytes) : p ≤ p.afterAdds texts := by
  induction texts generalizing p with
  | nil => exact le_rfl
  | cons text texts ih => exact (le_addText p text).trans (ih (p.addText text).2)

theorem WellFormed.afterAdds (hp : p.WellFormed) (texts : List Bytes) :
    (p.afterAdds texts).WellFormed := by
  induction texts generalizing p with
  | nil => exact hp
  | cons text texts ih => exact ih (hp.addText text)

/-! ## Pools of classes that were read -/

structure Sound (p : Pool) : Prop where
  laid : p.Laid
  inBounds : p.InBounds
  keeps (texts : List Bytes) : p.Keeps (p.afterAdds texts)
  adds (text : Bytes) : p.Adds text (p.addText text)

theorem WellFormed.sound (hp : p.WellFormed) : p.Sound where
  laid := hp.laid
  inBounds := hp.laid.inBounds
  keeps texts := keeps_of_le (le_afterAdds p texts)
  adds := hp.adds

/-- The pool of a class that was read is sound, and stays so whatever texts are added. -/
theorem sound_afterAdds {data : Bytes} {c : ClassFile} (h : decode data = .ok c)
    (texts : List Bytes) :
    (c.pool.afterAdds texts).Sound := by
  have hc : c.WellFormed := (decode_eq_ok_iff.mp h).1
  exact (hc.pool.afterAdds texts).sound

/-- A text that is there, two that are not, and the first of these again. -/
def sampleTexts : List Bytes := ["A", "B", "C", "B"]

theorem sound_afterAdds_twiceAnnotated : ∃ c, decode twiceAnnotated = .ok c ∧
    (c.pool.afterAdds sampleTexts).slots.size = c.pool.slots.size + 2 ∧
      (c.pool.afterAdds sampleTexts).Sound := by
  have hrun : ((decode twiceAnnotated).toOption.map fun c =>
      (c.pool.slots.size, (c.pool.afterAdds sampleTexts).slots.size)) = some (8, 10) := by
        decide +kernel
  cases hread : decode twiceAnnotated with
  | error failure => simp [hread, Except.toOption] at hrun
  | ok c =>
    have hsizes : c.pool.slots.size = 8 ∧ (c.pool.afterAdds sampleTexts).slots.size = 10 := by
      simpa [hread, Except.toOption] using hrun
    exact ⟨c, rfl, by rw [hsizes.1, hsizes.2], sound_afterAdds hread sampleTexts⟩

end Pool

end JarRepair.ClassFile

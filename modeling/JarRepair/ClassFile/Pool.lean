import JarRepair.ClassFile.Access
import JarRepair.ClassFile.Fault

/-! # Constant pools

Constants keep the bytes after their tag as they were read. Slot 0 and the second slot of a long or
double constant are not usable. A pool only grows at its end, so an index keeps its meaning. -/

namespace JarRepair.ClassFile

inductive Slot where
  | unusable
  | entry (tag : UInt8) (raw : Bytes)
deriving DecidableEq, Repr

structure Pool where
  slots : Array Slot := #[.unusable]
deriving DecidableEq, Repr

/-- A resolved reference to a field or method. -/
structure Member where
  owner : Bytes
  name : Bytes
  descriptor : Bytes
deriving DecidableEq, Repr

namespace Pool

/-- The number of slots, as the class file counts them. -/
def count (p : Pool) : UInt16 := p.slots.size.toUInt16

def push (tag : UInt8) (raw : Bytes) (p : Pool) : Pool :=
  let slots := p.slots.push (.entry tag raw)
  ⟨if Tag.isWide tag then slots.push .unusable else slots⟩

/-! ## Looking up -/

/-- A usable slot other than slot 0. -/
def usable? (p : Pool) (index : UInt16) : Option (UInt8 × Bytes) :=
  match p.slots[index.toNat]? with
  | some (.entry tag raw) => if index = 0 then none else some (tag, raw)
  | _ => none

def entry (p : Pool) (index : UInt16) (expected : UInt8) : Except Fault Bytes :=
  match p.usable? index with
  | none => .error (.badIndex index)
  | some (tag, raw) => if tag = expected then .ok raw else .error (.wrongTag index tag expected)

/-- The text of a UTF-8 constant follows its length. -/
def textOf (raw : Bytes) : Bytes := raw.drop 2

def utf8 (p : Pool) (index : UInt16) : Except Fault Bytes := do
  return textOf (← p.entry index Tag.utf8)

def className (p : Pool) (index : UInt16) : Except Fault Bytes := do
  p.utf8 ((← p.entry index Tag.classRef).wordAt 0)

def member (p : Pool) (index : UInt16) : Except Fault Member :=
  match p.usable? index with
  | none => .error (.badMemberIndex index)
  | some (tag, raw) =>
    if Tag.isMember tag then do
      let owner ← p.className (raw.wordAt 0)
      let nameAndType ← p.entry (raw.wordAt 2) Tag.nameAndType
      let name ← p.utf8 (nameAndType.wordAt 0)
      let descriptor ← p.utf8 (nameAndType.wordAt 2)
      return { owner, name, descriptor }
    else .error (.notMember index)

/-! ## Adding text -/

def Slot.isText (text : Bytes) : Slot → Bool
  | .unusable => false
  | .entry tag raw => tag == Tag.utf8 && textOf raw == text

/-- The first slot after slot 0 that holds the text. -/
def findUtf8? (p : Pool) (text : Bytes) : Option UInt16 :=
  (p.slots.toList.drop 1).findIdx? (Slot.isText text) |>.map fun i => (i + 1).toUInt16

def maxSlots : Nat := 65535
def maxText : Nat := 65535

def utf8Raw (text : Bytes) : Bytes := Bytes.word text.length.toUInt16 ++ text

/-- The index of a text, which is appended if no slot holds it. -/
def addUtf8 (p : Pool) (text : Bytes) : Except Fault (UInt16 × Pool) :=
  match p.findUtf8? text with
  | some index => .ok (index, p)
  | none =>
    if maxSlots ≤ p.slots.size then .error .poolFull
    else if maxText < text.length then .error .textTooLong
    else .ok (p.count, ⟨p.slots.push (.entry Tag.utf8 (utf8Raw text))⟩)

end Pool

end JarRepair.ClassFile

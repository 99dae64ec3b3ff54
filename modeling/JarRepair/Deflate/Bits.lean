import JarRepair.Bytes

/-! # Bit streams

The bits of a byte come least significant first. A source gives out the bits of its bytes; a packer
takes bits and makes bytes of them. -/

namespace JarRepair.Deflate

/-- The `n` low bits of a number, least significant first. -/
def lowBits : (n : Nat) → Nat → List Bool
  | 0, _ => []
  | n + 1, v => (v % 2 == 1) :: lowBits n (v / 2)

def byteBits (b : UInt8) : List Bool := lowBits 8 b.toNat

@[simp] theorem length_lowBits (n v : Nat) : (lowBits n v).length = n := by
  induction n generalizing v with
  | zero => rfl
  | succ n ih => rw [lowBits, List.length_cons, ih]

@[simp] theorem length_byteBits (b : UInt8) : (byteBits b).length = 8 := length_lowBits 8 b.toNat

/-! ## Sources -/

structure BitSource where
  /-- The bits left of the byte that was begun. -/
  ahead : List Bool := []
  rest : Bytes
deriving DecidableEq, Repr

namespace BitSource

def bits (s : BitSource) : List Bool := s.ahead ++ s.rest.flatMap byteBits

def next? (s : BitSource) : Option (Bool × BitSource) :=
  match s.ahead with
  | b :: ahead => some (b, { s with ahead })
  | [] =>
    match s.rest with
    | [] => none
    | byte :: rest =>
      let v := byte.toNat
      some (v % 2 == 1, { ahead := lowBits 7 (v / 2), rest })

/-- Drops the bits left of the byte that was begun. -/
def align (s : BitSource) : BitSource := { s with ahead := [] }

theorem next?_eq_none_iff {s : BitSource} : s.next? = none ↔ s.bits = [] := by
  rcases s with ⟨_ | ⟨b, ahead⟩, _ | ⟨byte, rest⟩⟩ <;> simp [next?, bits, byteBits, lowBits]

theorem bits_of_next? {s s' : BitSource} {b : Bool} (h : s.next? = some (b, s')) :
    s.bits = b :: s'.bits := by
  rcases s with ⟨_ | ⟨c, ahead⟩, _ | ⟨byte, rest⟩⟩ <;> simp only [next?] at h
  · simp at h
  · injection h with h; injection h with h₁ h₂
    subst h₁ h₂; simp [bits, byteBits, lowBits]
  · injection h with h; injection h with h₁ h₂
    subst h₁ h₂; simp [bits]
  · injection h with h; injection h with h₁ h₂
    subst h₁ h₂; simp [bits]

end BitSource

/-! ## Packers -/

structure Packer where
  done : Array UInt8 := #[]
  /-- The value of the bits that do not fill a byte yet, and their number. -/
  value : Nat := 0
  count : Nat := 0
deriving Repr

namespace Packer

def push (p : Packer) (bit : Bool) : Packer :=
  let value := if bit then p.value + Nat.pow 2 p.count else p.value
  if p.count = 7 then { done := p.done.push value.toUInt8 }
  else { p with value, count := p.count + 1 }

def pushAll (p : Packer) (bits : List Bool) : Packer := bits.foldl push p

@[simp] theorem pushAll_nil (p : Packer) : p.pushAll [] = p := rfl

@[simp] theorem pushAll_cons (p : Packer) (bit : Bool) (bits : List Bool) :
    p.pushAll (bit :: bits) = (p.push bit).pushAll bits := rfl

/-- Fills the last byte up with zeros. -/
def align (p : Packer) : Packer :=
  if p.count = 0 then p else { done := p.done.push p.value.toUInt8 }

def bytes (p : Packer) : Bytes := p.align.done.toList

end Packer

end JarRepair.Deflate

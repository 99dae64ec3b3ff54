import JarRepair.Deflate.LengthCode

/-! # Blocks

A block holds tokens in a code, the fixed one or one that is given at its head, or the bytes
themselves. The shortest form is taken; of equal ones the bytes, then the fixed code. -/

namespace JarRepair.Deflate

structure Block where
  tokens : List Token
  /-- What the tokens stand for. -/
  data : Bytes
  last : Bool
deriving DecidableEq, Repr

namespace Block

/-- A block is full with so many tokens. -/
def maxTokens : Nat := 16383

/-- Divides tokens into blocks. A full block is the last one only if it ends in a literal. -/
def divide : (fuel : Nat) → Bytes → List Token → List Block
  | 0, _, _ => []
  | fuel + 1, data, tokens =>
    let now := tokens.take maxTokens
    let later := tokens.drop maxTokens
    let size := (now.map Token.size).foldl (· + ·) 0
    let isOpen := match now.getLast? with
      | some (.copy ..) => now.length < maxTokens
      | _ => true
    if later.isEmpty && isOpen then [{ tokens := now, data, last := true }]
    else { tokens := now, data := data.take size, last := false } ::
      divide fuel (data.drop size) later

def ofData (data : Bytes) : List Block :=
  let tokens := Token.ofData data
  divide (tokens.length + 1) data tokens

def fixedBits (b : Block) : List Bool := [true, false] ++ bodyBits .fixed b.tokens

def givenBits (b : Block) : List Bool :=
  let literals := lengthsFor maxCodeLength <|
    countSymbols 286 (endOfBlock :: b.tokens.map Token.literalSymbol)
  let distances := lengthsFor maxCodeLength <|
    countSymbols 30 (b.tokens.filterMap Token.distanceSymbol?)
  [false, true] ++ codeBits literals distances ++ bodyBits (.ofLengths literals distances) b.tokens

/-- The bytes as they are, after their number and its complement. -/
def storedBytes (b : Block) : Bytes :=
  let length := lowBits 16 b.data.length
  (Packer.pushAll {} (length ++ length.map (!·))).bytes ++ b.data

/-- The number of bytes that so many bits take, together with that of the block being the last. -/
def bytesFor (bits : List Bool) : Nat := (bits.length + 8) / 8

def push (p : Packer) (b : Block) : Packer :=
  let p := p.push b.last
  let fixed := b.fixedBits
  let given := b.givenBits
  let coded := if bytesFor fixed ≤ bytesFor given then fixed else given
  if b.data.length + 4 ≤ bytesFor coded then
    let p := (p.pushAll [false, false]).align
    { p with done := p.done ++ b.storedBytes.toArray }
  else p.pushAll coded

end Block

/-! ## Compressing

A compressed form is taken only if it is smaller than the data. -/

/-- Compresses data of any length. A compressor that counts its input and the room for its output in
32 bits does the same up to the length whose bound passes 4 GiB; data near 4 GiB, which it may
refuse, are outside of the domain. -/
def compress (data : Bytes) : Bytes := ((Block.ofData data).foldl Block.push {}).bytes

def shorten? (data : Bytes) : Option Bytes :=
  let packed := compress data
  if packed.length < data.length then some packed else none

theorem shorten?_eq_some_iff {data packed : Bytes} :
    shorten? data = some packed ↔ packed = compress data ∧ packed.length < data.length := by
  simp only [shorten?, Option.ite_none_right_eq_some, Option.some.injEq]
  constructor
  · rintro ⟨h, rfl⟩
    exact ⟨rfl, h⟩
  · rintro ⟨rfl, h⟩
    exact ⟨h, rfl⟩

end JarRepair.Deflate

import JarRepair.Deflate.Inflate
import JarRepair.Proofs.Deflate.Canonical

/-! # The format of streams

The deflate format of RFC 1951: what a stream says, and what it stands for. Each relation is between
some bits, what is at the front of them, and the bits behind that. Nothing here follows a tree,
looks for an end or counts steps; a code is only the lengths of its words. No more than 286 and 30
lengths are given, and a code uses up all patterns of bits, unless it has a single word of one bit
or none. -/

namespace JarRepair.Deflate.Format

/-! ## Numbers and words -/

/-- A number of `n` bits, the least significant one first. -/
def Number (n : Nat) (bits : List Bool) (v : Nat) (rest : List Bool) : Prop :=
  v < 2 ^ n ∧ bits = lowBits n v ++ rest

inductive Numbers (n : Nat) : List Bool → List Nat → List Bool → Prop
  | nil (bits : List Bool) : Numbers n bits [] bits
  | cons {bits rest rest' : List Bool} {v : Nat} {vs : List Nat} :
    Number n bits v rest → Numbers n rest vs rest' → Numbers n bits (v :: vs) rest'

/-- A symbol, as its word in the code with some lengths. -/
def Coded (lengths : List Nat) (bits : List Bool) (symbol : Nat) (rest : List Bool) : Prop :=
  ∃ w, IsWord lengths symbol w ∧ bits = w ++ rest

/-! ## The codes of a block -/

/-- The code lengths that a symbol stands for, after those that were found, with the bits that it
leaves open. -/
inductive Run (found : List Nat) : Nat → List Bool → List Nat → List Bool → Prop
  | one {l : Nat} (bits : List Bool) : l ≤ maxCodeLength → Run found l bits [l] bits
  | again {bits rest : List Bool} {l n : Nat} :
    found.getLast? = some l → Number 2 bits n rest →
    Run found 16 bits (List.replicate (3 + n) l) rest
  | zeros {bits rest : List Bool} {n : Nat} :
    Number 3 bits n rest → Run found 17 bits (List.replicate (3 + n) 0) rest
  | moreZeros {bits rest : List Bool} {n : Nat} :
    Number 7 bits n rest → Run found 18 bits (List.replicate (11 + n) 0) rest

/-- Code lengths that are given in a code themselves. -/
inductive Lengths (code : List Nat) : List Nat → List Bool → List Nat → List Bool → Prop
  | nil (found : List Nat) (bits : List Bool) : Lengths code found bits found bits
  | cons {found run all : List Nat} {bits bits' bits'' rest : List Bool} {symbol : Nat} :
    Coded code bits symbol bits' → Run found symbol bits' run bits'' →
      Lengths code (found ++ run) bits'' all rest → Lengths code found bits all rest

/-- The lengths of `l` words for literals and `d` for distances; a run may go on from one to the
other. -/
structure Pair (code : List Nat) (l d : Nat) (bits : List Bool) (literals distances : List Nat)
    (rest : List Bool) : Prop where
  full : weight code = fullWeight
  lengths : Lengths code [] bits (literals ++ distances) rest
  length_literals : literals.length = l
  length_distances : distances.length = d
  ends : literals.getD endOfBlock 0 ≠ 0
  usable_literals : isUsable literals
  usable_distances : isUsable distances

/-- The codes that a block gives: the numbers of lengths, the lengths of the code for them, and the
lengths. -/
inductive Given : List Bool → List Nat → List Nat → List Bool → Prop
  | intro {bits bits₁ bits₂ bits₃ bits₄ rest : List Bool} {l d g : Nat}
    {given literals distances : List Nat} :
    Number 5 bits l bits₁ → Number 5 bits₁ d bits₂ → Number 4 bits₂ g bits₃ →
    l + 257 ≤ 286 → d + 1 ≤ 30 → Numbers 3 bits₃ given bits₄ → given.length = g + 4 →
    Pair (spread given) (l + 257) (d + 1) bits₄ literals distances rest →
    Given bits literals distances rest

/-! ## The content of a block -/

/-- A value with a base and extra bits. -/
def Amount (codes : List (Nat × Nat)) (symbol : Nat) (bits : List Bool) (v : Nat)
    (rest : List Bool) : Prop :=
  ∃ base extra n, codes[symbol]? = some (base, extra) ∧ Number extra bits n rest ∧ v = base + n

/-- What a symbol of the literals stands for, with the bits that it leaves open and a distance. -/
inductive Means (distances : List Nat) : Nat → List Bool → Symbol → List Bool → Prop
  | literal (b : UInt8) (bits : List Bool) : Means distances b.toNat bits (.literal b) bits
  | endOfBlock (bits : List Bool) : Means distances Deflate.endOfBlock bits .endOfBlock bits
  | copy {bits bits' bits'' rest : List Bool} {l d length distance : Nat} :
    Amount lengthCodes l bits length bits' → Coded distances bits' d bits'' →
      Amount distanceCodes d bits'' distance rest →
        Means distances (257 + l) bits (.copy length distance) rest

def Next (literals distances : List Nat) (bits : List Bool) (symbol : Symbol) (rest : List Bool) :
    Prop :=
  ∃ s mid, Coded literals bits s mid ∧ Means distances s mid symbol rest

/-- So many bytes are appended, each of them the one that lies a distance before it. -/
structure Copied (distance length : Nat) (out out' : Bytes) : Prop where
  length_eq : out'.length = out.length + length
  getElem?_eq_of_lt : ∀ k, k < out.length → out'[k]? = out[k]?
  getElem?_eq : ∀ k, out.length ≤ k → k < out'.length → out'[k]? = out'[k - distance]?

/-- Output is continued up to the end of the block. -/
inductive Content (literals distances : List Nat) : Bytes → List Bool → Bytes → List Bool → Prop
  | endOfBlock {out : Bytes} {bits rest : List Bool} :
    Next literals distances bits .endOfBlock rest → Content literals distances out bits out rest
  | literal {out out' : Bytes} {bits bits' rest : List Bool} {b : UInt8} :
    Next literals distances bits (.literal b) bits' →
      Content literals distances (out ++ [b]) bits' out' rest →
      Content literals distances out bits out' rest
  | copy {out copied out' : Bytes} {bits bits' rest : List Bool} {length distance : Nat} :
    Next literals distances bits (.copy length distance) bits' → distance ≤ out.length →
    Copied distance length out copied → Content literals distances copied bits' out' rest →
      Content literals distances out bits out' rest

/-! ## Blocks -/

/-- Bytes as they are, after their number and its complement. -/
def Stored (bits : List Bool) (content : Bytes) (rest : List Bool) : Prop :=
  ∃ mid, Number 16 bits content.length mid ∧
    Number 16 mid (65535 - content.length) (content.flatMap byteBits ++ rest)

/-- The three types of blocks. Stored bytes start where a byte starts; as all bits are those of
whole bytes, their number tells how far that is. -/
inductive Body : Nat → Bytes → List Bool → Bytes → List Bool → Prop
  | stored {out content : Bytes} {bits rest : List Bool} :
    Stored (bits.drop (bits.length % 8)) content rest → Body 0 out bits (out ++ content) rest
  | fixed {out out' : Bytes} {bits rest : List Bool} :
    Content fixedLiteralLengths fixedDistanceLengths out bits out' rest → Body 1 out bits out' rest
  | given {out out' : Bytes} {bits bits' rest : List Bool} {literals distances : List Nat} :
    Given bits literals distances bits' → Content literals distances out bits' out' rest →
      Body 2 out bits out' rest

/-- Output is continued up to the end of the last block, which is marked. -/
inductive Blocks : Bytes → List Bool → Bytes → List Bool → Prop
  | last {out out' : Bytes} {bits bits' rest : List Bool} {type : Nat} :
    Number 2 bits type bits' → Body type out bits' out' rest → Blocks out (true :: bits) out' rest
  | next {out out' out'' : Bytes} {bits bits' bits'' rest : List Bool} {type : Nat} :
    Number 2 bits type bits' → Body type out bits' out' bits'' → Blocks out' bits'' out'' rest →
      Blocks out (false :: bits) out'' rest

/-- Data start with a complete stream, which stands for the content; other bytes may follow it. -/
def Stream (data content : Bytes) : Prop := ∃ rest, Blocks [] (data.flatMap byteBits) content rest

end JarRepair.Deflate.Format

import JarRepair.Deflate.Huffman
import JarRepair.Deflate.Token

/-! # Tokens in a code

The word of a symbol is the path to its leaf in the tree of the code. A token is written as the word
of a literal, or as those of a length and a distance with the bits that these leave open. -/

namespace JarRepair.Deflate

/-- The code words of the symbols. -/
abbrev Words := Array (List Bool)

namespace Words

def word (w : Words) (symbol : Nat) : List Bool := w.getD symbol []

/-- The path to each leaf. -/
def ofTree (t : Tree) (size : Nat) : Words :=
  go t [] (Array.replicate size [])
where
  go : Tree → (path : List Bool) → Words → Words
    | .leaf symbol, path, w => w.setIfInBounds symbol path.reverse
    | .node zero one, path, w => go one (true :: path) (go zero (false :: path) w)
    | .gap, _, w => w

def ofLengths (lengths : List Nat) : Words := ofTree (.ofLengths lengths) lengths.length

end Words

/-- The last symbol whose base is at most `v`, and the extra bits. -/
def symbolFor (codes : List (Nat × Nat)) (v : Nat) : Nat × List Bool :=
  let symbol := (codes.takeWhile fun (base, _) => base ≤ v).length - 1
  let (base, extra) := codes.getD symbol (0, 0)
  (symbol, lowBits extra (v - base))

structure WordPair where
  literals : Words
  distances : Words

def WordPair.ofLengths (literals distances : List Nat) : WordPair :=
  ⟨.ofLengths literals, .ofLengths distances⟩

def WordPair.fixed : WordPair := .ofLengths fixedLiteralLengths fixedDistanceLengths

namespace Token

/-- The symbol of a literal or length. -/
def literalSymbol : Token → Nat
  | .literal b => b.toNat
  | .copy length _ => 257 + (symbolFor lengthCodes length).1

def distanceSymbol? : Token → Option Nat
  | .literal _ => none
  | .copy _ distance => some (symbolFor distanceCodes distance).1

def bits (w : WordPair) : Token → List Bool
  | .literal b => w.literals.word b.toNat
  | .copy length distance =>
    let (l, lengthBits) := symbolFor lengthCodes length
    let (d, distanceBits) := symbolFor distanceCodes distance
    w.literals.word (257 + l) ++ lengthBits ++ w.distances.word d ++ distanceBits

end Token

def bodyBits (w : WordPair) (tokens : List Token) : List Bool :=
  tokens.flatMap (Token.bits w) ++ w.literals.word endOfBlock

end JarRepair.Deflate

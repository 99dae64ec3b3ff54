import JarRepair.Deflate.Bits

/-! # Prefix codes

A canonical code is given by the lengths of its code words: shorter words come first, words of one
length in the order of their symbols. As a tree, a symbol is a leaf at the depth of its length. -/

namespace JarRepair.Deflate

inductive Tree where
  | leaf (symbol : Nat)
  | node (zero one : Tree)
  /-- No code word goes on here. -/
  | gap
deriving DecidableEq, Repr

def maxCodeLength : Nat := 15

namespace Tree

/-- Fills a subtree at a depth from symbols with lengths, from left to right; returns the symbols
that did not fit. -/
def fill : (fuel depth : Nat) → List (Nat × Nat) → Tree × List (Nat × Nat)
  | _, _, [] => (.gap, [])
  | fuel, depth, (length, symbol) :: rest =>
    if length ≤ depth then (.leaf symbol, rest)
    else
      match fuel with
      | 0 => (.gap, rest)
      | fuel + 1 =>
        let (zero, rest) := fill fuel (depth + 1) ((length, symbol) :: rest)
        let (one, rest) := fill fuel (depth + 1) rest
        (.node zero one, rest)

/-- The symbols with a code word, in the order of their words. -/
def inOrder (lengths : List Nat) : List (Nat × Nat) :=
  let coded := lengths.zipIdx
  (List.range maxCodeLength).flatMap fun l => coded.filter fun (length, _) => length == l + 1

/-- A code without words still takes a bit to find that out. -/
def ofLengths (lengths : List Nat) : Tree :=
  match inOrder lengths with
  | [] => .node .gap .gap
  | symbols => (fill maxCodeLength 0 symbols).1

end Tree

/-- The sum of `2 ^ (15 - length)` over the code words. -/
def weight (lengths : List Nat) : Nat :=
  (lengths.map fun l => if l = 0 then 0 else Nat.pow 2 (maxCodeLength - l)).foldl (· + ·) 0

def fullWeight : Nat := Nat.pow 2 maxCodeLength

/-- A code must use up all bit patterns, or have no word at all. -/
def isComplete (lengths : List Nat) : Bool := weight lengths == fullWeight || weight lengths == 0

/-- Codes of literals and distances may also have a single word of one bit. -/
def isUsable (lengths : List Nat) : Bool :=
  isComplete lengths || (weight lengths == fullWeight / 2 && lengths.all (· ≤ 1))

/-! ## The alphabets of deflate

Symbols up to 255 are literal bytes and 256 ends a block. Higher ones stand for the length of a
copy: a base and a number of extra bits. Distances have an alphabet of their own. -/

def endOfBlock : Nat := 256

/-- Base and extra bits of the lengths from symbol 257 on. -/
def lengthCodes : List (Nat × Nat) := [
  (3, 0), (4, 0), (5, 0), (6, 0), (7, 0), (8, 0), (9, 0), (10, 0), (11, 1), (13, 1),
  (15, 1), (17, 1), (19, 2), (23, 2), (27, 2), (31, 2), (35, 3), (43, 3), (51, 3), (59, 3), (67, 4),
  (83, 4), (99, 4), (115, 4), (131, 5), (163, 5), (195, 5), (227, 5), (258, 0)]

/-- Base and extra bits of the distances. -/
def distanceCodes : List (Nat × Nat) := [
  (1, 0), (2, 0), (3, 0), (4, 0), (5, 1), (7, 1), (9, 2), (13, 2), (17, 3), (25, 3),
  (33, 4), (49, 4), (65, 5), (97, 5), (129, 6), (193, 6), (257, 7), (385, 7), (513, 8), (769, 8),
  (1025, 9), (1537, 9), (2049, 10), (3073, 10), (4097, 11), (6145, 11), (8193, 12), (12289, 12),
  (16385, 13), (24577, 13)]

def minCopy : Nat := 3
def maxCopy : Nat := 258

/-- The code lengths of the fixed codes. -/
def fixedLiteralLengths : List Nat :=
  List.replicate 144 8 ++ List.replicate 112 9 ++ List.replicate 24 7 ++ List.replicate 8 8

def fixedDistanceLengths : List Nat := List.replicate 32 5

/-- The order in which the lengths of the code-length code are given. -/
def codeLengthOrder : List Nat := [16, 17, 18, 0, 8, 7, 9, 6, 10, 5, 11, 4, 12, 3, 13, 2, 14, 1, 15]

end JarRepair.Deflate

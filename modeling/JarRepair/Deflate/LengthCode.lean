import JarRepair.Deflate.CodeLengths
import JarRepair.Deflate.Words

/-! # Giving code lengths

A block that has codes of its own gives the lengths of their words at its head: one by one or in
runs, and in a code again. -/

namespace JarRepair.Deflate

/-- How often each symbol below `size` occurs. -/
def countSymbols (size : Nat) (symbols : List Nat) : Array Nat :=
  symbols.foldl (fun counts s => counts.modify s (· + 1)) (Array.replicate size 0)

/-- Code lengths are given one by one or in runs. -/
inductive LengthCode where
  | one (length : Nat)
  /-- The last length `n` more times. -/
  | again (n : Nat)
  | zeros (n : Nat)
deriving DecidableEq, Repr

namespace LengthCode

def symbol : LengthCode → Nat
  | .one length => length
  | .again _ => 16
  | .zeros n => if n ≤ 10 then 17 else 18

def extraBits : LengthCode → List Bool
  | .one _ => []
  | .again n => lowBits 2 (n - 3)
  | .zeros n => if n ≤ 10 then lowBits 3 (n - 3) else lowBits 7 (n - 11)

/-- A length that stands `n` times after another one. -/
def ofRun (last : Option Nat) (length n : Nat) : List LengthCode :=
  if length = 0 then if n < 3 then List.replicate n (.one 0) else [.zeros n]
  else if last = some length then if n < 3 then List.replicate n (.one length) else [.again n]
  else if n < 4 then List.replicate n (.one length) else [.one length, .again (n - 1)]

/-- How long a run may be. -/
def maxRun (last : Option Nat) (length : Nat) : Nat :=
  if length = 0 then 138 else if last = some length then 6 else 7

def ofLengths : (fuel : Nat) → (last : Option Nat) → List Nat → List LengthCode
  | 0, _, _ | _, _, [] => []
  | fuel + 1, last, length :: rest =>
    let n := ((rest.take (maxRun last length - 1)).takeWhile (· == length)).length + 1
    ofRun last length n ++ ofLengths fuel (some length) (rest.drop (n - 1))

end LengthCode

/-- The longest word for a length code. -/
def maxLengthOfLengths : Nat := 7

/-- The head of a block that gives its codes. -/
def codeBits (literals distances : List Nat) : List Bool :=
  let codes := LengthCode.ofLengths literals.length none literals ++
    LengthCode.ofLengths distances.length none distances
  let lengths := lengthsFor maxLengthOfLengths (countSymbols 19 (codes.map LengthCode.symbol))
  let words := Words.ofLengths lengths
  let inOrder := codeLengthOrder.map fun symbol => lengths.getD symbol 0
  let given := max 4 (inOrder.reverse.dropWhile (· == 0)).length
  lowBits 5 (literals.length - 257) ++ lowBits 5 (distances.length - 1) ++ lowBits 4 (given - 4) ++
    (inOrder.take given).flatMap (lowBits 3) ++ codes.flatMap fun c =>
      words.word c.symbol ++ c.extraBits

end JarRepair.Deflate

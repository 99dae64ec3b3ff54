import Std.Data.TreeMap
import JarRepair.Deflate.Huffman

/-! # Tokens

Data is a list of literal bytes and copies of earlier data. A copy that is found waits for one byte:
if a longer one starts there, the first gives way to a literal. -/

namespace JarRepair.Deflate

inductive Token where
  | literal (b : UInt8)
  | copy (length distance : Nat)
deriving DecidableEq, Repr

namespace Token

/-- How many bytes a token stands for. -/
def size : Token → Nat
  | .literal _ => 1
  | .copy length _ => length

/-- Farthest distance of a copy from the last string with the same key, from others, and of a copy
of three bytes only. -/
def maxDistance : Nat := 32506
def maxEarlierDistance : Nat := 32505
def maxShortDistance : Nat := 4096

/-- How many earlier strings are compared, and how many once a good copy is at hand. -/
def maxCandidates : Nat := 128
def fewCandidates : Nat := 32

/-- The length of a good copy, that of one that does not wait for a longer one, and the one at which
the search ends. -/
def goodLength : Nat := 8
def finalLength : Nat := 16
def longEnough : Nat := 128

/-- How many bytes from `i` on, at most `n`, equal those from `j` on. -/
def common (data : Array UInt8) (i j : Nat) : Nat → Nat
  | 0 => 0
  | n + 1 =>
    match data[i]?, data[j]? with
    | some a, some b => if a = b then common data (i + 1) (j + 1) n + 1 else 0
    | _, _ => 0

/-! ## Earlier strings -/

/-- The three bytes at a position, mixed into 15 bits. -/
def key (data : Array UInt8) (i : Nat) : Nat :=
  let b (k : Nat) := (data.getD (i + k) 0).toNat
  (b 0 * 1024 ^^^ b 1 * 32 ^^^ b 2) % 32768

/-- The positions seen so far by their keys, the last one first. -/
abbrev Seen := Std.TreeMap Nat (List Nat)

/-- The first byte of the data is never the start of a copied string. -/
def remember (data : Array UInt8) (i : Nat) (seen : Seen) : Seen :=
  if i = 0 || data.size < i + minCopy then seen
  else seen.alter (key data i) fun positions => some (i :: positions.getD [])

def rememberFrom (data : Array UInt8) : Nat → Nat → Seen → Seen
  | _, 0, seen => seen
  | i, n + 1, seen => rememberFrom data (i + 1) n (remember data i seen)

/-- The longest of the copies from the given positions that are longer than `best`; of equal ones
the first. The search ends at a position that is too far. A longer copy agrees in the byte after the
best one. -/
def longest (data : Array UInt8) (i : Nat) : (tries : Nat) → (farthest : Nat) → List Nat →
    (best : Nat) → Option (Nat × Nat) → Option (Nat × Nat)
  | 0, _, _, _, found | _, _, [], _, found => found
  | tries + 1, farthest, j :: positions, best, found =>
    if farthest < i - j then found
    else
      let search := longest data i tries maxEarlierDistance positions
      if data[j + best]? ≠ data[i + best]? then search best found
      else
        let length := common data j i (min maxCopy (data.size - i))
        if length ≤ best then search best found
        else if min longEnough (data.size - i) ≤ length then some (length, i - j)
        else search length (some (length, i - j))

/-- The copy for a position, if one is worth it and longer than `known`. -/
def copy? (data : Array UInt8) (i known : Nat) (seen : Seen) : Option (Nat × Nat) :=
  if data.size < i + minCopy then none
  else
    let tries := if goodLength ≤ known then fewCandidates else maxCandidates
    (longest data i tries maxDistance (seen.getD (key data i) []) known none).filter
      fun (length, distance) => minCopy < length || distance ≤ maxShortDistance

/-! ## Dividing data -/

/-- What is known of the byte before a position and not yet written. -/
inductive Held where
  | nothing
  | byte (b : UInt8)
  /-- A copy starts at the byte. -/
  | copy (b : UInt8) (length distance : Nat)
deriving DecidableEq, Repr

def Held.start (b : UInt8) : Option (Nat × Nat) → Held
  | none => .byte b
  | some (length, distance) => .copy b length distance

/-- Divides the data from `i` on. -/
def scan (data : Array UInt8) : Nat → Nat → Seen → Held → (found : List Token) → List Token
  | 0, _, _, _, found => found.reverse
  | fuel + 1, i, seen, held, found =>
    match data[i]?, held with
    | none, .nothing => found.reverse
    | none, .byte a | none, .copy a .. => (.literal a :: found).reverse
    | some b, .nothing =>
      scan data fuel (i + 1) (remember data i seen)
        (.start b (copy? data i (minCopy - 1) seen)) found
    | some b, .byte a =>
      scan data fuel (i + 1) (remember data i seen) (.start b (copy? data i (minCopy - 1) seen))
        (.literal a :: found)
    | some b, .copy a length distance =>
      match if length < finalLength then copy? data i length seen else none with
      | some longer =>
        scan data fuel (i + 1) (remember data i seen) (.start b (some longer)) (.literal a :: found)
      | none =>
        scan data fuel (i - 1 + length) (rememberFrom data i (length - 1) seen) .nothing
          (.copy length distance :: found)

/-- Each step of the scan goes on by a byte at least. -/
def ofData (data : Bytes) : List Token :=
  let data := data.toArray
  scan data (data.size + 1) 0 ∅ .nothing []

end Token

end JarRepair.Deflate

import JarRepair.Deflate.Huffman

/-! # Inflating

A deflate stream is a list of blocks: stored bytes, or symbols in a fixed or given code. Inflating
ends with the last block, at an error in the data, or where the data ends too early; what was
produced until then is kept. -/

namespace JarRepair.Deflate

inductive Ending where
  | complete
  | corrupt
  | truncated
deriving DecidableEq, Repr

structure Inflated where
  output : Array UInt8
  ending : Ending
deriving DecidableEq, Repr

abbrev BitParser := StateT BitSource (Except Ending)

def bit : BitParser Bool := fun s =>
  match s.next? with
  | some r => .ok r
  | none => .error .truncated

/-- A number of `n` bits, least significant first. -/
def number : (n : Nat) → BitParser Nat
  | 0 => pure 0
  | n + 1 => do
    let b ← bit
    let v ← number n
    return 2 * v + b.toNat

/-- Follows bits down a tree, to a symbol or a gap. -/
def Tree.walk : Tree → BitParser (Option Nat)
  | .leaf symbol => pure (some symbol)
  | .gap => pure none
  | .node zero one => do if ← bit then one.walk else zero.walk

def Tree.symbol (t : Tree) : BitParser Nat := do
  match ← t.walk with
  | some symbol => return symbol
  | none => throw .corrupt

/-! ## The codes of a block -/

structure Codes where
  literals : Tree
  distances : Tree
deriving DecidableEq, Repr

def Codes.fixed : Codes := ⟨.ofLengths fixedLiteralLengths, .ofLengths fixedDistanceLengths⟩

/-- Reads code lengths until there are `total`; `found` holds those read, the last one first. A gap
in the code stands for length 0. -/
def codeLengths (t : Tree) (total : Nat) : Nat → (found : List Nat) → BitParser (List Nat)
  | 0, found => return found.reverse
  | fuel + 1, found => do
    if total ≤ found.length then return found.reverse
    let symbol := (← t.walk).getD 0
    if symbol < 16 then codeLengths t total fuel (symbol :: found)
    else
      let (length, n) ← match symbol with
        | 16 => do
          let n ← number 2
          match found with
          | [] => throw .corrupt
          | last :: _ => pure (last, 3 + n)
        | 17 => do pure (0, 3 + (← number 3))
        | _ => do pure (0, 11 + (← number 7))
      if total < found.length + n then throw .corrupt
      codeLengths t total fuel (List.replicate n length ++ found)

/-- The lengths of the code-length code, given for the first symbols of their order. -/
def spread (given : List Nat) : List Nat :=
  (List.range 19).map fun symbol => (given[codeLengthOrder.idxOf symbol]?).getD 0

def givenLengths : (n : Nat) → BitParser (List Nat)
  | 0 => return []
  | n + 1 => do
    let l ← number 3
    return l :: (← givenLengths n)

def Codes.read : BitParser Codes := do
  let literals := (← number 5) + 257
  let distances := (← number 5) + 1
  let given := (← number 4) + 4
  if 286 < literals ∨ 30 < distances then throw .corrupt
  let lengths := spread (← givenLengths given)
  if !isComplete lengths then throw .corrupt
  let total := literals + distances
  let all ← codeLengths (.ofLengths lengths) total total []
  let (ofLiterals, ofDistances) := (all.take literals, all.drop literals)
  if ofLiterals.getD endOfBlock 0 = 0 then throw .corrupt
  if !isUsable ofLiterals || !isUsable ofDistances then throw .corrupt
  return ⟨.ofLengths ofLiterals, .ofLengths ofDistances⟩

/-! ## The content of a block -/

inductive Symbol where
  | literal (b : UInt8)
  | copy (length distance : Nat)
  | endOfBlock
deriving DecidableEq, Repr

/-- The value of a symbol with a base and extra bits. -/
def extended (codes : List (Nat × Nat)) (symbol : Nat) : BitParser Nat := do
  match codes[symbol]? with
  | some (base, extra) => return base + (← number extra)
  | none => throw .corrupt

/-- Reads a symbol that follows `produced` bytes of output; copies reach no farther back. -/
def Codes.symbol (codes : Codes) (produced : Nat) : BitParser Symbol := do
  let symbol ← codes.literals.symbol
  if symbol < endOfBlock then return .literal symbol.toUInt8
  else if symbol = endOfBlock then return .endOfBlock
  else
    let length ← extended lengthCodes (symbol - 257)
    let distance ← extended distanceCodes (← codes.distances.symbol)
    if produced < distance then throw .corrupt
    return .copy length distance

/-- Appends `n` bytes, each the one that is `distance` before the end. -/
def copyBack (distance : Nat) : (n : Nat) → Array UInt8 → Array UInt8
  | 0, out => out
  | n + 1, out => copyBack distance n (out.push (out.getD (out.size - distance) 0))

/-- Produces output up to the end of the block. -/
def coded (codes : Codes) :
    Nat → Array UInt8 → BitSource → Except Inflated (Array UInt8 × BitSource)
  | 0, out, _ => .error ⟨out, .truncated⟩
  | fuel + 1, out, s =>
    match codes.symbol out.size s with
    | .error ending => .error ⟨out, ending⟩
    | .ok (.literal b, s) => coded codes fuel (out.push b) s
    | .ok (.copy length distance, s) => coded codes fuel (copyBack distance length out) s
    | .ok (.endOfBlock, s) => .ok (out, s)

/-- A stored block gives its length and the complement of it, and then its bytes. -/
def stored (out : Array UInt8) (s : BitSource) : Except Inflated (Array UInt8 × BitSource) :=
  match s.rest with
  | l₀ :: l₁ :: n₀ :: n₁ :: rest =>
    let length := (wordOf l₁ l₀).toNat
    if length + (wordOf n₁ n₀).toNat ≠ 65535 then .error ⟨out, .corrupt⟩
    else if Bytes.atLeast length rest then
      .ok (out ++ (rest.take length).toArray, { rest := rest.drop length })
    else .error ⟨out ++ rest.toArray, .truncated⟩
  | _ => .error ⟨out, .truncated⟩

def blockHead : BitParser (Bool × Nat) := do
  let last ← bit
  return (last, ← number 2)

def block (fuel : Nat) (type : Nat) (out : Array UInt8) (s : BitSource) :
    Except Inflated (Array UInt8 × BitSource) :=
  match type with
  | 0 => stored out s.align
  | 1 => coded .fixed fuel out s
  | 2 =>
    match Codes.read s with
    | .ok (codes, s) => coded codes fuel out s
    | .error ending => .error ⟨out, ending⟩
  | _ => .error ⟨out, .corrupt⟩

/-- Both blocks and the symbols in them take at least a bit each; `bits` bounds their number. -/
def blocks (bits : Nat) : Nat → Array UInt8 → BitSource → Inflated
  | 0, out, _ => ⟨out, .truncated⟩
  | fuel + 1, out, s =>
    match blockHead s with
    | .error ending => ⟨out, ending⟩
    | .ok ((last, type), s) =>
      match block bits type out s with
      | .error r => r
      | .ok (out, s) => if last then ⟨out, .complete⟩ else blocks bits fuel out s

/-- Inflates the stream at the front of `data`; bytes after it are not looked at. -/
def inflate (data : Bytes) : Inflated :=
  let bits := 8 * data.length + 1
  blocks bits bits #[] { rest := data }

/-! ## Content of a known size -/

inductive Fault where
  | oversized (declared compressed : Nat)
  | tooLarge
  | truncated
  | corrupt
  | wrongSize (produced declared : Nat)
deriving DecidableEq, Repr

open Bytes in
def Fault.text : Fault → Bytes
  | .oversized declared compressed =>
    "declared size " ++ decimal declared ++ " exceeds what " ++ decimal compressed ++
      " compressed bytes can hold"
  | .tooLarge => "data larger than declared size"
  | .truncated => "truncated deflate stream"
  | .corrupt => "corrupt deflate stream"
  | .wrongSize produced declared =>
    "inflated " ++ decimal produced ++ " bytes, expected " ++ decimal declared

/-- No stream produces more than this many times its size, and a copy. -/
def maxRatio : Nat := 1032

/-- Output is compared with the declared size after every full chunk. -/
def chunk : Nat := 65536

/-- How much output was compared with the declared size before the ending was seen. Corrupt data
hides the output of the chunk that it is in. -/
def Inflated.compared (r : Inflated) : Nat :=
  match r.ending with
  | .corrupt => (r.output.size - 1) / chunk * chunk
  | _ => r.output.size

def Inflated.accept (declared : Nat) (r : Inflated) : Except Fault Bytes :=
  if declared < r.compared then .error .tooLarge
  else
    match r.ending with
    | .truncated => .error .truncated
    | .corrupt => .error .corrupt
    | .complete =>
      if r.output.size = declared then .ok r.output.toList
      else .error (.wrongSize r.output.size declared)

/-- Inflates data that is declared to have a size. The domain is data that are shorter than 4 GiB,
as a directory declares no longer ones: there a counter of 32 bits takes in all of them. -/
def inflateExactly (data : Bytes) (declared : Nat) : Except Fault Bytes :=
  if data.length * maxRatio + maxCopy < declared then .error (.oversized declared data.length)
  else (inflate data).accept declared

end JarRepair.Deflate

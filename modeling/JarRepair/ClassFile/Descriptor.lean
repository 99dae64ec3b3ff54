import JarRepair.Bytes

/-! # Method descriptors

`(Ljava/lang/String;I[J)V` splits into its parameter types and its return type. A field type is a
run of `[`, then a primitive letter or `L`, a name without `;`, and `;`. -/

namespace JarRepair.ClassFile

inductive Descriptor.Fault where
  | noParameters
  | parameter
  | unterminated
  | result
deriving DecidableEq, Repr

/-- Types are kept as their text; equal types have equal texts. -/
structure Descriptor where
  parameters : List Bytes
  result : Bytes
deriving DecidableEq, Repr

namespace Descriptor

def Fault.text (d : Bytes) : Fault → Bytes
  | .noParameters => "method descriptor must start with '(': " ++ d
  | .parameter => "malformed parameter type in " ++ d
  | .unterminated => "unterminated parameter list in " ++ d
  | .result => "malformed return type in " ++ d

def primitives : Bytes := "BCDFIJSZ"

/-- Splits a field type without dimensions off the front. -/
def element? : Bytes → Option (Bytes × Bytes)
  | [] => none
  | c :: rest =>
    if c = Bytes.char 'L' then
      match Bytes.cut? (Bytes.char ';') rest with
      | some (name, rest) =>
        if name = [] then none else some (Bytes.char 'L' :: name ++ [Bytes.char ';'], rest)
      | none => none
    else if primitives.contains c then some ([c], rest)
    else none

/-- Splits a field type off the front. -/
def fieldType? (d : Bytes) : Option (Bytes × Bytes) :=
  let dimensions := d.takeWhile (· == Bytes.char '[')
  (element? (d.dropWhile (· == Bytes.char '['))).map fun (t, rest) => (dimensions ++ t, rest)

/-- Reads parameter types up to the closing parenthesis; each takes at least a byte of `d`. -/
def parametersFrom : Nat → (found : List Bytes) → (d : Bytes) → Except Fault (List Bytes × Bytes)
  | _, _, [] => .error .unterminated
  | 0, _, _ => .error .unterminated
  | fuel + 1, found, c :: rest =>
    if c = Bytes.char ')' then .ok (found.reverse, rest)
    else
      match fieldType? (c :: rest) with
      | none => .error .parameter
      | some (t, rest) => parametersFrom fuel (t :: found) rest

def isResult (d : Bytes) : Bool :=
  d == "V" || match fieldType? d with
    | some (_, rest) => rest == []
    | none => false

def parse (d : Bytes) : Except Fault Descriptor :=
  match d with
  | [] => .error .noParameters
  | c :: rest =>
    if c = Bytes.char '(' then do
      let (parameters, result) ← parametersFrom d.length [] rest
      if isResult result then return { parameters, result } else throw .result
    else .error .noParameters

def startsWith (parameters start : List Bytes) : Bool := start.isPrefixOf parameters

end Descriptor

end JarRepair.ClassFile

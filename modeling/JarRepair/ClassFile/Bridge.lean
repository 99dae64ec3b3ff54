import JarRepair.ClassFile.Marker

/-! # Bridges

A bridge is a synthetic method that loads its parameters, casts them, calls one method of its own
class and returns. What holds of a bridge is meant for the method it forwards to. -/

namespace JarRepair.ClassFile

/-! ## The code of a bridge -/

inductive Instruction where
  /-- Loads a local variable or casts the top of the stack. -/
  | move
  | invoke (member : UInt16)
  | return
deriving DecidableEq, Repr

namespace Instruction

def isLoad (op : UInt8) : Bool := 0x15 ≤ op && op ≤ 0x19
def isShortLoad (op : UInt8) : Bool := 0x1a ≤ op && op ≤ 0x2d
def isReturn (op : UInt8) : Bool := 0xac ≤ op && op ≤ 0xb1
/-- Invocations of virtual, special and static methods. -/
def isInvoke (op : UInt8) : Bool := 0xb6 ≤ op && op ≤ 0xb8
def invokeInterface : UInt8 := 0xb9
def checkCast : UInt8 := 0xc0
def wide : UInt8 := 0xc4

/-- Splits an instruction that a bridge may have off the front of its code. -/
def read? : Bytes → Option (Instruction × Bytes)
  | [] => none
  | op :: code =>
    if isReturn op then some (.return, code)
    else if isShortLoad op then some (.move, code)
    else if isLoad op then
      match code with
      | _ :: code => some (.move, code)
      | _ => none
    else if op = wide then
      match code with
      | op' :: _ :: _ :: code => if isLoad op' then some (.move, code) else none
      | _ => none
    else if op = checkCast then
      match code with
      | _ :: _ :: code => some (.move, code)
      | _ => none
    else if isInvoke op then
      match code with
      | hi :: lo :: code => some (.invoke (wordOf hi lo), code)
      | _ => none
    else if op = invokeInterface then
      match code with
      | hi :: lo :: _ :: _ :: code => some (.invoke (wordOf hi lo), code)
      | _ => none
    else none

/-- Splits code into instructions that a bridge may have; each takes at least a byte. -/
def readAll? : Nat → (found : List Instruction) → Bytes → Option (List Instruction)
  | _, found, [] => some found.reverse
  | 0, _, _ => none
  | fuel + 1, found, code =>
    match read? code with
    | none => none
    | some (i, code) => readAll? fuel (i :: found) code

end Instruction

/-- The member that is invoked by a list of moves and one invocation, ended by a return. -/
def forwardedMember? : List Instruction → Option UInt16
  | .move :: rest => forwardedMember? rest
  | .invoke member :: rest => if rest.dropWhile (· == .move) = [.return] then some member else none
  | _ => none

def codeHeader : Nat := 8

/-- The code array of a `Code` attribute, if its length fits. -/
def codeArray? (info : Bytes) : Option Bytes :=
  match info with
  | _ :: _ :: _ :: _ :: b₀ :: b₁ :: b₂ :: b₃ :: rest =>
    let length := (dwordOf b₀ b₁ b₂ b₃).toNat
    if Bytes.atLeast length rest then some (rest.take length) else none
  | _ => none

def Method.forwards? (m : Method) : Option UInt16 := do
  if Access.hasAny m.access Access.isSynthetic then
    let code ← codeArray? (← m.attribute? codeName).info
    forwardedMember? (← Instruction.readAll? code.length [] code)
  else none

/-! ## Where a method forwards to -/

structure MethodKey where
  name : Bytes
  descriptor : Bytes
deriving DecidableEq, Repr

def Method.key (m : Method) : MethodKey := { name := m.name, descriptor := m.descriptor }

def parameterCount (d : Bytes) : Except Fault Nat :=
  match Descriptor.parse d with
  | .ok d => .ok d.parameters.length
  | .error fault => .error (.descriptor d fault)

/-- The key of the method that `m` forwards to, or its own. -/
def bridgeTarget (c : ClassFile) (m : Method) : Except Fault MethodKey :=
  match m.forwards? with
  | none => .ok m.key
  | some index => do
    let member ← (c.pool.member index).mapError (Fault.within ("in " ++ m.signature))
    let key : MethodKey := { name := member.name, descriptor := member.descriptor }
    if member.owner ≠ c.name ∨ key = m.key then return m.key
    let own ← parameterCount m.descriptor
    let target ← parameterCount member.descriptor
    return if own = target then key else m.key

/-- Which method gets the markers of a method. -/
structure Resolver where
  target : ClassFile → Method → Except Error MethodKey

/-- The one a bridge forwards to. -/
def Resolver.bridge : Resolver where
  target c m := (c.bridgeTarget m).mapError fun fault => fault.error.withClass c.name

/-- The method itself. -/
def Resolver.identity : Resolver where
  target _ m := .ok m.key

def Resolver.resolve {σ : Type} (r : Resolver) (c : ClassFile) (m : Method) : Task σ MethodKey := do
  let key ← Task.ofExcept (r.target c m)
  if key ≠ m.key then
    Task.note .trace Log.Module.fix <|
      c.name ++ "." ++ m.signature ++ " bridges to " ++ key.name ++ key.descriptor
  return key

end JarRepair.ClassFile

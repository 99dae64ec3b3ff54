import JarRepair.ClassFile.Decode
import JarRepair.ClassFile.Encode
import JarRepair.Task

/-! # Editing class files

Reading, marking and writing a class, each with what it tells the log. -/

namespace JarRepair.ClassFile

variable {σ : Type}

def Repeated.note (r : Repeated) : Log.Note :=
  { level := .warn
    module := Log.Module.codec
    message := "Duplicate " ++ r.channel.attributeName ++ " on " ++ r.method ++ ", kept verbatim" }

/-- Reads a class and reports the attributes that it leaves alone. -/
def load (data : Bytes) : Task σ ClassFile := do
  match decode data with
  | .ok c =>
    modify fun t => { t with notes := t.notes ++ ((repeatsOf c.methods).map Repeated.note).toArray }
    Task.note .trace Log.Module.codec <| "Decoded " ++ c.name ++ " (" ++
      Bytes.decimal c.methods.length ++ " methods, " ++ Bytes.decimal c.pool.count.toNat ++
      " constants)"
    return c
  | .error failure =>
    modify fun t => { t with notes := t.notes ++ (failure.repeats.map Repeated.note).toArray }
    throw failure.error

def store (c : ClassFile) : Task σ Bytes := do
  let data ← Task.ofExcept c.encode
  Task.note .trace Log.Module.codec <|
    "Encoded " ++ c.name ++ " (" ++ Bytes.decimal data.length ++ " bytes)"
  return data

/-! ## Markers -/

/-- Puts an annotation at the end of the invisible set. -/
def Method.annotate (m : Method) (a : Annotation) : Method :=
  { m with invisible := some (m.invisible.getD [] ++ [a]) }

/-- Gives a method the attribute of the invisible channel, with an empty set. -/
def Method.openInvisible (m : Method) (nameIndex : UInt16) : Method :=
  { m with
    attributes := m.attributes ++ [.channel nameIndex (.declaration .invisible)]
    invisible := some [] }

/-- Adds an annotation without elements to the invisible set of method `k`, unless one of its type
is there. Returns whether it was added. The type's constant may stay behind if its attribute's name
finds no room. -/
def mark (k : Nat) (type : Bytes) (c : ClassFile) : Except Error Bool × ClassFile :=
  match c.methods[k]? with
  | none => (.ok false, c)
  | some m =>
    if (m.invisible.getD []).any (·.type == type) then (.ok false, c)
    else
      match c.pool.addUtf8 type with
      | .error fault => (.error fault.error, c)
      | .ok (typeIndex, pool) =>
        let c := { c with pool }
        let marker := Annotation.marker type typeIndex
        if m.invisible.isSome then (.ok true, c.mapMethod k fun m => m.annotate marker)
        else
          match c.pool.addUtf8 (Channel.declaration .invisible).attributeName with
          | .error fault => (.error fault.error, c)
          | .ok (nameIndex, pool) =>
            (.ok true, { c with pool }.mapMethod k fun m =>
              (m.openInvisible nameIndex).annotate marker)

def methodName (c : ClassFile) (k : Nat) : Bytes :=
  c.name ++ "." ++ (c.methods[k]?.map Method.signature).getD []

def addMarker (k : Nat) (type : Bytes) : Task ClassFile Bool := do
  let added ← Task.ofStep (mark k type)
  if added then
    let c ← Task.state
    Task.note .trace Log.Module.codec ("Added " ++ type ++ " to " ++ c.methodName k)
  return added

end JarRepair.ClassFile

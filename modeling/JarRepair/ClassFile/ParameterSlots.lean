import JarRepair.ClassFile.Marker

/-! # Leading parameters that the compiler adds

Constructors of enums and of inner classes take parameters that are not in the source: the name and
ordinal, the outer instance. A parameter channel with one set for each parameter counts them too, so
every annotation is on the wrong parameter; realigning drops the leading sets. A channel that is
already shorter is right. -/

namespace JarRepair.ClassFile

/-- The leading parameter types of this class's constructors, if the compiler adds any. -/
def leadingParameters (c : ClassFile) : Option (List Bytes) :=
  if Access.hasAny c.access Access.isEnum then some [objectType "java/lang/String", "I"]
  else do
    let row ← c.ownRow?
    let _ ← row.simple
    let outer ← row.outer
    if Access.hasAny row.access (Access.isStatic ||| Access.isInterface) then none
    else some [objectType outer]

/-- Drops the leading sets if there is a set for each parameter, and makes the count that of the
sets. -/
def ParameterChannel.realign (parameters leading : Nat) (p : ParameterChannel) : ParameterChannel :=
  match p.sets with
  | none => p
  | some sets =>
    let sets := if sets.length = parameters then sets.drop leading else sets
    { sets := some sets, count := sets.length }

/-- A constructor whose parameters start with `leading` has its channels realigned. -/
def Method.realign (leading : List Bytes) (m : Method) : Except Fault Method := do
  if m.isConstructor then
    let d ← (Descriptor.parse m.descriptor).mapError (Fault.descriptor m.descriptor)
    if Descriptor.startsWith d.parameters leading then
      let realign := ParameterChannel.realign d.parameters.length leading.length
      return { m with
        visibleParameters := realign m.visibleParameters
        invisibleParameters := realign m.invisibleParameters }
    else return m
  else return m

/-- The methods after realigning, those changed, and the fault that stopped it. The lists hold the
last method first. -/
structure Realigned where
  methods : List Method := []
  changed : List Method := []
  fault : Option Fault := none

def Realigned.step (leading : List Bytes) (r : Realigned) (m : Method) : Realigned :=
  match r.fault with
  | some _ => { r with methods := m :: r.methods }
  | none =>
    match m.realign leading with
    | .error fault => { r with methods := m :: r.methods, fault := some fault }
    | .ok m' =>
      { r with
        methods := m' :: r.methods
        changed := if m' = m then r.changed else m :: r.changed }

def realignMethods (leading : List Bytes) (methods : List Method) : Realigned :=
  methods.foldl (Realigned.step leading) {}

/-- Realigns every constructor. Returns how many have changed. -/
def realign : Task ClassFile Nat := do
  let c ← Task.state
  match c.leadingParameters with
  | none => return 0
  | some leading =>
    let r := realignMethods leading c.methods
    Task.setState { c with methods := r.methods.reverse }
    for m in r.changed.reverse do
      Task.note .debug Log.Module.fix <|
        "Realigned parameter annotations of " ++ c.name ++ "." ++ m.signature
    match r.fault with
    | some fault => throw (fault.error.withClass c.name)
    | none => return r.changed.length

end JarRepair.ClassFile

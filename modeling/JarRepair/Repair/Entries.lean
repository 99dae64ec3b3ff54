import JarRepair.ClassFile.ParameterSlots
import JarRepair.Repair.Override

/-! # Repairing the entries of a container

Directories stay, class files are repaired and all other files are copied. The first error ends the
run; it names the entry at which it arose. -/

namespace JarRepair.Repair

open Archive (Reader Writer Entry)

structure Summary where
  directories : Nat := 0
  resources : Nat := 0
  classes : Nat := 0
  realigned : Nat := 0
  marked : Nat := 0
deriving DecidableEq, Repr

/-- What a run did, with the counts of its lookups and, for a file, the digest of the output. -/
structure Report where
  summary : Summary
  cache : Cache.Stats
  digest : Bytes := []
deriving DecidableEq, Repr

variable {σ : Type}

/-- Repairs the class of a name; returns its bytes, and the summary with its repairs. -/
def repairClass (src : Sources σ) (r : ClassFile.Resolver) (name : Bytes) (s : Summary) :
    Task (Bench σ) (Bytes × Summary) := do
  match ← src.find name with
  | none => throw ((Error.internal "no class model found for known entry").withClass name)
  | some _ =>
    let realigned ← Bench.edit name ClassFile.realign
    let c := ((← Task.state).class? name).getD {}
    let marked ← markClass src r name c
    let data ← ClassFile.store (((← Task.state).class? name).getD {})
    return (data, { s with realigned := s.realigned + realigned, marked := s.marked + marked })

def repairEntry (src : Sources σ) (r : ClassFile.Resolver) (output : Writer σ) (s : Summary)
    (e : Entry) :
    Task (Bench σ) Summary :=
  match e.kind with
  | .directory => do
    Bench.inWorld (output.addDirectory e.path)
    return { s with directories := s.directories + 1 }
  | .file => do
    if e.path.isClass then
      let (data, s) ← repairClass src r e.path.className s
      Bench.inWorld (output.addFile e.path data)
      Task.note .trace Log.Module.pipeline ("Fixed " ++ e.path)
      return { s with classes := s.classes + 1 }
    else
      let data ← Bench.inWorld (src.primary.read e.path)
      Bench.inWorld (output.addFile e.path data)
      return { s with resources := s.resources + 1 }

def repairEntries (src : Sources σ) (r : ClassFile.Resolver) (output : Writer σ) :
    Task (Bench σ) Summary :=
  src.primary.entries.foldlM
    (fun s e => Task.mapError (Error.withEntry e.path) (repairEntry src r output s e)) {}

/-- Repairs every entry of the primary container into the output. -/
def repair (src : Sources σ) (r : ClassFile.Resolver) (output : Writer σ) :
    Task (Bench σ) Report := do
  let summary ← repairEntries src r output
  let cache := (← Task.state).cache.stats
  Task.note .info Log.Module.pipeline <|
    "Processed " ++ Bytes.decimal summary.classes ++ " classes, " ++
    Bytes.decimal summary.resources ++
      " resources, " ++ Bytes.decimal summary.directories ++ " directories"
  return { summary, cache }

end JarRepair.Repair

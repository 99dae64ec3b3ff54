import JarRepair.Archive.Container
import JarRepair.Repair.Entries
import JarRepair.Digest

/-! # Runs

A run repairs the container at one path into one at another. It refuses to write over what it reads,
and replaces an output file that exists. -/

namespace JarRepair.Repair

open Archive (Container Output Site)

structure Options where
  input : Volume.Path
  fallback : Option Volume.Path := none
  output : Volume.Path
deriving DecidableEq, Repr

/-- The digest of a file's content. -/
def digestOf (v : Volume) (p : Volume.Path) : Except Error Bytes :=
  match v.read? p with
  | some data => .ok (Sha256.digest data)
  | none => .error (.io ("cannot open " ++ p ++ " for hashing"))

/-- Makes room for the output. -/
def clearOutput (o : Options) : Task Volume Unit := do
  let v ← Task.state
  if v.same o.input o.output || o.fallback.any fun p => v.same p o.output then
    throw (.io ("output " ++ o.output ++ " would overwrite an input"))
  if v.isFile o.output then
    match v.remove o.output with
    | .ok v =>
      Task.setState v
      Task.note .debug Log.Module.pipeline ("Removed existing " ++ o.output)
    | .error _ => throw (.io ("cannot remove existing output " ++ o.output))
  else if v.isDirectory o.output && !v.isEmptyDirectory o.output then
    throw (.io ("output directory " ++ o.output ++ " is not empty"))

/-- The digest of the output, if it is a file. -/
def outputDigest (p : Volume.Path) : Task Volume Bytes := do
  let v ← Task.state
  if v.isFile p then Task.ofExcept (digestOf v p) else return []

variable {σ : Type} [HoldsVolume σ]

/-- Repairs what the sources hold into the output of the site. -/
def repairInto (src : Sources (Site σ)) (o : Options) : Task (Site σ) Report := do
  let location := (← Task.state).output.location
  Task.note .info Log.Module.pipeline ("Fixing " ++ src.primary.location ++ " -> " ++ location)
  let site ← Task.state
  let report ← fun s =>
    let (r, s) := repair src .bridge Output.writer { state := { world := site }, notes := s.notes }
    (r, { state := s.state.world, notes := s.notes })
  Output.finish
  let digest ← onVolume (outputDigest o.output)
  Task.note .info Log.Module.pipeline <|
    "Wrote " ++ location ++ " (" ++ Bytes.decimal report.summary.marked ++ " markers added, " ++
      Bytes.decimal report.summary.realigned ++ " constructors realigned)"
  return { report with digest }

def run (o : Options) : Task σ Report := do
  onVolume (clearOutput o)
  let input ← onVolume (Container.openPath o.input)
  let fallback ← o.fallback.mapM fun p => onVolume (Container.openPath p)
  let output := Output.ofPath o.output (← onVolume Task.state)
  let reader (c : Container) : Archive.Reader (Site σ) := c.reader.through onVolume
  output.during (repairInto { primary := reader input, fallback := fallback.map reader } o)

end JarRepair.Repair

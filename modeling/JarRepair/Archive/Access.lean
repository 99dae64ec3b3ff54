import JarRepair.Archive.Entry
import JarRepair.Task

/-! # Containers as the repair sees them

A reader lists a container and fetches its files; a writer takes entries one by one. Both may work
on a state: the volume, a buffer, a count of what they were asked. -/

namespace JarRepair.Archive

structure Reader (σ : Type) where
  /-- Where the container is, for messages. -/
  location : Bytes
  entries : List Entry
  /-- The paths that can be read. -/
  files : Std.TreeSet Path
  read : Path → Task σ Bytes

structure Writer (σ : Type) where
  addDirectory : Path → Task σ Unit
  addFile : Path → Bytes → Task σ Unit

namespace Reader

variable {σ τ : Type}

def contains (r : Reader σ) (p : Path) : Bool := r.files.contains p

/-- A reader whose fetches are steps on another state. -/
def through (step : Task τ Bytes → Task σ Bytes) (r : Reader τ) : Reader σ :=
  { r with read := fun p => step (r.read p) }

end Reader

/-! ## Messages of writers -/

def alreadyFinished : Error := .io "archive already finished"

def writtenTwice (p : Path) : Error := .withEntry p (.io "entry written twice")

def notListed (location : Bytes) (p : Path) : Error :=
  .withEntry p (.io ("no such entry in " ++ location))

end JarRepair.Archive

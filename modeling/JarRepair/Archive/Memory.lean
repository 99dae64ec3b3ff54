import Std.Data.TreeMap
import JarRepair.Archive.Access

/-! # Containers in memory -/

namespace JarRepair.Archive

structure Memory where
  files : Std.TreeMap Path Bytes := ∅
  directories : List Path := []

namespace Memory

def entries (m : Memory) : List Entry :=
  Entry.complete
    (m.files.keys.map (fun path => { path, kind := .file }) ++
      m.directories.map fun path => { path, kind := .directory })

/-- Serves every file that it lists. -/
def reader {σ : Type} (location : Bytes) (m : Memory) : Reader σ where
  location := location
  entries := m.entries
  files := .ofList m.files.keys
  read p :=
    match m.files[p]? with
    | some data => return data
    | none => throw (notListed location p)

end Memory

/-- What a writer in memory has taken: all paths in order, and the files and directories. -/
structure Collected where
  order : Array Path := #[]
  files : Std.TreeMap Path Bytes := ∅
  directories : Array Path := #[]
  finished : Bool := false

namespace Collected

def addDirectory (p : Path) (c : Collected) : Except Error Unit × Collected :=
  if c.finished then (.error alreadyFinished, c)
  else (.ok (), { c with order := c.order.push p, directories := c.directories.push p })

def addFile (p : Path) (data : Bytes) (c : Collected) : Except Error Unit × Collected :=
  if c.finished then (.error alreadyFinished, c)
  else if c.files.contains p then (.error (writtenTwice p), c)
  else (.ok (), { c with order := c.order.push p, files := c.files.insert p data })

/-- Refuses only a path that was written before. -/
def writer : Writer Collected where
  addDirectory p := Task.ofStep (addDirectory p)
  addFile p data := Task.ofStep (addFile p data)

def toMemory (c : Collected) : Memory := { files := c.files, directories := c.directories.toList }

end Collected

end JarRepair.Archive

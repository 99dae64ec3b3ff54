import JarRepair.Archive.Access
import JarRepair.Volume.Operations

/-! # Reading directory trees

Every file below a root is an entry, and so is every directory. Links are followed; what is neither
a file nor a directory is passed over. Files are read when they are asked for. -/

namespace JarRepair.Directory

open JarRepair.Archive (Path Entry Reader)

structure Tree where
  root : Volume.Path
  files : Std.TreeSet Path := ∅
  entries : List Entry := []

namespace Tree

/-- What was found below a root. -/
structure Finds where
  /-- The last entry first. -/
  entries : List Entry := []
  specials : List Volume.Path := []
  /-- A path that an entry may not have, and why. -/
  fault : Option (Path × Path.Fault) := none

def below (directory : Path) (name : Bytes) : Path :=
  if directory = [] then name else directory ++ Path.slash :: name

/-- What a node in a directory stands for and where that is. Only a link has to be walked to. -/
def target? (v : Volume) (loc : Volume.Location) (n : Volume.Node) (full : Volume.Path) :
    Option (Volume.Location × Entry.Kind) :=
  match n with
  | .file .. => some (loc, .file)
  | .directory => some (loc, .directory)
  | .special => none
  | .link _ =>
    match v.status full with
    | .present loc .directory => some (loc, .directory)
    | .present loc (.file ..) => some (loc, .file)
    | _ => none

/-- Walks the tree below a directory, depth first, and goes on in what is found there. -/
def explore (v : Volume) (root : Volume.Path) :
    (levels : Nat) → Volume.Location → (directory : Path) → Finds → Finds
  | 0, _, _, f => f
  | levels + 1, loc, directory, f =>
    (v.children loc).foldl
      (fun f (name, n) =>
        if f.fault.isSome then f
        else
          let p := below directory name
          match p.fault? with
          | some fault => { f with fault := some (p, fault) }
          | none =>
            match target? v (loc ++ [name]) n (root.join p) with
            | none => { f with specials := root.join p :: f.specials }
            | some (loc, kind) =>
              let f := { f with entries := { path := p, kind } :: f.entries }
              if kind = .directory then explore v root levels loc p f else f)
      f

/-- No link is followed on a path that is too long, and below the last one the directories are those
of the volume. So many levels are enough. -/
def maxLevels (v : Volume) : Nat := Volume.maxPath + v.nodes.size + 1

def explorePath (v : Volume) (root : Volume.Path) : Finds :=
  match v.status root with
  | .present loc .directory => explore v root (maxLevels v) loc [] {}
  | _ => {}

/-- Lists the directory that a path names. -/
def openPath (root : Volume.Path) : Task Volume Tree := do
  let v ← Task.state
  if !v.isDirectory root then throw (.io ("not a directory: " ++ root))
  let finds := explorePath v root
  for p in finds.specials.reverse do
    Task.note .warn Log.Module.archive ("Skipping special file " ++ p)
  if let some (p, fault) := finds.fault then throw (.format (root ++ ": " ++ fault.text p))
  let found := finds.entries.reverse
  let files := Std.TreeSet.ofList ((found.filter (!·.isDirectory)).map Entry.path)
  Task.note .debug Log.Module.archive <|
    "Opened directory " ++ root ++ " (" ++ Bytes.decimal files.size ++ " files)"
  return { root, files, entries := Entry.complete found }

def read (t : Tree) (p : Path) : Task Volume Bytes := do
  if !t.files.contains p then throw (JarRepair.Archive.notListed t.root p)
  let full := t.root.join p
  match (← Task.state).read? full with
  | some data => return data
  | none => throw ((Error.io ("cannot open " ++ full)).withEntry p)

def reader (t : Tree) : Reader Volume where
  location := t.root
  entries := t.entries
  files := t.files
  read := t.read

end Tree

end JarRepair.Directory

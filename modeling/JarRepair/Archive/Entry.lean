import Std.Data.TreeSet
import JarRepair.Archive.Path

/-! # Listings

A container lists its entries sorted by path and lists every parent directory, so that a directory
comes before what is in it. -/

namespace JarRepair.Archive

inductive Entry.Kind where
  | directory
  | file
deriving DecidableEq, Repr

structure Entry where
  path : Path
  kind : Entry.Kind
deriving DecidableEq, Repr

namespace Entry

def isDirectory (e : Entry) : Bool := e.kind == .directory

/-- Sorts by path; entries of one path keep their order. -/
def sort (entries : List Entry) : List Entry := entries.mergeSort fun a b => Bytes.le a.path b.path

/-- The directories known so far and those that were found missing, the last one first. -/
structure Climb where
  known : Std.TreeSet Path
  missing : List Path := []

/-- Adds the parents of a path up to the first one that is known: those above it are known too. -/
def Climb.add : List Path → Climb → Climb
  | [], c => c
  | dir :: dirs, c =>
    if c.known.contains dir then c
    else Climb.add dirs { known := c.known.insert dir, missing := dir :: c.missing }

def directories (entries : List Entry) : Std.TreeSet Path :=
  .ofList ((entries.filter isDirectory).map path)

/-- The parent directories that are not listed. -/
def missingDirectories (entries : List Entry) : List Path :=
  (entries.foldl (fun c e => c.add e.path.parents)
    { known := directories entries : Climb }).missing.reverse

/-- The sorted listing with all parent directories. -/
def complete (entries : List Entry) : List Entry :=
  sort (entries ++ (missingDirectories entries).map fun path => { path, kind := .directory })

end Entry

end JarRepair.Archive

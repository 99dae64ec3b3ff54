import JarRepair.Archive.Access
import JarRepair.Volume.Operations

/-! # Writing directory trees

Entries go to a staging directory beside the root; finishing moves it into place, so the root never
holds a part of a tree. A root that exists must be an empty directory. A writer that is dropped
unfinished removes its staging directory. -/

namespace JarRepair.Directory

open JarRepair.Archive (Path)

structure Writer where
  root : Volume.Path
  /-- What was asked for; directories have a trailing slash. -/
  written : Std.TreeSet Bytes := ∅
  /-- Whether the staging directory has been created. -/
  staged : Bool := false
  finished : Bool := false

namespace Writer

def ofPath (p : Volume.Path) : Writer := { root := p.withoutTrailingSlash }

def staging (w : Writer) : Volume.Path := w.root ++ ".tmp"

abbrev Step := Except Error Unit × Writer × Volume

/-- Creates an empty staging directory the first time. -/
def stage (w : Writer) (v : Volume) : Step :=
  if w.staged then (.ok (), w, v)
  else
    let fail (why : Volume.Refusal) : Error :=
      .io ("cannot create " ++ w.staging ++ ": " ++ why.text)
    match v.removeAll w.staging with
    | (.error why, v) => (.error (fail why), w, v)
    | (.ok (), v) =>
      match v.makeDirectories w.staging with
      | (.error why, v) => (.error (fail why), w, v)
      | (.ok (), v) => (.ok (), { w with staged := true }, v)

/-- Checks an entry, remembers its name and stages before `write` puts it below the staging
directory. -/
def add (p : Path) (name : Bytes) (write : Volume.Path → Volume → Except Error Unit × Volume)
    (w : Writer) (v : Volume) : Step :=
  if w.finished then (.error (JarRepair.Archive.alreadyFinished.withEntry p), w, v)
  else
    match p.fault? with
    | some fault => (.error (.io (fault.text p)), w, v)
    | none =>
      if w.written.contains name then (.error (JarRepair.Archive.writtenTwice p), w, v)
      else
        match { w with written := w.written.insert name }.stage v with
        | (.error e, w, v) => (.error e, w, v)
        | (.ok (), w, v) =>
          let (r, v) := write (w.staging.join p) v
          (r.mapError (Error.withEntry p), w, v)

def writeDirectory (full : Volume.Path) (v : Volume) : Except Error Unit × Volume :=
  let (r, v) := v.makeDirectories full
  (r.mapError fun why => .io ("cannot create directory: " ++ why.text), v)

def writeFile (data : Bytes) (full : Volume.Path) (v : Volume) : Except Error Unit × Volume :=
  match v.makeDirectories full.parent with
  | (.error why, v) => (.error (.io ("cannot create parent directory: " ++ why.text)), v)
  | (.ok (), v) =>
    match v.write? full data with
    | some v => (.ok (), v)
    | none => (.error (.io ("cannot create " ++ full)), v)

def addDirectory (p : Path) : Writer → Volume → Step := add p (p ++ [Path.slash]) writeDirectory

def addFile (p : Path) (data : Bytes) : Writer → Volume → Step := add p p (writeFile data)

/-- Makes room at the root and moves the staging directory there. -/
def place (w : Writer) (v : Volume) : Except Error Unit × Volume :=
  let fail (why : Volume.Refusal) : Error :=
    .io ("cannot move " ++ w.staging ++ " to " ++ w.root ++ ": " ++ why.text)
  let move (v : Volume) :=
    match v.rename w.staging w.root with
    | .ok v => (.ok (), v)
    | .error why => (.error (fail why), v)
  match v.status w.root with
  | .absent => move v
  | .unknown why => (.error (fail why), v)
  | .present .. =>
    if v.isEmptyDirectory w.root then
      match v.remove w.root with
      | .ok v => move v
      | .error why => (.error (fail why), v)
    else (.error (.io ("output " ++ w.root ++ " exists and is not an empty directory")), v)

def finish (w : Writer) (v : Volume) : Step :=
  if w.finished then (.error JarRepair.Archive.alreadyFinished, w, v)
  else
    match w.stage v with
    | (.error e, w, v) => (.error e, w, v)
    | (.ok (), w, v) =>
      match w.place v with
      | (.error e, v) => (.error e, w, v)
      | (.ok (), v) => (.ok (), { w with finished := true }, v)

/-- Removes what an unfinished writer has staged; says why if it cannot. -/
def drop (w : Writer) (v : Volume) : Option Volume.Refusal × Volume :=
  if w.staged && !w.finished then
    match v.removeAll w.staging with
    | (.ok (), v) => (none, v)
    | (.error why, v) => (some why, v)
  else (none, v)

end Writer

end JarRepair.Directory

import JarRepair.Directory.Tree
import JarRepair.Directory.Writer
import JarRepair.Zip.Archive
import JarRepair.Zip.Writer

/-! # Containers on a volume

A container is a directory tree or a zip file. A path that is a directory, or is written like one,
gets a directory tree. -/

namespace JarRepair.Archive

inductive Container where
  | zip (a : Zip.Archive)
  | directory (t : Directory.Tree)

namespace Container

def openPath (p : Volume.Path) : Task Volume Container := do
  let v ← Task.state
  if !v.exist p then throw (.io ("archive not found: " ++ p))
  if v.isDirectory p then return .directory (← Directory.Tree.openPath p)
  else return .zip (← Zip.Archive.openPath p)

def reader : Container → Reader Volume
  | .zip a => a.reader
  | .directory t => t.reader

end Container

/-! ## Outputs -/

inductive Output where
  | zip (w : Zip.Writer)
  | directory (w : Directory.Writer)

/-- A state that holds a volume, and a container that is being written there. -/
structure Site (σ : Type) where
  world : σ
  output : Output

variable {σ : Type} [HoldsVolume σ]

instance : HoldsVolume (Site σ) where
  onVolume t := (onVolume t).focus Site.world fun world s => { s with world }

namespace Output

def ofPath (p : Volume.Path) (v : Volume) : Output :=
  if v.isDirectory p || p.getLast? = some Path.slash || p.getLast? = some Path.backslash then
    .directory (.ofPath p)
  else .zip { path := p }

def location : Output → Volume.Path
  | .zip w => w.path
  | .directory w => w.root

/-- Where the container is put together before it is moved into place. -/
def staging : Output → Volume.Path
  | .zip w => w.temporary
  | .directory w => w.staging

def set (o : Output) : Task (Site σ) Unit := Task.modifyState fun s => { s with output := o }

/-- A step of a zip file's writer. -/
def stepZip (step : Except Error Unit × Zip.Writer) : Task (Site σ) Unit := do
  let (r, w) := step
  set (.zip w)
  Task.ofExcept r

/-- A step of a directory tree's writer. -/
def stepDirectory (step : Volume → Directory.Writer.Step) : Task (Site σ) Unit := do
  let (r, w) ← onVolume <| Task.ofStep fun v =>
    let (r, w, v) := step v
    (.ok (r, w), v)
  set (.directory w)
  Task.ofExcept r

def addDirectory (p : Path) : Task (Site σ) Unit := do
  match (← Task.state).output with
  | .zip w => stepZip (w.addDirectory p)
  | .directory w => stepDirectory (w.addDirectory p)

def addFile (p : Path) (data : Bytes) : Task (Site σ) Unit := do
  match (← Task.state).output with
  | .zip w => stepZip (w.addFile p data)
  | .directory w => stepDirectory (w.addFile p data)

def writer : Writer (Site σ) := { addDirectory, addFile }

/-- Completes the container and puts it into place. -/
def finish : Task (Site σ) Unit := do
  match (← Task.state).output with
  | .zip w =>
    let w ← Task.ofExcept w.finish
    set (.zip w)
    onVolume (Task.ofStep w.save)
    Task.note .debug Log.Module.archive <|
      "Wrote " ++ w.path ++ " (" ++ Bytes.decimal w.count ++ " entries, " ++
        Bytes.decimal w.image.length ++ " bytes)"
  | .directory w =>
    stepDirectory w.finish
    Task.note .debug Log.Module.archive <|
      "Wrote directory " ++ w.root ++ " (" ++ Bytes.decimal w.written.size ++ " entries)"

/-- Gives up the container unless it is finished. -/
def drop : Task (Site σ) Unit := do
  match (← Task.state).output with
  | .zip _ => return
  | .directory w =>
    let refusal ← onVolume <| Task.ofStep fun v =>
      let (refusal, v) := w.drop v
      (.ok refusal, v)
    if let some why := refusal then
      Task.note .warn Log.Module.archive ("Cannot remove " ++ w.staging ++ ": " ++ why.text)

/-- Runs a task that writes to an output, which is dropped at the end. -/
def during {α : Type} (o : Output) (t : Task (Site σ) α) : Task σ α := fun s =>
  let (r, s) := t { state := { world := s.state, output := o }, notes := s.notes }
  let (_, s) := drop s
  (r, { state := s.state.world, notes := s.notes })

end Output

end JarRepair.Archive

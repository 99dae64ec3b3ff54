import Std.Time.Zoned
import JarRepair.CommandLine.Program
import JarRepair.Volume.Changes

/-! # The command

Takes up the part of the disk that the arguments name, runs the program on it and carries out what
has changed. -/

namespace JarRepair.Host

open Volume (Location)

def bytesOf (s : String) : Bytes := s.toUTF8.toList

def textOf (bs : Bytes) : IO String :=
  match String.fromUTF8? ⟨bs.toArray⟩ with
  | some s => return s
  | none => throw (IO.userError "a path is not valid UTF-8")

def pathOf (loc : Location) : IO String := return "/" ++ "/".intercalate (← loc.mapM textOf)

/-- The directory entry of a location below the root. -/
def entryOf (loc : Location) : IO IO.FS.DirEntry :=
  return { root := ← pathOf loc.dropLast, fileName := ← textOf (loc.getLastD []) }

def locationOf (text : String) : Location := Volume.Path.components (bytesOf text)

/-! ## Taking up -/

structure Snapshot where
  volume : Volume
  /-- The directories whose entries have been taken up. -/
  listed : List Location := []

def Snapshot.put (loc : Location) (n : Volume.Node) (s : Snapshot) : Snapshot :=
  if (s.volume.node? loc).isSome then s else { s with volume := s.volume.put loc n }

def Snapshot.addFile (loc : Location) (s : Snapshot) : IO Snapshot := do
  if (s.volume.node? loc).isSome then return s
  let content ← IO.FS.readBinFile (← pathOf loc)
  return { s with volume := s.volume.addFile loc content.toList }

def namesIn (loc : Location) : IO (List Bytes) := do
  let entry : IO.FS.DirEntry ←
    if loc = [] then pure { root := "/", fileName := "." } else entryOf loc
  return (← entry.path.readDir).toList.map fun e => bytesOf e.fileName

/-- What to take up of a directory: no more than that it is one, the names in it, or all below
it. -/
inductive Extent where
  | bare
  | names
  | tree

/-- Takes up what a walk from a directory meets and, to an extent, the directory that it ends in. -/
partial def take (x : Extent) (loc : Location) (names : List Bytes)
  (s : Snapshot) : IO Snapshot := do
  match names with
  | [] =>
    match x with
    | .bare => return s
    | .names => return (← namesIn loc).foldl (fun s name => s.put (loc ++ [name]) .special) s
    | .tree =>
      if s.listed.contains loc then return s
      (← namesIn loc).foldlM (fun s name => take x loc [name] s)
        { s with listed := loc :: s.listed }
  | name :: rest =>
    if name = "." then take x loc rest s
    else if name = ".." then take x loc.dropLast rest s
    else
      let loc := loc ++ [name]
      let entry ← entryOf loc
      match ← entry.path.symlinkMetadata.toBaseIO with
      | .error _ => return s
      | .ok metadata =>
        match metadata.type with
        | .dir => take x loc rest (s.put loc .directory)
        | .file => s.addFile loc
        | .symlink =>
          let target := locationOf (← IO.FS.realPath entry.path).toString
          let path : Volume.Path := Volume.Path.slash :: (Bytes.ascii "/").intercalate target
          let s := s.put loc (.link path)
          if target = loc then return s else take x [] (target ++ rest) s
        | .other => return s.put loc .special

def takePath (x : Extent) (s : Snapshot) (p : Volume.Path) : IO Snapshot :=
  take x (if p.isAbsolute then [] else s.volume.workingDirectory) p.components s

/-- Takes up all that the arguments name: what is read, and in outline what is written. -/
def snapshot (arguments : List Bytes) (log : Option Bytes) : IO Volume := do
  let here := locationOf (← IO.currentDir).toString
  let s ← take .bare [] here { volume := { workingDirectory := here } }
  let file := (Log.Config.ofArguments arguments log).file
  let s ← if file = [] then pure s else takePath .bare s file
  match CommandLine.parse (arguments.drop 1) with
  | .error _ => return s.volume
  | .ok o =>
    let s ← (o.input :: o.fallback.toList).foldlM (takePath .tree) s
    let s ← takePath .names s o.output
    return (← takePath .names s (Archive.Output.ofPath o.output s.volume).staging).volume

/-! ## Carrying out -/

def carryOut : Volume.Change → IO Unit
  | .remove loc => do
    let entry ← entryOf loc
    if (← entry.path.symlinkMetadata).type == .dir then IO.FS.removeDirAll entry.path
    else IO.FS.removeFile entry.path
  | .makeDirectory loc => do IO.FS.createDir (← pathOf loc)
  | .write loc content => do IO.FS.writeBinFile (← pathOf loc) ⟨content.toArray⟩

def clock : IO Log.Clock := do
  let t ← Std.Time.PlainTime.now
  let pad (width n : Nat) : Bytes :=
    let digits := Bytes.decimal n
    List.replicate (width - digits.length) (Bytes.char '0') ++ digits
  let fields := [pad 2 t.hour.val.toNat, pad 2 t.minute.val.toNat, pad 2 t.second.val.toNat]
  return {
    timeOfDay :=
      (Bytes.ascii ":").intercalate fields ++ "." ++ pad 3 (t.nanosecond.val.toNat / 1000000)
    millis := (← Std.Time.Timestamp.now).toMillisecondsSinceUnixEpoch.val }

end JarRepair.Host

open JarRepair

def main (args : List String) : IO UInt32 := do
  let arguments := args.map Host.bytesOf
  let log := (← IO.getEnv "JARFIX_LOG").map Host.bytesOf
  let kind := (← IO.getEnv "TERM").map Host.bytesOf
  let terminal := if ← (← IO.getStderr).isTty then Log.Terminal.attached kind else .none
  let volume ← Host.snapshot arguments log
  let outcome := CommandLine.run { log, terminal, clock := ← Host.clock } arguments volume
  for change in volume.changesTo outcome.outlet.volume do
    Host.carryOut change
  (← IO.getStderr).write ⟨outcome.outlet.errors.toList.flatten.toArray⟩
  (← IO.getStdout).write ⟨outcome.output.toArray⟩
  return outcome.exitCode.toUInt32

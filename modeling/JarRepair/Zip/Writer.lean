import JarRepair.Archive.Access
import JarRepair.Digest
import JarRepair.Deflate.Block
import JarRepair.Volume.Operations
import JarRepair.Zip.Header

/-! # Writing zip files

A writer keeps the entries it has accepted; the image is laid out from them: each entry with its
local header, the central directory, the end record. The file is written in one go when the writer
is finished, under a name of its own first. -/

namespace JarRepair.Zip

open JarRepair.Archive (Path)

structure Writer.Entry where
  /-- The stored name, with a trailing slash for a directory. -/
  name : Bytes
  directory : Bool := false
  method : UInt16 := Method.stored
  crc : UInt32
  size : Nat := 0
  payload : Bytes := []
deriving DecidableEq, Repr

namespace Writer.Entry

def directoryName (p : Path) : Bytes := p ++ [Path.slash]

def ofDirectory (p : Path) : Entry :=
  { name := directoryName p, directory := true, crc := Crc32.checksum [] }

/-- Takes the smaller of the compressed and the plain form. -/
def ofFile (p : Path) (data : Bytes) : Entry :=
  let crc := Crc32.checksum data
  match Deflate.shorten? data with
  | some packed =>
    { name := p, method := Method.deflated, crc, size := data.length, payload := packed }
  | none => { name := p, crc, size := data.length, payload := data }

/-! ## Layout -/

def localHeader (e : Entry) : LocalHeader where
  version := Method.version e.method
  flags := flagUtf8
  method := e.method
  time := time
  date := date
  crc := e.crc
  compressedSize := e.payload.length.toUInt32
  size := e.size.toUInt32
  nameLength := e.name.length.toUInt16
  extraLength := 0

def centralHeader (offset : Nat) (e : Entry) : CentralHeader where
  madeBy := madeBy
  version := Method.version e.method
  flags := flagUtf8
  method := e.method
  time := time
  date := date
  crc := e.crc
  compressedSize := e.payload.length.toUInt32
  size := e.size.toUInt32
  nameLength := e.name.length.toUInt16
  extraLength := 0
  commentLength := 0
  disk := 0
  internal := 0
  external := if e.directory then directoryAttribute else 0
  offset := offset.toUInt32

def localPart (e : Entry) : Bytes := e.localHeader.encode ++ e.name ++ e.payload

def localLength (e : Entry) : Nat := LocalHeader.length + e.name.length + e.payload.length

def centralPart (offset : Nat) (e : Entry) : Bytes := (e.centralHeader offset).encode ++ e.name

end Writer.Entry

/-- The entries one after the other. -/
def body (entries : List Writer.Entry) : Bytes := entries.flatMap Writer.Entry.localPart

/-- Each entry with the offset of its local part. -/
def withOffsets (entries : List Writer.Entry) : List (Nat × Writer.Entry) :=
  (entries.foldl (fun (offset, found) e => (offset + e.localLength, (offset, e) :: found))
    (0, [])).2.reverse

def directory (entries : List Writer.Entry) : Bytes :=
  (withOffsets entries).flatMap fun (offset, e) => e.centralPart offset

def endOf (count directorySize directoryOffset : Nat) : EndRecord where
  disk := 0
  directoryDisk := 0
  diskCount := count.toUInt16
  count := count.toUInt16
  directorySize := directorySize.toUInt32
  directoryOffset := directoryOffset.toUInt32
  commentLength := 0

/-- The zip file with these entries. -/
def layout (entries : List Writer.Entry) : Bytes :=
  let body := body entries
  let directory := directory entries
  body ++ directory ++ (endOf entries.length directory.length body.length).encode

/-! ## Writers -/

structure Writer where
  path : Volume.Path
  /-- The accepted entries, the last one first, and the length of their local parts. -/
  accepted : List Writer.Entry := []
  count : Nat := 0
  bodyLength : Nat := 0
  /-- The stored names that were asked for. -/
  names : Std.TreeSet Bytes := ∅
  finished : Bool := false

namespace Writer

def maxEntries : Nat := 65535
def maxImage : Nat := 4294967295
def maxFile : Nat := 4294967294

def entries (w : Writer) : List Entry := w.accepted.reverse

/-- The zip file once it is finished, what there is of it before. -/
def image (w : Writer) : Bytes := if w.finished then layout w.entries else body w.entries

def tooLarge : Error := .io "archive exceeds 4 GiB without zip64"

def accept (e : Entry) (w : Writer) : Except Error Unit × Writer :=
  if w.finished then (.error (JarRepair.Archive.alreadyFinished.withEntry e.name), w)
  else if maxEntries ≤ w.count then (.error (.io "too many entries for a zip without zip64"), w)
  else if maxImage < w.bodyLength + e.localLength then (.error tooLarge, w)
  else
    (.ok (), { w with
      accepted := e :: w.accepted
      count := w.count + 1
      bodyLength := w.bodyLength + e.localLength })

/-- Accepts an entry whose stored name was not asked for before. -/
def addNamed (p : Path) (name : Bytes) (e : Unit → Entry) (w : Writer) :
    Except Error Unit × Writer :=
  if w.names.contains name then (.error (JarRepair.Archive.writtenTwice p), w)
  else { w with names := w.names.insert name }.accept (e ())

def addDirectory (p : Path) (w : Writer) : Except Error Unit × Writer :=
  match p.fault? with
  | some fault => (.error (.io (fault.text p)), w)
  | none => w.addNamed p (Entry.directoryName p) fun _ => .ofDirectory p

/-- Accepts a file. For data so near to 4 GiB that the bound for its compressed form does not fit in
32 bits, compressing may fail; this is outside of the domain. -/
def addFile (p : Path) (data : Bytes) (w : Writer) : Except Error Unit × Writer :=
  match p.fault? with
  | some fault => (.error (.io (fault.text p)), w)
  | none =>
    if maxFile < data.length then
      (.error ((Error.io "entry exceeds 4 GiB without zip64").withEntry p), w)
    else w.addNamed p p fun _ => .ofFile p data

def temporary (w : Writer) : Volume.Path := w.path ++ ".tmp"

/-- Puts the image into place: it is written beside the path and moved there. -/
def save (w : Writer) (v : Volume) : Except Error Unit × Volume :=
  let v := if w.path.parent = [] then v else (v.makeDirectories w.path.parent).2
  match v.write? w.temporary w.image with
  | none => (.error (.io ("cannot create " ++ w.temporary)), v)
  | some v =>
    match v.rename w.temporary w.path with
    | .ok v => (.ok (), v)
    | .error _ =>
      (.error (.io ("cannot move " ++ w.temporary ++ " to " ++ w.path)),
        match v.remove w.temporary with
        | .ok v => v
        | .error _ => v)

/-- Completes the image. A writer is finished even if the image cannot be put into place. -/
def finish (w : Writer) : Except Error Writer :=
  if w.finished then .error JarRepair.Archive.alreadyFinished
  else if maxImage < w.bodyLength + (directory w.entries).length then .error tooLarge
  else .ok { w with finished := true }

end Writer

end JarRepair.Zip

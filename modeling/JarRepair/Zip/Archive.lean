import JarRepair.Archive.Access
import JarRepair.Digest
import JarRepair.Deflate.Inflate
import JarRepair.Volume.Basic
import JarRepair.Zip.Header

/-! # Reading zip files

The end record is searched from the back; it leads to the central directory, which says all about an
entry but where its data starts: that is behind its local header. -/

namespace JarRepair.Zip

open JarRepair.Archive (Path Entry Reader)

inductive Fault where
  | tooShort
  | noEnd
  | multiDisk
  | zip64
  | directoryBounds
  | badHeader (index : Nat)
  | headerBounds (index : Nat)
  | zip64Entry (name : Bytes)
  | path (p : Path) (fault : Path.Fault)
  | duplicate (p : Path)
  | bothKinds (p : Path)
  | encrypted
  | badLocal
  | dataBounds
  | storedSize
  | inflate (fault : Deflate.Fault)
  | method (method : UInt16)
  | checksum
deriving DecidableEq, Repr

open Bytes in
def Fault.text : Fault → Bytes
  | .tooShort => "not a zip file (too short)"
  | .noEnd => "not a zip file (no end of central directory)"
  | .multiDisk => "multi-disk zip archives are not supported"
  | .zip64 => "zip64 archives are not supported"
  | .directoryBounds => "central directory out of bounds"
  | .badHeader i => "bad central directory header #" ++ decimal i
  | .headerBounds i => "central directory header #" ++ decimal i ++ " out of bounds"
  | .zip64Entry name => "zip64 entry not supported: " ++ name
  | .path p fault => fault.text p
  | .duplicate p => "duplicate entry " ++ p
  | .bothKinds p => "entry is both a file and a directory: " ++ p
  | .encrypted => "encrypted entries are not supported"
  | .badLocal => "bad local header"
  | .dataBounds => "entry data out of bounds"
  | .storedSize => "stored entry size mismatch"
  | .inflate fault => fault.text
  | .method m => "unsupported compression method " ++ decimal m.toNat
  | .checksum => "CRC-32 mismatch"

/-- What the directory says of a file. -/
structure Record where
  flags : UInt16
  method : UInt16
  crc : UInt32
  compressedSize : UInt32
  size : UInt32
  offset : UInt32
deriving DecidableEq, Repr

structure Archive where
  data : Array UInt8
  location : Bytes
  records : Std.TreeMap Path Record := ∅
  entries : List Entry := []

/-- `n` bytes from a position on. -/
def slice (data : Array UInt8) (i n : Nat) : Bytes := (data.extract i (i + n)).toList

/-! ## The directory -/

/-- Tries `n` positions backwards from `i`. -/
def findEnd? (data : Array UInt8) : (n i : Nat) → Option (Nat × EndRecord)
  | 0, _ => none
  | n + 1, i =>
    match EndRecord.decode? (slice data i EndRecord.length) with
    | some r => some (i, r)
    | none => findEnd? data n (i - 1)

/-- The end record is within the last bytes, before a comment of any length. -/
def endRecord (data : Array UInt8) : Except Fault (Nat × EndRecord) :=
  if data.size < EndRecord.length then .error .tooShort
  else
    let last := data.size - EndRecord.length
    match findEnd? data (min last EndRecord.maxComment + 1) last with
    | some r => .ok r
    | none => .error .noEnd

structure Listing where
  records : Std.TreeMap Path Record := ∅
  /-- The last entry first. -/
  entries : List Entry := []

/-- The path of a stored name, and whether it is a directory's. -/
def pathOf (name : Bytes) : Path × Entry.Kind :=
  match name.getLast? with
  | some b => if b = Path.slash then (name.dropLast, .directory) else (name, .file)
  | none => (name, .file)

def Listing.add (h : CentralHeader) (name : Bytes) (l : Listing) : Except Fault Listing :=
  if h.compressedSize = dword64 ∨ h.size = dword64 ∨ h.offset = dword64 then
    .error (.zip64Entry name)
  else
    let (p, kind) := pathOf name
    match p.fault? with
    | some fault => .error (.path p fault)
    | none =>
      let entries := { path := p, kind } :: l.entries
      match kind with
      | .directory => .ok { l with entries }
      | .file =>
        if l.records.contains p then .error (.duplicate p)
        else
          let record : Record :=
            { flags := h.flags, method := h.method, crc := h.crc,
              compressedSize := h.compressedSize, size := h.size, offset := h.offset }
          .ok { records := l.records.insert p record, entries }

/-- Reads `n` central headers from a position on; the directory ends at `limit`. -/
def Listing.read (data : Array UInt8) (limit : Nat) :
    (n index position : Nat) → Listing → Except Fault Listing
  | 0, _, _, l => .ok l
  | n + 1, index, position, l =>
    let start := position + CentralHeader.length
    if limit < start then .error (.badHeader index)
    else
      match CentralHeader.decode? (slice data position CentralHeader.length) with
      | none => .error (.badHeader index)
      | some h =>
        if limit < start + h.trailer then .error (.headerBounds index)
        else
          match l.add h (slice data start h.nameLength.toNat) with
          | .error fault => .error fault
          | .ok l => read data limit n (index + 1) (start + h.trailer) l

/-- Of equal neighbours keeps one. -/
def dropRepeats (entries : List Entry) : List Entry :=
  (entries.foldl (fun kept e => if kept.head? = some e then kept else e :: kept) []).reverse

/-- The first path that two neighbours share. -/
def sharedPath? (entries : List Entry) : Option Path :=
  ((entries.zip entries.tail).find? fun (a, b) => a.path == b.path).map (·.1.path)

/-- Directories may be listed more than once. -/
def Listing.finish (l : Listing) : Except Fault (List Entry) :=
  let entries := dropRepeats (Entry.sort l.entries.reverse)
  match sharedPath? entries with
  | some p => .error (.bothKinds p)
  | none => .ok (Entry.complete entries)

def index (data : Array UInt8) : Except Fault (Std.TreeMap Path Record × List Entry) := do
  let (limit, r) ← endRecord data
  if r.disk ≠ 0 ∨ r.directoryDisk ≠ 0 then throw .multiDisk
  if r.count = word64 ∨ r.directorySize = dword64 ∨ r.directoryOffset = dword64 then throw .zip64
  let start := r.directoryOffset.toNat
  if limit < start + r.directorySize.toNat then throw .directoryBounds
  let listing ← Listing.read data limit r.count.toNat 0 start {}
  return (listing.records, ← listing.finish)

namespace Archive

variable {σ : Type}

def ofBytes (data : Bytes) (location : Bytes) : Except Error Archive :=
  let data := data.toArray
  match index data with
  | .ok (records, entries) => .ok { data, location, records, entries }
  | .error fault => .error (.format (location ++ ": " ++ fault.text))

/-! ## Files -/

/-- The stored data of a file. -/
def payload (a : Archive) (r : Record) : Except Fault Bytes :=
  match LocalHeader.decode? (slice a.data r.offset.toNat LocalHeader.length) with
  | none => .error .badLocal
  | some h =>
    let start := r.offset.toNat + LocalHeader.length + h.nameLength.toNat + h.extraLength.toNat
    if a.data.size < start + r.compressedSize.toNat then .error .dataBounds
    else .ok (slice a.data start r.compressedSize.toNat)

def content (a : Archive) (r : Record) : Except Fault Bytes := do
  if r.flags &&& flagEncrypted ≠ 0 then throw .encrypted
  let payload ← a.payload r
  let content ←
    if r.method = Method.stored then
      if r.compressedSize = r.size then pure payload else throw .storedSize
    else if r.method = Method.deflated then
      (Deflate.inflateExactly payload r.size.toNat).mapError .inflate
    else throw (.method r.method)
  if Crc32.checksum content = r.crc then return content else throw .checksum

def read (a : Archive) (p : Path) : Except Error Bytes :=
  match a.records[p]? with
  | none => .error (JarRepair.Archive.notListed a.location p)
  | some r => (a.content r).mapError fun fault => (Error.format fault.text).withEntry p

def contains (a : Archive) (p : Path) : Bool := a.records.contains p

def reader (a : Archive) : Reader σ where
  location := a.location
  entries := a.entries
  files := .ofList a.records.keys
  read p := Task.ofExcept (a.read p)

/-- Opens the zip file with this content. -/
def openBytes (data location : Bytes) : Task σ Archive := do
  let a ← Task.ofExcept (ofBytes data location)
  Task.note .debug Log.Module.archive <|
    "Opened " ++ location ++ " (" ++ Bytes.decimal a.records.size ++ " files, " ++
      Bytes.decimal a.entries.length ++ " entries)"
  return a

/-- Opens the zip file that a path names. -/
def openPath (p : Volume.Path) : Task Volume Archive := do
  match (← Task.state).read? p with
  | some data => openBytes data p
  | none => throw (.io ("cannot open " ++ p))

end Archive

end JarRepair.Zip

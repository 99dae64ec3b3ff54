import JarRepair.Volume.Operations

/-! # Output streams

A stream collects bytes and writes them when it is flushed or holds too many. It is bound to the
file it opened, by number: the file may have been moved meanwhile, and bytes for a file that is gone
are lost. -/

namespace JarRepair.Volume

inductive Stream.Mode where
  /-- Every flush writes at the end of the file. -/
  | append
  /-- The file is emptied first; flushes write one after the other from its start. -/
  | overwrite
deriving DecidableEq, Repr

structure Stream where
  number : Nat
  mode : Stream.Mode
  position : Nat := 0
  pending : Bytes := []
deriving DecidableEq, Repr

/-- Puts `new` over what follows `position`. -/
def overlay (position : Nat) (new old : Bytes) : Bytes :=
  let start := old.take position
  start ++ List.replicate (position - start.length) 0 ++ new ++ old.drop (position + new.length)

/-- Changes the content of the file with a number, wherever it is. -/
def editFile (number : Nat) (f : Bytes → Bytes) (v : Volume) : Volume :=
  { v with nodes := v.nodes.map fun _ n =>
      match n with
      | .file k content => if k = number then .file k (f content) else n
      | n => n }

namespace Stream

def open? (v : Volume) (p : Path) (mode : Mode) : Option (Stream × Volume) :=
  match v.resolve true p with
  | .ok (.found loc (.file number content)) =>
    some ({ number, mode }, v.put loc (.file number (if mode = .append then content else [])))
  | .ok (.vacant loc) => some ({ number := v.nextNumber, mode }, v.addFile loc [])
  | _ => none

def flush (s : Stream) (v : Volume) : Stream × Volume :=
  if s.pending = [] then (s, v)
  else
    let v := v.editFile s.number fun content =>
      match s.mode with
      | .append => content ++ s.pending
      | .overwrite => overlay s.position s.pending content
    ({ s with position := s.position + s.pending.length, pending := [] }, v)

/-- How many bytes a stream holds back, and from what length on a text never waits. -/
def capacity : Nat := 8191
def longText : Nat := 1024

/-- A long text goes out at once, and so does one that fills the stream, both after what is
pending. -/
def write (bs : Bytes) (s : Stream) (v : Volume) : Stream × Volume :=
  let full := min longText (capacity - s.pending.length) ≤ bs.length
  let s := { s with pending := s.pending ++ bs }
  if full then s.flush v else (s, v)

end Stream

end JarRepair.Volume

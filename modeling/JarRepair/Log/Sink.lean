import JarRepair.Log.Note
import JarRepair.Volume.Stream

/-! # Where records go -/

namespace JarRepair.Log

/-- What the standard error stream is connected to: no terminal, or one of a kind. -/
inductive Terminal where
  | none
  | attached (kind : Option Bytes)
deriving DecidableEq, Repr

/-- Colors need a terminal that names its kind and is not dumb. -/
def Terminal.hasColors : Terminal → Bool
  | .attached (some kind) => kind != "dumb"
  | _ => false

/-- Everything outside the program that a record can reach. -/
structure Outlet where
  volume : Volume := {}
  /-- What was written to the standard error stream, piece by piece. -/
  errors : Array Bytes := #[]
  captured : Array Note := #[]

def Outlet.print (text : Bytes) (o : Outlet) : Outlet := { o with errors := o.errors.push text }

inductive Sink where
  | console (colored : Bool) (format : Format)
  | file (stream : Option Volume.Stream) (format : Format)
  | capture
  | discard
deriving DecidableEq, Repr

namespace Sink

def ofTerminal (t : Terminal) (colors : Bool) (format : Format) : Sink :=
  .console (colors && t.hasColors) format

/-- A file that cannot be opened leaves a sink that drops its records. -/
def openFile (path : Bytes) (mode : Volume.Stream.Mode) (format : Format) (o : Outlet) :
    Sink × Outlet :=
  match Volume.Stream.open? o.volume path mode with
  | some (stream, volume) => (.file stream format, { o with volume })
  | none => (.file none format, o)

def isOpen : Sink → Bool
  | .file stream _ => stream.isSome
  | _ => true

def flush (s : Sink) (o : Outlet) : Sink × Outlet :=
  match s with
  | .file (some stream) format =>
    let (stream, volume) := stream.flush o.volume
    (.file stream format, { o with volume })
  | s => (s, o)

def newline : Bytes := "\n"

/-- Writes to an open file. -/
def write (bs : Bytes) (s : Sink) (o : Outlet) : Sink × Outlet :=
  match s with
  | .file (some stream) format =>
    let (stream, volume) := stream.write bs o.volume
    (.file stream format, { o with volume })
  | s => (s, o)

/-- A file gets the line and its end one after the other. Errors are flushed at once. -/
def receive (clock : Clock) (n : Note) (s : Sink) (o : Outlet) : Sink × Outlet :=
  match s with
  | .console true .text => (s, o.print (n.colored clock ++ newline))
  | .console _ format => (s, o.print (n.line format clock ++ newline))
  | .file (some _) format =>
    let (s, o) := s.write (n.line format clock) o
    let (s, o) := s.write newline o
    if Level.error ≤ n.level then s.flush o else (s, o)
  | .capture => (s, { o with captured := o.captured.push n })
  | .file none _ | .discard => (s, o)

end Sink

end JarRepair.Log

import JarRepair.Bytes

/-! # Paths on a volume

A path is its text. These functions only look at the text; what it leads to is up to the volume. -/

namespace JarRepair.Volume

abbrev Path := Bytes

namespace Path

def slash : UInt8 := Bytes.char '/'

/-- Whether the text after the last slash is non-empty. -/
def hasFilename (p : Path) : Bool :=
  match p.getLast? with
  | none => false
  | some b => b != slash

/-- The text after the last slash. -/
def filename (p : Path) : Bytes := (p.reverse.takeWhile (· != slash)).reverse

def trimSlashes (p : Path) : Path := (p.reverse.dropWhile (· == slash)).reverse

/-- Without the filename and the slashes before it; the root is its own parent. -/
def parent (p : Path) : Path :=
  if p.all (· == slash) then p
  else
    match (p.reverse.dropWhile (· != slash)).reverse with
    | [] => []
    | dir =>
      match trimSlashes dir with
      | [] => [slash]
      | dir => dir

/-- `q` seen from `p`. -/
def join (p q : Path) : Path :=
  match q with
  | [] => if hasFilename p then p ++ [slash] else p
  | b :: _ => if b = slash then q else if hasFilename p then p ++ slash :: q else p ++ q

/-- A directory is named without trailing slashes. -/
def withoutTrailingSlash (p : Path) : Path := if hasFilename p then p else parent p

/-- The names to walk through; a trailing slash asks for a directory, as `.` does. The system reads
a path up to its first zero byte. -/
def components (p : Path) : List Bytes :=
  let p := p.takeWhile (· != 0)
  let names := (Bytes.split slash p).filter (· != [])
  if hasFilename p || names == [] then names else names ++ [Bytes.ascii "."]

def isAbsolute : Path → Bool
  | [] => false
  | b :: _ => b == slash

end Path

end JarRepair.Volume

import JarRepair.ClassFile.Access
import JarRepair.Error

/-! # Entry paths

The paths of container entries are relative, separated by `/`, and have no empty component, `.` or
`..`. Directories have no trailing `/`. -/

namespace JarRepair.Archive

abbrev Path := Bytes

namespace Path

def slash : UInt8 := Bytes.char '/'
def backslash : UInt8 := Bytes.char '\\'

inductive Fault where
  | empty
  | slashAtEnd
  | backslash
  | component
deriving DecidableEq, Repr

def Fault.text (p : Path) : Fault → Bytes
  | .empty => "empty entry path"
  | .slashAtEnd => "entry path must be relative without trailing '/': " ++ p
  | .backslash => "entry path contains '\\': " ++ p
  | .component => "invalid component in entry path: " ++ p

def components (p : Path) : List Bytes := Bytes.split slash p

def isProper (component : Bytes) : Bool := component != [] && component != "." && component != ".."

/-- What is wrong with a path, if anything is. -/
def fault? (p : Path) : Option Fault :=
  if p = [] then some .empty
  else if p.head? = some slash || p.getLast? = some slash then some .slashAtEnd
  else if p.contains backslash then some .backslash
  else if p.components.all isProper then none
  else some .component

/-- The class name of a path that ends in `.class` after something else. -/
def className? (p : Path) : Option Bytes :=
  match Bytes.dropTail? p ClassFile.suffix with
  | some name => if name = [] then none else some name
  | none => none

def isClass (p : Path) : Bool := p.className?.isSome

/-- The class name of a class entry; any other path stands for itself. -/
def className (p : Path) : Bytes := p.className?.getD p

def ofClass (name : Bytes) : Path := name ++ ClassFile.suffix

/-- The parts before each `/`, the longest first. -/
def parents (p : Path) : List Path :=
  (p.foldl (fun (seen, found) b => (b :: seen, if b = slash then seen.reverse :: found else found))
    ([], [])).2

end Path

end JarRepair.Archive

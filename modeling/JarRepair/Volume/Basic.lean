import Std.Data.TreeMap
import JarRepair.Volume.Path

/-! # Volumes

A volume maps locations, the chains of names from its root, to files, directories, symbolic links
and other nodes. An absolute path is walked from the root, any other from the working directory. A
file keeps its number when it is moved or rewritten, so that an open stream can follow it. -/

namespace JarRepair

namespace Volume

abbrev Location := List Bytes

inductive Node where
  | file (number : Nat) (content : Bytes)
  | directory
  | link (target : Path)
  | special
deriving DecidableEq, Repr

/-- Why the system refuses an operation. -/
inductive Refusal where
  | notFound
  | notDirectory
  | isDirectory
  | alreadyExists
  | notEmpty
  | tooManyLinks
  | nameTooLong
  | busy
  | invalid
deriving DecidableEq, Repr

def Refusal.text : Refusal → Bytes
  | .notFound => "No such file or directory"
  | .notDirectory => "Not a directory"
  | .isDirectory => "Is a directory"
  | .alreadyExists => "File exists"
  | .notEmpty => "Directory not empty"
  | .tooManyLinks => "Too many levels of symbolic links"
  | .nameTooLong => "File name too long"
  | .busy => "Device or resource busy"
  | .invalid => "Invalid argument"

end Volume

structure Volume where
  nodes : Std.TreeMap Volume.Location Volume.Node := ∅
  nextNumber : Nat := 0
  workingDirectory : Volume.Location := []

namespace Volume

/-- Longest name and longest path in bytes, and how many links one walk may follow. -/
def maxName : Nat := 255
def maxPath : Nat := 4095
def maxLinks : Nat := 40

/-- The root is a directory. -/
def node? (v : Volume) : Location → Option Node
  | [] => some .directory
  | loc => v.nodes[loc]?

def put (loc : Location) (n : Node) (v : Volume) : Volume :=
  { v with nodes := v.nodes.insert loc n }

def addFile (loc : Location) (content : Bytes) (v : Volume) : Volume :=
  { v.put loc (.file v.nextNumber content) with nextNumber := v.nextNumber + 1 }

def erase (loc : Location) (v : Volume) : Volume := { v with nodes := v.nodes.erase loc }

/-- Erases all below a location. -/
def eraseBelow (loc : Location) (v : Volume) : Volume :=
  { v with nodes := v.nodes.filter fun l _ => l == loc || !loc.isPrefixOf l }

/-- Moves a location and all below it. -/
def moveTree (src dst : Location) (v : Volume) : Volume :=
  let moved := v.nodes.toList.filter fun (l, _) => src.isPrefixOf l
  let kept := v.nodes.filter fun l _ => !src.isPrefixOf l
  { v with nodes := kept.insertMany (moved.map fun (l, n) => (dst ++ l.drop src.length, n)) }

/-- The nodes directly below a location, by name. -/
def children (v : Volume) (loc : Location) : List (Bytes × Node) :=
  v.nodes.toList.filterMap fun (l, n) =>
    if loc.isPrefixOf l then
      match l.drop loc.length with
      | [name] => some (name, n)
      | _ => none
    else none

def isEmptyAt (v : Volume) (loc : Location) : Bool := (v.children loc).isEmpty

/-! ## Walking a path -/

/-- Where a path leads. -/
inductive Place where
  | found (loc : Location) (node : Node)
  /-- Nothing is there, but the directory to hold it is. -/
  | vacant (loc : Location)
deriving DecidableEq, Repr

/-- A walk ends or meets a link to follow before it walks the remaining names. -/
inductive Walk where
  | done (result : Except Refusal Place)
  | jump (base : Location) (target : Path) (rest : List Bytes)

/-- Walks to the end or to the next link. A link in last position is followed only if asked. -/
def advance (v : Volume) (follow : Bool) : Location → List Bytes → Walk
  | loc, [] => .done (.ok (.found loc .directory))
  | loc, name :: rest =>
    if name = "." then advance v follow loc rest
    else if name = ".." then advance v follow loc.dropLast rest
    else if name.length > maxName then .done (.error .nameTooLong)
    else
      let loc' := loc ++ [name]
      match v.node? loc' with
      | none => .done (if rest = [] then .ok (.vacant loc') else .error .notFound)
      | some .directory => advance v follow loc' rest
      | some (.link target) =>
        if rest = [] && !follow then .done (.ok (.found loc' (.link target)))
        else .jump loc target rest
      | some n => .done (if rest = [] then .ok (.found loc' n) else .error .notDirectory)

def walk (v : Volume) (follow : Bool) : Nat → Location → List Bytes → Except Refusal Place
  | links, loc, names =>
    match advance v follow loc names with
    | .done r => r
    | .jump base target rest =>
      match links with
      | 0 => .error .tooManyLinks
      | links + 1 =>
        if target = [] then .error .notFound
        else
          walk v follow links (if target.isAbsolute then [] else base) (target.components ++ rest)

def resolve (v : Volume) (follow : Bool) (p : Path) : Except Refusal Place :=
  let text : Path := p.takeWhile (· != 0)
  if text = [] then .error .notFound
  else if text.length > maxPath then .error .nameTooLong
  else v.walk follow maxLinks (if text.isAbsolute then [] else v.workingDirectory) text.components

/-! ## What a path names -/

/-- What is at the end of a path, links followed. -/
inductive Status where
  | present (loc : Location) (node : Node)
  | absent
  | unknown (why : Refusal)
deriving DecidableEq, Repr

def status (v : Volume) (p : Path) : Status :=
  match v.resolve true p with
  | .ok (.found loc n) => .present loc n
  | .ok (.vacant _) | .error .notFound | .error .notDirectory => .absent
  | .error why => .unknown why

def exist (v : Volume) (p : Path) : Bool :=
  match v.status p with
  | .present .. => true
  | _ => false

def isDirectory (v : Volume) (p : Path) : Bool :=
  match v.status p with
  | .present _ .directory => true
  | _ => false

def isFile (v : Volume) (p : Path) : Bool :=
  match v.status p with
  | .present _ (.file ..) => true
  | _ => false

/-- Whether the path names a directory with nothing in it. -/
def isEmptyDirectory (v : Volume) (p : Path) : Bool :=
  match v.status p with
  | .present loc .directory => v.isEmptyAt loc
  | _ => false

/-- Whether two paths name the same file or directory. -/
def same (v : Volume) (p q : Path) : Bool :=
  match v.status p, v.status q with
  | .present loc n, .present loc' _ => loc == loc' && n != .special
  | _, _ => false

def read? (v : Volume) (p : Path) : Option Bytes :=
  match v.status p with
  | .present _ (.file _ content) => some content
  | _ => none

end Volume

end JarRepair

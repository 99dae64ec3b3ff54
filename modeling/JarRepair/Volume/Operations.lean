import JarRepair.Task
import JarRepair.Volume.Basic

/-! # Changing a volume

Each operation returns the changed volume or says why the system refuses. Creating a chain of
directories can stop halfway; it returns what it has created together with the refusal. -/

namespace JarRepair.Volume

/-- Writes a whole file. A file that exists keeps its number. -/
def write? (v : Volume) (p : Path) (content : Bytes) : Option Volume :=
  match v.resolve true p with
  | .ok (.found loc (.file number _)) => some (v.put loc (.file number content))
  | .ok (.vacant loc) => some (v.addFile loc content)
  | _ => none

def makeDirectory (v : Volume) (p : Path) : Except Refusal Volume :=
  match v.resolve false p with
  | .ok (.vacant loc) => .ok (v.put loc .directory)
  | .ok (.found ..) => if v.isDirectory p then .ok v else .error .alreadyExists
  | .error why => .error why

/-- The longest chain of directories that is created at once. -/
def maxMissing : Nat := 1000

/-- Climbs from `p` to the nearest parent that exists, gathering the directories to create, the
outermost first. -/
def missingAbove (v : Volume) : Nat → Path → List Path → Except Refusal (List Path)
  | 0, _, missing => .ok missing
  | fuel + 1, p, missing =>
    let isDots := p.filename = "." || p.filename = ".."
    let missing := if isDots then missing else p :: missing
    let up := p.parent
    if missing.length > maxMissing then .error .nameTooLong
    else if up = [] then .ok missing
    else
      match v.status up with
      | .present _ .directory | .unknown _ => .ok missing
      | .present .. => .error .notDirectory
      | .absent => missingAbove v fuel up missing

def makeAll (v : Volume) : List Path → Except Refusal Unit × Volume
  | [] => (.ok (), v)
  | p :: ps =>
    match v.makeDirectory p with
    | .ok v => makeAll v ps
    | .error why => (.error why, v)

/-- Creates a directory and the parents it lacks. -/
def makeDirectories (v : Volume) (p : Path) : Except Refusal Unit × Volume :=
  if p = [] then (.error .invalid, v)
  else
    match v.status p with
    | .present _ .directory => (.ok (), v)
    | .present .. => (.error .notDirectory, v)
    | .unknown why => (.error why, v)
    | .absent =>
      match v.missingAbove (p.length + 1) p.withoutTrailingSlash [] with
      | .error why => (.error why, v)
      | .ok missing => v.makeAll missing

/-! ## Removing and moving -/

/-- What a path names in a directory. -/
inductive Entry where
  /-- A name, with a slash after it or not. -/
  | name (loc : Location) (slashed : Bool)
  | dot
  | dotDot
  | root
deriving DecidableEq, Repr

/-- Walks to the directory that holds what the path names. -/
def entry? (v : Volume) (p : Path) : Except Refusal Entry := do
  let text : Path := p.takeWhile (· != 0)
  if text = [] then throw .notFound
  if maxPath < text.length then throw .nameTooLong
  let q := Path.trimSlashes text
  let names := Path.components q
  let base := if text.isAbsolute then [] else v.workingDirectory
  match ← v.walk true maxLinks base (names.dropLast ++ [Bytes.ascii "."]) with
  | .vacant _ => throw .notFound
  | .found directory _ =>
    match names.getLast? with
    | none => return .root
    | some name =>
      if name = "." then return .dot
      else if name = ".." then return .dotDot
      else return .name (directory ++ [name]) (q != text)

/-- The node at a location. -/
def lookUp (v : Volume) (loc : Location) : Except Refusal (Option Node) :=
  if maxName < (loc.getLastD []).length then .error .nameTooLong else .ok (v.node? loc)

/-- Removes a node that is not a directory, or an empty directory. A slash after the name is for
directories only. -/
def remove (v : Volume) (p : Path) : Except Refusal Volume := do
  match ← v.entry? p with
  | .dot => throw .invalid
  | .dotDot => throw .notEmpty
  | .root => throw .busy
  | .name loc slashed =>
    match ← v.lookUp loc with
    | none => throw .notFound
    | some .directory => if v.isEmptyAt loc then return v.erase loc else throw .notEmpty
    | some _ => if slashed then throw .notDirectory else return v.erase loc

/-- Removes a node and all below it; nothing there is fine. What is below goes even if the node
itself has to stay. -/
def removeAll (v : Volume) (p : Path) : Except Refusal Unit × Volume :=
  match v.resolve false p with
  | .ok (.vacant _) | .error .notFound => (.ok (), v)
  | .error .nameTooLong => (.error .nameTooLong, v)
  | .ok (.found loc .directory) => removeIfThere (v.eraseBelow loc)
  | _ => removeIfThere v
where
  removeIfThere (v : Volume) : Except Refusal Unit × Volume :=
    match v.remove p with
    | .ok v => (.ok (), v)
    | .error .notFound => (.ok (), v)
    | .error why => (.error why, v)

/-- Moves a node and all below it. What was at the destination goes, unless it is a directory that
holds something. -/
def rename (v : Volume) (p q : Path) : Except Refusal Volume := do
  match ← v.entry? p, ← v.entry? q with
  | .name src slashed, .name dst slashed' =>
    let some node ← v.lookUp src | throw .notFound
    let there ← v.lookUp dst
    if node ≠ .directory && (slashed || slashed') then throw .notDirectory
    if src = dst then return v
    if src.isPrefixOf dst then throw .invalid
    if dst.isPrefixOf src then throw .notEmpty
    match node, there with
    | _, none => return v.moveTree src dst
    | .directory, some .directory =>
      if v.isEmptyAt dst then return (v.erase dst).moveTree src dst else throw .notEmpty
    | .directory, some _ => throw .notDirectory
    | _, some .directory => throw .isDirectory
    | _, some _ => return (v.erase dst).moveTree src dst
  | _, _ => throw .busy

end JarRepair.Volume

/-! ## Volumes as a part of something larger

A task on a volume is a step of a task on any state that holds one. What else happens at such a step
is up to the state: it may, for instance, bring a log up to date first. -/

namespace JarRepair

class HoldsVolume (σ : Type) where
  onVolume {α : Type} (t : Task Volume α) : Task σ α

export HoldsVolume (onVolume)

instance : HoldsVolume Volume := ⟨id⟩

end JarRepair

import JarRepair.Volume.Basic

/-! # From one volume to another

What has to be done to a volume so that it holds what another one does: removals first, then what is
new or different, a directory before what is in it. Links and special nodes are not created. -/

namespace JarRepair.Volume

inductive Change where
  | remove (loc : Location)
  | makeDirectory (loc : Location)
  | write (loc : Location) (content : Bytes)
deriving DecidableEq, Repr

/-- Whether a node can stay to become another. -/
def Node.canBecome : Node → Node → Bool
  | .directory, .directory | .file .., .file .. => true
  | a, b => a == b

/-- The locations to clear; those below them go with them. -/
def removals (v w : Volume) : List Location :=
  (v.nodes.foldl
    (fun cleared loc n =>
      if cleared.head?.any (·.isPrefixOf loc) || (w.node? loc).any n.canBecome then cleared
      else loc :: cleared)
    []).reverse

def additions (v w : Volume) : List Change :=
  w.nodes.toList.filterMap fun (loc, n) =>
    match n, v.node? loc with
    | .directory, some .directory => none
    | .directory, _ => some (.makeDirectory loc)
    | .file _ content, some (.file _ old) =>
      if content = old then none else some (.write loc content)
    | .file _ content, _ => some (.write loc content)
    | _, _ => none

def changesTo (v w : Volume) : List Change := (removals v w).map .remove ++ additions v w

end JarRepair.Volume

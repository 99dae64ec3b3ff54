import JarRepair.Repair.Cache

/-! # Ancestors

The superclasses and interfaces that can be reached from a class, and what they declare that can be
overridden. Names are visited once, so diamonds and cycles do no harm; a name that no container
resolves ends its branch. -/

namespace JarRepair.ClassFile

/-- Methods that can override and be overridden. -/
def Method.isEligible (m : Method) : Bool :=
  !Access.hasAny m.access (Access.isStatic ||| Access.isPrivate) && !m.isInitializer

end JarRepair.ClassFile

namespace JarRepair.Repair

open ClassFile (Method)

structure Survey where
  visited : Std.TreeSet Bytes
  /-- The signatures of the eligible methods of the ancestors visited so far. -/
  signatures : Std.TreeSet Bytes := ∅
  /-- The ancestors visited whose own parents have not been visited, in reverse. -/
  found : List ClassFile := []

namespace Survey

variable {σ : Type}

def addMethods (s : Survey) (c : ClassFile) : Survey :=
  { s with
  signatures := s.signatures.insertMany ((c.methods.filter (·.isEligible)).map (·.signature)) }

/-- Visits a parent of `node` unless it has been visited. -/
def visit (find : Bytes → Task σ (Option ClassFile)) (node : ClassFile) (s : Survey)
    (name : Bytes) :
    Task σ Survey := do
  if s.visited.contains name then return s
  let s := { s with visited := s.visited.insert name }
  match ← find name with
  | some c => return { s.addMethods c with found := c :: s.found }
  | none =>
    Task.note .trace Log.Module.fix <|
      "Ancestor " ++ name ++ " of " ++ node.name ++ " not found, skipping branch"
    return s

/-- Visits all parents of `node`. -/
def visitParents (find : Bytes → Task σ (Option ClassFile)) (node : ClassFile) (s : Survey) :
    Task σ Survey :=
  node.parents.foldlM (visit find node) { s with found := [] }

/-- Visits the parents of the classes in turn, and next those of the parents found. -/
def climb (find : Bytes → Task σ (Option ClassFile)) : Nat → List ClassFile → Survey → Task σ Survey
  | 0, _, s | _, [], s => return s
  | fuel + 1, node :: nodes, s => do
    let s ← visitParents find node s
    climb find fuel (s.found.reverse ++ nodes) s

/-- The signatures of all eligible methods of the ancestors of a class. -/
def signaturesAbove (find : Bytes → Task σ (Option ClassFile)) (fuel : Nat) (c : ClassFile) :
    Task σ (Std.TreeSet Bytes) := do
  let s ← climb find fuel [c] { visited := Std.TreeSet.ofList [c.name] }
  return s.signatures

end Survey

/-- The signatures of all eligible methods of the ancestors of a class. Each class on the climb but
the first was found under a name of its own, so there are fewer than `src.bound` after it. -/
def inheritedSignatures {σ : Type} (src : Sources σ) (c : ClassFile) :
    Task (Bench σ) (Std.TreeSet Bytes) :=
  Survey.signaturesAbove src.find (src.bound + 1) c

end JarRepair.Repair

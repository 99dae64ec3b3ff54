import JarRepair.ClassFile.Bridge
import JarRepair.Repair.Ancestors

/-! # Override markers

An eligible method whose signature an ancestor declares overrides it. The marker goes to the method
that the resolver names, if the class declares it, else to the method itself, and never twice. -/

namespace JarRepair

namespace ClassFile

/-- Marks the target of method `k`, which was `m`, if it overrides: what makes a method override
does not change. Returns how many markers are added. -/
def markOverride (r : Resolver) (inherited : Std.TreeSet Bytes) (k : Nat) (m : Method) :
    Task ClassFile Nat := do
  if m.isEligible && inherited.contains m.signature then
    let c ← Task.state
    Task.mapError (Error.withClass c.name) do
      let key ← r.resolve c (c.methods[k]?.getD m)
      let target := (c.methodIndex? key.name key.descriptor).getD k
      if ← addMarker target overrideType then
        Task.note .debug Log.Module.fix ("Marked " ++ c.methodName target ++ " as override")
        return 1
      else return 0
  else return 0

def markOverrides (r : Resolver) (inherited : Std.TreeSet Bytes) : Task ClassFile Nat := do
  let c ← Task.state
  c.methods.zipIdx.foldlM (fun n (m, k) => return n + (← markOverride r inherited k m)) 0

end ClassFile

namespace Repair

/-- Marks the overriding methods of a class in the cache. Returns how many markers are added. -/
def markClass {σ : Type} (src : Sources σ) (r : ClassFile.Resolver) (name : Bytes) (c : ClassFile) :
    Task (Bench σ) Nat := do
  let inherited ← Task.mapError (Error.withClass c.name) (inheritedSignatures src c)
  Bench.edit name (ClassFile.markOverrides r inherited)

end Repair

end JarRepair

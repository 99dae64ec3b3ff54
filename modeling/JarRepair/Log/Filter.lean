import Std.Data.TreeMap
import JarRepair.Log.Note

/-! # Module filters

A filter admits a record from its module's level on, and from its default level on if the module has
none of its own. A specification such as `codec=trace,cache=debug,*=warn` sets these levels. -/

namespace JarRepair.Log

structure Filter where
  defaultLevel : Level := .info
  modules : Std.TreeMap Bytes Level := ∅

namespace Filter

def levelFor (f : Filter) (module : Bytes) : Level := f.modules.getD module f.defaultLevel

def admits (f : Filter) (level : Level) (module : Bytes) : Bool := f.levelFor module ≤ level

/-- The lowest level at which some module is logged. -/
def minLevel (f : Filter) : Level := f.modules.foldl (fun least _ l => min l least) f.defaultLevel

/-- One part of a specification: `module=level`, `*=level`, or a module to log in full. -/
def refine (f : Filter) (token : Bytes) : Filter :=
  match token.cut? (Bytes.char '=') with
  | some (name, level) =>
    if name = "*" then { f with defaultLevel := .ofName level }
    else { f with modules := f.modules.insert name (.ofName level) }
  | none => if token = [] then f else { f with modules := f.modules.insert token .trace }

/-- Forgets the modules' levels and reads a specification. The default level stays unless it is
set. -/
def apply (f : Filter) (spec : Bytes) : Filter :=
  (spec.split (Bytes.char ',')).foldl refine { f with modules := ∅ }

end Filter

end JarRepair.Log

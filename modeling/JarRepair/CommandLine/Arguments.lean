import JarRepair.Log.Config
import JarRepair.Repair.Run

/-! # Arguments of the fix command

An option takes its value after `=` or from the next argument; the last one of a kind counts.
Logging flags may stand in between. -/

namespace JarRepair.CommandLine

inductive Key where
  | input
  | fallback
  | output
deriving DecidableEq, Repr

def Key.name : Key → Bytes
  | .input => "--input"
  | .fallback => "--fallback"
  | .output => "--output"

def Key.ofName? (name : Bytes) : Option Key := [.input, .fallback, .output].find? (·.name == name)

inductive Fault where
  | unknown (argument : Bytes)
  | missingValue (key : Key)
  | emptyValue (key : Key)
  | missing (key : Key)
deriving DecidableEq, Repr

def Fault.text : Fault → Bytes
  | .unknown argument => "unknown argument '" ++ argument ++ "'"
  | .missingValue key => "missing value for " ++ key.name
  | .emptyValue key => "empty value for " ++ key.name
  | .missing key => "missing " ++ key.name

/-- The values given so far. -/
structure Given where
  input : Option Bytes := none
  fallback : Option Bytes := none
  output : Option Bytes := none
deriving DecidableEq, Repr

namespace Given

def set (g : Given) (value : Bytes) : Key → Given
  | .input => { g with input := some value }
  | .fallback => { g with fallback := some value }
  | .output => { g with output := some value }

def options (g : Given) : Except Fault Repair.Options :=
  match g.input, g.output with
  | none, _ => .error (.missing .input)
  | some _, none => .error (.missing .output)
  | some input, some output => .ok { input, fallback := g.fallback, output }

end Given

/-- The name of an argument and the value it carries, which only one with two dashes can. -/
def splitValue (argument : Bytes) : Bytes × Option Bytes :=
  if (argument.dropStart? "--").isSome then
    match argument.cut? (Bytes.char '=') with
    | some (name, value) => (name, some value)
    | none => (argument, none)
  else (argument, none)

def read : List Bytes → Given → Except Fault Given
  | [], g => .ok g
  | argument :: rest, g =>
    if (Log.Flag.ofArgument? argument).isSome then read rest g
    else
      let (name, value?) := splitValue argument
      match Key.ofName? name with
      | none => .error (.unknown argument)
      | some key =>
        match value?, rest with
        | some value, rest =>
          if value = [] then .error (.emptyValue key) else read rest (g.set value key)
        | none, [] => .error (.missingValue key)
        | none, value :: rest =>
          if value = [] then .error (.emptyValue key) else read rest (g.set value key)

def parse (arguments : List Bytes) : Except Fault Repair.Options := do (← read arguments {}).options

end JarRepair.CommandLine

import JarRepair.Log.Note

/-! # Logging options

Logging flags may stand anywhere on the command line. Without one that sets a level or a filter, an
environment variable is read: a filter specification if it has a `=` or a comma, else a level. -/

namespace JarRepair.Log

structure Config where
  level : Level := .warn
  format : Format := .text
  filter : Bytes := []
  file : Bytes := []
  console : Bool := true
  colors : Bool := true
deriving DecidableEq, Repr

inductive Flag where
  | level (level : Level)
  | filter (spec : Bytes)
  | file (path : Bytes)
  | format (format : Format)
  | quiet
  /-- So many times more verbose: information, decisions, everything. -/
  | verbose (times : Nat)
deriving DecidableEq, Repr

namespace Flag

/-- `-v`, `-vv`, `-vvv`, and so on. -/
def verbosity? : Bytes → Option Nat
  | dash :: vs =>
    if dash = Bytes.char '-' && vs != [] && vs.all (· == Bytes.char 'v') then
      some vs.length
    else none
  | [] => none

def ofArgument? (arg : Bytes) : Option Flag :=
  if let some name := arg.dropStart? "--log-level=" then some (.level (.ofName name))
  else if let some spec := arg.dropStart? "--log-filter=" then some (.filter spec)
  else if let some path := arg.dropStart? "--log-file=" then some (.file path)
  else if let some name := arg.dropStart? "--log-format=" then
    some (.format (if name = "json" || name = "JSON" then .json else .text))
  else if arg = "-q" || arg = "--quiet" then some .quiet
  else if arg = "--verbose" then some (.verbose 1)
  else (verbosity? arg).map .verbose

def level? : Flag → Option Level
  | .level l => some l
  | .quiet => some .error
  | _ => none

def filter? : Flag → Option Bytes
  | .filter spec => some spec
  | _ => none

def times : Flag → Nat
  | .verbose n => n
  | _ => 0

end Flag

namespace Config

/-- The last flag of a kind decides. -/
def set (c : Config) : Flag → Config
  | .level l => { c with level := l }
  | .quiet => { c with level := .error }
  | .filter spec => { c with filter := spec }
  | .file path => { c with file := path }
  | .format format => { c with format }
  | .verbose _ => c

def verboseLevel : Nat → Level
  | 0 => .warn
  | 1 => .info
  | 2 => .debug
  | _ => .trace

def ofEnvironment (c : Config) (value : Bytes) : Config :=
  if value = [] then c
  else if value.contains (Bytes.char '=') || value.contains (Bytes.char ',') then
    { c with filter := value }
  else { c with level := .ofName value }

/-- A level flag goes before the verbosity, and both before the environment. -/
def ofArguments (args : List Bytes) (environment : Option Bytes) : Config :=
  let flags := args.filterMap Flag.ofArgument?
  let c := flags.foldl set {}
  let times := (flags.map Flag.times).foldl max 0
  if flags.any (·.level?.isSome) then c
  else if times > 0 then { c with level := verboseLevel times }
  else if flags.any (·.filter?.isSome) then c
  else c.ofEnvironment (environment.getD [])

end Config

end JarRepair.Log

import JarRepair.CommandLine.Arguments
import JarRepair.Log.Logger

/-! # The program

From arguments, environment and volume to exit code, output and the changed volume. -/

namespace JarRepair.CommandLine

open Log (Logger Outlet)

def version : Bytes := "0.3.1"

def versionLine : Bytes := "jarfix " ++ version ++ "\n"

def usage : Bytes :=
  versionLine ++ "\n" ++
  "Usage: jarfix <command> [options]\n\n" ++
  "Commands:\n" ++
  "  fix       Realign parameter annotations and restore @Override markers\n" ++
  "\nfix options:\n" ++
  "  --input <jar>       Archive to fix (jar, zip or directory)\n" ++
  "  --fallback <jar>    Read-only archive used to resolve ancestors\n" ++
  "  --output <jar>      Archive to write (replaced if it exists)\n" ++
  "\nOptions:\n" ++
  "  --help, -h          Show this help\n" ++
  "  --version, -V       Show version\n" ++
  "  -v, -vv, -vvv       Log at info, debug or trace level\n" ++
  "  -q, --quiet         Log errors only\n" ++
  "  --log-level=LEVEL   trace, debug, info, warn, error, fatal, off\n" ++
  "  --log-filter=SPEC   Per-module levels, e.g. fix=debug,*=warn\n" ++
  "  --log-file=PATH     Also write logs to PATH\n" ++
  "  --log-format=FMT    text or json\n" ++
  "\nEnvironment:\n" ++
  "  JARFIX_LOG          Level or filter used when no log flag is given\n"

def fixUsage : Bytes := "Usage: jarfix fix --input <jar> [--fallback <jar>] --output <jar>\n"

structure Environment where
  /-- The value of the variable that sets up the log. -/
  log : Option Bytes := none
  terminal : Log.Terminal := .none
  clock : Log.Clock

structure Outcome where
  exitCode : Nat
  output : Bytes := []
  outlet : Outlet

/-- A run into a directory has no digest. -/
def digestLine (digest : Bytes) : Bytes :=
  if digest = [] then [] else "output:                 " ++ digest ++ "\n"

open Bytes in
def summaryLines (r : Repair.Report) : Bytes :=
  let s := r.summary
  "classes:                " ++ decimal s.classes ++ "\n" ++
  "resources:              " ++ decimal s.resources ++ "\n" ++
  "directories:            " ++ decimal s.directories ++ "\n" ++
  "constructors realigned: " ++ decimal s.realigned ++ "\n" ++
  "override markers added: " ++ decimal s.marked ++ "\n" ++
  "classes resolved:       " ++ decimal r.cache.decoded ++ " (" ++ decimal r.cache.unresolved ++
    " unresolved, " ++ decimal r.cache.hits ++ " cache hits)\n" ++ digestLine r.digest

/-- The paths of a run, for those who want to know more. -/
def optionLines (o : Repair.Options) : Bytes :=
  "input:    " ++ o.input ++ "\nfallback: " ++ o.fallback.getD "(none)" ++
    "\noutput:   " ++ o.output ++ "\n"

def verboseFlags : List Bytes := ["--verbose", "-v", "-vv", "-vvv"]

/-- Runs the fix command. The log is flushed before an error is reported. -/
def fix (env : Environment) (arguments : List Bytes) (g : Logger) (o : Outlet) : Outcome :=
  match parse arguments with
  | .error fault =>
    { exitCode := 1, outlet := o.print ("error: " ++ fault.text ++ "\n" ++ fixUsage) }
  | .ok options =>
    let o := if arguments.any verboseFlags.contains then o.print (optionLines options) else o
    let (result, traced) := (Repair.run options).runOn
      ({ clock := env.clock, logger := g, outlet := o } : Log.Journal)
    let o := (traced.state.record traced.notes).flush.outlet
    match result with
    | .error e => { exitCode := 1, outlet := o.print ("error: " ++ e.text ++ "\n") }
    | .ok report => { exitCode := 0, output := summaryLines report, outlet := o }

def run (env : Environment) (arguments : List Bytes) (v : Volume) : Outcome :=
  match arguments with
  | [] => { exitCode := 0, output := usage, outlet := { volume := v } }
  | command :: rest =>
    let config := Log.Config.ofArguments arguments env.log
    let (g, o) := Logger.configure config env.terminal {} { volume := v }
    if command = "--help" || command = "-h" then { exitCode := 0, output := usage, outlet := o }
    else if command = "--version" || command = "-V" then
      { exitCode := 0, output := versionLine, outlet := o }
    else if command = "fix" then fix env rest g o
    else
      { exitCode := 1
        outlet := o.print ("Unknown command: " ++ command ++ "\nRun 'jarfix --help' for usage.\n") }

end JarRepair.CommandLine

import JarRepair.Log.Config
import JarRepair.Log.Filter
import JarRepair.Log.Sink

/-! # The logger

A logger hands each record that its filter admits to its sinks. `level` is the least level that is
admitted at all. -/

namespace JarRepair.Log

structure Logger where
  level : Level := .warn
  filter : Filter := { defaultLevel := .warn }
  sinks : List Sink := []

namespace Logger

def admits (g : Logger) (level : Level) (module : Bytes) : Bool :=
  g.level ≤ level && g.filter.admits level module

def setLevel (g : Logger) (level : Level) : Logger :=
  { g with level, filter := { g.filter with defaultLevel := level } }

def setFilter (g : Logger) (spec : Bytes) : Logger :=
  let filter := g.filter.apply spec
  { g with filter, level := filter.minLevel }

/-- Without a specification the level is the filter's default, and modules keep their levels. With
one, the level lowers the default. -/
def setThresholds (g : Logger) (level : Level) (spec : Bytes) : Logger :=
  if spec = [] then g.setLevel level
  else
    let filter := g.filter.apply spec
    let filter :=
      if level < filter.defaultLevel then { filter with defaultLevel := level } else filter
    { g with filter, level := filter.minLevel }

/-- Runs an action of the sinks one after the other. -/
def eachSink (f : Sink → Outlet → Sink × Outlet) (g : Logger) (o : Outlet) : Logger × Outlet :=
  let (sinks, o) := g.sinks.foldl (fun (done, o) s => let (s, o) := f s o; (s :: done, o)) ([], o)
  ({ g with sinks := sinks.reverse }, o)

def flush : Logger → Outlet → Logger × Outlet := eachSink Sink.flush

def addSink (g : Logger) (s : Sink) : Logger := { g with sinks := g.sinks ++ [s] }

/-- Sinks are flushed when they are dropped. -/
def clear (g : Logger) (o : Outlet) : Logger × Outlet :=
  let (g, o) := g.flush o
  ({ g with sinks := [] }, o)

def configure (c : Config) (terminal : Terminal) (g : Logger) (o : Outlet) : Logger × Outlet :=
  let (g, o) := g.clear o
  let g := g.setThresholds c.level c.filter
  let g := if c.console then g.addSink (.ofTerminal terminal c.colors c.format) else g
  if c.file = [] then (g, o)
  else
    let (sink, o) := Sink.openFile c.file .append c.format o
    if sink.isOpen then (g.addSink sink, o)
    else (g, o.print ("warning: could not open log file: " ++ c.file ++ "\n"))

def log (clock : Clock) (n : Note) : Logger → Outlet → Logger × Outlet :=
  eachSink (Sink.receive clock n)

/-- Logs a record if it is admitted. What lies below the levels is left out whatever is admitted. -/
def emit (clock : Clock) (n : Note) (g : Logger) (o : Outlet) : Logger × Outlet :=
  if Level.trace ≤ n.level && g.admits n.level n.module then g.log clock n o else (g, o)

def emitAll (clock : Clock) (notes : List Note) (g : Logger) (o : Outlet) : Logger × Outlet :=
  notes.foldl (fun (g, o) n => g.emit clock n o) (g, o)

end Logger

/-! ## Logging during a task

A task leaves notes. A journal hands them to its logger no later than at the next step on the
volume, so that such a step finds in the log files what was noted before it. -/

structure Journal where
  clock : Clock
  logger : Logger
  outlet : Outlet

namespace Journal

def record (notes : Array Note) (j : Journal) : Journal :=
  let (logger, outlet) := j.logger.emitAll j.clock notes.toList j.outlet
  { j with logger, outlet }

def flush (j : Journal) : Journal :=
  let (logger, outlet) := j.logger.flush j.outlet
  { j with logger, outlet }

instance : HoldsVolume Journal where
  onVolume t := fun s =>
    let j := s.state.record s.notes
    let (r, t) := t.runOn j.outlet.volume
    (r, { state := { j with outlet.volume := t.state }, notes := t.notes })

end Journal

end JarRepair.Log

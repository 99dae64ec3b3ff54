import JarRepair.Bytes

/-! # Severity of log records -/

namespace JarRepair.Log

/-- Levels are ordered by a number; the named ones are 0 to 6. -/
structure Level where
  severity : Int
deriving DecidableEq, Repr

namespace Level

def trace : Level := ⟨0⟩
def debug : Level := ⟨1⟩
def info : Level := ⟨2⟩
def warn : Level := ⟨3⟩
def error : Level := ⟨4⟩
def fatal : Level := ⟨5⟩
def off : Level := ⟨6⟩

instance : LE Level := ⟨fun a b => a.severity ≤ b.severity⟩
instance : LT Level := ⟨fun a b => a.severity < b.severity⟩
instance (a b : Level) : Decidable (a ≤ b) := inferInstanceAs (Decidable (a.severity ≤ b.severity))
instance (a b : Level) : Decidable (a < b) := inferInstanceAs (Decidable (a.severity < b.severity))
instance : Min Level := minOfLe

/-- Each level with its name in capital and in small letters. -/
def names : List (Level × Bytes × Bytes) :=
  [(trace, "TRACE", "trace"), (debug, "DEBUG", "debug"), (info, "INFO", "info"),
    (warn, "WARN", "warn"), (error, "ERROR", "error"), (fatal, "FATAL", "fatal"),
    (off, "OFF", "off")]

def name (l : Level) : Bytes := ((names.lookup l).map Prod.fst).getD "???"

/-- A word that names no level means `info`. -/
def ofName (word : Bytes) : Level :=
  ((names.find? fun (_, capital, small) => word = capital || word = small).map Prod.fst).getD info

end Level

end JarRepair.Log

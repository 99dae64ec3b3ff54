import JarRepair.Log.Level

/-! # Log records and their lines

A note is what a component has to say; a line of text or JSON is how a sink writes it down. -/

namespace JarRepair.Log

structure Note where
  level : Level
  module : Bytes
  message : Bytes
deriving DecidableEq, Repr

/-- The time of a record: the time of day as text and milliseconds since the epoch. -/
structure Clock where
  timeOfDay : Bytes
  millis : Int
deriving DecidableEq, Repr

inductive Format where
  | text
  | json
deriving DecidableEq, Repr

namespace Note

def labelWidth : Nat := 5

def label (n : Note) : Bytes := n.level.name.padRight labelWidth

/-- The text line, with the level name between `before` and `after`. -/
def textWith (before after : Bytes) (clock : Clock) (n : Note) : Bytes :=
  clock.timeOfDay ++ " " ++ before ++ n.label ++ after ++ " [" ++ n.module ++ "] " ++ n.message

def text : Clock → Note → Bytes := textWith [] []

/-- The escapes of a JSON string that are written with a letter, a quote or a backslash. -/
def escape (b : UInt8) : Bytes :=
  if b = Bytes.char '"' then "\\\""
  else if b = Bytes.char '\\' then "\\\\"
  else if b = Bytes.char '\n' then "\\n"
  else if b = Bytes.char '\r' then "\\r"
  else if b = Bytes.char '\t' then "\\t"
  else [b]

def json (clock : Clock) (n : Note) : Bytes :=
  "\x7b\"ts\":" ++ Bytes.decimalInt clock.millis ++ ",\"level\":\"" ++ n.level.name ++
    "\",\"module\":\"" ++ n.module ++ "\",\"msg\":\"" ++ n.message.flatMap escape ++ "\"\x7d"

/-- The escape sequence that colors a level on a terminal. -/
def color (l : Level) : Bytes :=
  if l = .trace then "\x1b[90m"
  else if l = .debug then "\x1b[36m"
  else if l = .info then "\x1b[32m"
  else if l = .warn then "\x1b[33m"
  else if l = .error then "\x1b[31m"
  else if l = .fatal then "\x1b[1;31m"
  else []

def colored (clock : Clock) (n : Note) : Bytes := textWith (color n.level) "\x1b[0m" clock n

def line : Format → Clock → Note → Bytes
  | .text => text
  | .json => json

end Note

/-! ## The components that write records -/

namespace Module

def codec : Bytes := "codec"
def archive : Bytes := "archive"
def cache : Bytes := "cache"
def fix : Bytes := "fix"
def pipeline : Bytes := "pipeline"

end Module

end JarRepair.Log

import JarRepair.Bytes

/-! # Errors that end a run

An error says what failed and, when known, in which container entry and in which class. The place
recorded first stays: it is the innermost one. -/

namespace JarRepair

inductive Error.Kind where
  /-- A malformed class file or container. -/
  | format
  /-- An entry that is known to exist could not be resolved. -/
  | internal
  /-- A file could not be opened, read or written. -/
  | io
deriving DecidableEq, Repr

def Error.Kind.name : Error.Kind → Bytes
  | .format => "format error"
  | .internal => "internal consistency error"
  | .io => "I/O error"

structure Error where
  kind : Error.Kind
  message : Bytes
  entry : Bytes := []
  className : Bytes := []
deriving DecidableEq, Repr

namespace Error

def format (message : Bytes) : Error := { kind := .format, message }
def internal (message : Bytes) : Error := { kind := .internal, message }
def io (message : Bytes) : Error := { kind := .io, message }

def withEntry (path : Bytes) (e : Error) : Error :=
  if e.entry = [] then { e with entry := path } else e

def withClass (name : Bytes) (e : Error) : Error :=
  if e.className = [] then { e with className := name } else e

def places (e : Error) : List Bytes :=
  (if e.entry = [] then [] else ["entry " ++ e.entry]) ++
    if e.className = [] then [] else ["class " ++ e.className]

/-- One line: kind, message and, in parentheses, the places known. -/
def text (e : Error) : Bytes :=
  let head : Bytes := e.kind.name ++ ": " ++ e.message
  match e.places with
  | [] => head
  | places => head ++ " (" ++ (Bytes.ascii ", ").intercalate places ++ ")"

@[simp] theorem kind_withEntry (p : Bytes) (e : Error) : (e.withEntry p).kind = e.kind := by
  unfold withEntry; split <;> rfl
@[simp] theorem kind_withClass (n : Bytes) (e : Error) : (e.withClass n).kind = e.kind := by
  unfold withClass; split <;> rfl
@[simp] theorem message_withEntry (p : Bytes) (e : Error) :
    (e.withEntry p).message = e.message := by
  unfold withEntry; split <;> rfl
@[simp] theorem message_withClass (n : Bytes) (e : Error) :
    (e.withClass n).message = e.message := by
  unfold withClass; split <;> rfl

end Error

end JarRepair

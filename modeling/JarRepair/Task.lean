import JarRepair.Error
import JarRepair.Log.Note

/-! # Tasks

A task works on a state, leaves notes for the log, and may end with an error. What it has done to
the state before the error stays done. -/

namespace JarRepair

structure Traced (σ : Type) where
  state : σ
  notes : Array Log.Note := #[]

abbrev Task (σ : Type) := ExceptT Error (StateM (Traced σ))

namespace Task

variable {σ τ α : Type}

def note (level : Log.Level) (module message : Bytes) : Task σ Unit :=
  modify fun t => { t with notes := t.notes.push { level, module, message } }

def state : Task σ σ := do return (← get).state

def setState (s : σ) : Task σ Unit := modify fun t => { t with state := s }

def modifyState (f : σ → σ) : Task σ Unit := modify fun t => { t with state := f t.state }

def ofExcept (x : Except Error α) : Task σ α := ExceptT.mk (pure x)

/-- Completes the error of a task, which stays failed. -/
def mapError (f : Error → Error) (t : Task σ α) : Task σ α := fun s =>
  let (r, s) := t s
  (r.mapError f, s)

/-- Runs a task on a part of the state. -/
def focus (part : σ → τ) (put : τ → σ → σ) (t : Task τ α) : Task σ α := fun s =>
  let (r, s') := t { state := part s.state, notes := s.notes }
  (r, { state := put s'.state s.state, notes := s'.notes })

/-- An operation that changes the state and may fail after that. -/
def ofStep (f : σ → Except Error α × σ) : Task σ α := fun s =>
  let (r, state) := f s.state
  (r, { s with state })

def runOn (t : Task σ α) (s : σ) : Except Error α × Traced σ := t { state := s }

end Task

end JarRepair

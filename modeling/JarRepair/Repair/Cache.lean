import JarRepair.Archive.Access
import JarRepair.ClassFile.Marker

/-! # Class lookup

A class is looked up by name in the primary container, then in the fallback. Both outcomes are
remembered, a class or that there is none; later edits of a class are seen by all who look it up. A
class that cannot be read or decoded is not remembered. -/

namespace JarRepair.Repair

open Archive (Reader)

structure Cache where
  slots : Std.TreeMap Bytes (Option ClassFile) := ∅
  hits : Nat := 0
  misses : Nat := 0
  decoded : Nat := 0
  unresolved : Nat := 0

structure Cache.Stats where
  total : Nat
  hits : Nat
  misses : Nat
  decoded : Nat
  unresolved : Nat
deriving DecidableEq, Repr

def Cache.stats (c : Cache) : Stats where
  total := c.slots.size
  hits := c.hits
  misses := c.misses
  decoded := c.decoded
  unresolved := c.unresolved

/-- The containers in which classes are looked up. -/
structure Sources (σ : Type) where
  primary : Reader σ
  fallback : Option (Reader σ) := none

/-- What a repair works on: the classes seen so far and the world that the containers live in. -/
structure Bench (σ : Type) where
  world : σ
  cache : Cache := {}

namespace Bench

variable {σ α : Type}

def inWorld (t : Task σ α) : Task (Bench σ) α := t.focus world fun w b => { b with world := w }

def modifyCache (f : Cache → Cache) : Task (Bench σ) Unit :=
  Task.modifyState fun b => { b with cache := f b.cache }

def class? (b : Bench σ) (name : Bytes) : Option ClassFile := b.cache.slots[name]?.join

/-- Edits the class that is remembered under a name. -/
def edit (name : Bytes) (t : Task ClassFile α) : Task (Bench σ) α :=
  t.focus (fun b => (b.class? name).getD {})
    fun c b => { b with cache.slots := b.cache.slots.insert name (some c) }

end Bench

namespace Sources

variable {σ : Type}

/-- The container to take a class file from. -/
def holder? (src : Sources σ) (p : Archive.Path) : Option (Reader σ) :=
  if src.primary.contains p then some src.primary else src.fallback.filter (·.contains p)

/-- More than the number of classes that can be found. -/
def bound (src : Sources σ) : Nat :=
  src.primary.files.size + (src.fallback.map fun r => r.files.size).getD 0 + 1

def load (src : Sources σ) (name : Bytes) : Task (Bench σ) (Option ClassFile) := do
  let path := Archive.Path.ofClass name
  match src.holder? path with
  | none => return none
  | some reader =>
    let c ← Task.mapError (fun e => (e.withEntry path).withClass name) do
      ClassFile.load (← Bench.inWorld (reader.read path))
    Bench.modifyCache fun cache => { cache with decoded := cache.decoded + 1 }
    if c.name ≠ name then
      Task.note .warn Log.Module.cache <|
        reader.location ++ ": entry " ++ path ++ " declares class " ++ c.name
    Task.note .trace Log.Module.cache ("Decoded " ++ name ++ " from " ++ reader.location)
    return some c

/-- The class of a name, if some container has it. -/
def find (src : Sources σ) (name : Bytes) : Task (Bench σ) (Option ClassFile) := do
  match (← Task.state).cache.slots[name]? with
  | some slot =>
    Bench.modifyCache fun cache => { cache with hits := cache.hits + 1 }
    return slot
  | none =>
    Bench.modifyCache fun cache => { cache with misses := cache.misses + 1 }
    let found ← src.load name
    if found.isNone then
      Bench.modifyCache fun cache => { cache with unresolved := cache.unresolved + 1 }
      Task.note .trace Log.Module.cache ("Unresolved class " ++ name)
    Bench.modifyCache fun cache => { cache with slots := cache.slots.insert name found }
    return found

end Sources

end JarRepair.Repair

import JarRepair.ClassFile.Fault

/-! # Reading class-file data

A parser consumes bytes from the front of the data and may fail with a fault. -/

namespace JarRepair.ClassFile

structure Cursor where
  /-- How many bytes have been consumed. -/
  offset : Nat := 0
  rest : Bytes
deriving DecidableEq, Repr

abbrev Parser (ε : Type) := StateT Cursor (Except ε)

namespace Parser

variable {ε ε' α : Type}

def mapError (f : ε → ε') (p : Parser ε α) : Parser ε' α := fun c => (p c).mapError f

def byte : Parser Fault UInt8 := fun c =>
  match c.rest with
  | b :: rest => .ok (b, ⟨c.offset + 1, rest⟩)
  | [] => .error (.endOfData c.offset)

def word : Parser Fault UInt16 := fun c =>
  match c.rest with
  | hi :: lo :: rest => .ok (wordOf hi lo, ⟨c.offset + 2, rest⟩)
  | _ => .error (.endOfData c.offset)

def dword : Parser Fault UInt32 := fun c =>
  match c.rest with
  | b₀ :: b₁ :: b₂ :: b₃ :: rest => .ok (dwordOf b₀ b₁ b₂ b₃, ⟨c.offset + 4, rest⟩)
  | _ => .error (.endOfData c.offset)

def bytes (n : Nat) : Parser Fault Bytes := fun c =>
  if Bytes.atLeast n c.rest then .ok (c.rest.take n, ⟨c.offset + n, c.rest.drop n⟩)
  else .error (.pastEnd n c.offset)

def skip (n : Nat) : Parser Fault Unit := fun c =>
  if Bytes.atLeast n c.rest then .ok ((), ⟨c.offset + n, c.rest.drop n⟩)
  else .error (.pastEnd n c.offset)

/-- Runs a parser `n` times and puts the results in front of `found`, the last one first. -/
def timesOnto (p : Parser ε α) : Nat → (found : List α) → Parser ε (List α)
  | 0, found => pure found
  | n + 1, found => fun c =>
    match p c with
    | .ok (x, c) => timesOnto p n (x :: found) c
    | .error e => .error e

/-- The results of `n` runs, in order. -/
def times (n : Nat) (p : Parser ε α) : Parser ε (List α) := List.reverse <$> timesOnto p n []

def skipTimes (p : Parser ε Unit) : Nat → Parser ε Unit
  | 0 => pure ()
  | n + 1 => fun c =>
    match p c with
    | .ok (_, c) => skipTimes p n c
    | .error e => .error e

/-- What a parser consumed, beside its result. -/
def withSource (p : Parser ε α) : Parser ε (α × Bytes) := fun c =>
  match p c with
  | .ok (x, c') => .ok ((x, c.rest.take (c'.offset - c.offset)), c')
  | .error e => .error e

/-- Reads the content of an attribute, to its end. -/
def whole (p : Parser Fault α) (info : Bytes) : Except Fault α :=
  match p { rest := info } with
  | .ok (x, c) => if c.rest = [] then .ok x else .error .lengthMismatch
  | .error e => .error e

end Parser

end JarRepair.ClassFile

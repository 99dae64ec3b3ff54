/-! # Byte strings

Names, messages, paths and file contents are all strings of bytes. A string literal stands for the
bytes of its (ASCII) characters. -/

namespace JarRepair

abbrev Bytes := List UInt8

namespace Bytes

def ascii (s : String) : Bytes := s.toList.map fun c => c.toNat.toUInt8

instance : Coe String Bytes := ⟨ascii⟩

def char (c : Char) : UInt8 := c.toNat.toUInt8

def decimal (n : Nat) : Bytes := (Nat.toDigits 10 n).map char

def decimalInt (n : Int) : Bytes :=
  if n < 0 then char '-' :: decimal n.natAbs else decimal n.toNat

/-- Byte strings are ordered byte by byte, a shorter one before its extensions. -/
def le (a b : Bytes) : Bool := (compare a b).isLE

/-- The bytes up to the first `sep` and those after it, if there is a `sep`. -/
def cut? (sep : UInt8) (bs : Bytes) : Option (Bytes × Bytes) :=
  match bs.dropWhile (· != sep) with
  | [] => none
  | _ :: rest => some (bs.takeWhile (· != sep), rest)

/-- The parts between separators: one more than there are separators. -/
def split (sep : UInt8) (bs : Bytes) : List Bytes :=
  bs.foldr (fun b parts => if b = sep then [] :: parts else
    match parts with
    | [] => [[b]]
    | part :: parts => (b :: part) :: parts) [[]]

/-- The rest of `bs` after a leading `start`. -/
def dropStart? : (bs start : Bytes) → Option Bytes
  | bs, [] => some bs
  | [], _ :: _ => none
  | b :: bs, s :: ss => if s = b then dropStart? bs ss else none

/-- The part of `bs` before a closing `tail`. -/
def dropTail? (bs tail : Bytes) : Option Bytes :=
  (dropStart? bs.reverse tail.reverse).map List.reverse

def padRight (width : Nat) (bs : Bytes) : Bytes :=
  bs ++ List.replicate (width - bs.length) (char ' ')

/-- Whether at least `n` bytes are left; looks at no more than `n` of them. -/
def atLeast : Nat → Bytes → Bool
  | 0, _ => true
  | _ + 1, [] => false
  | n + 1, _ :: bs => atLeast n bs

theorem atLeast_iff {n : Nat} {bs : Bytes} : atLeast n bs = true ↔ n ≤ bs.length := by
  induction n generalizing bs with
  | zero => simp [atLeast]
  | succ n ih => cases bs <;> simp [atLeast, ih]

@[simp] theorem split_nil (sep : UInt8) : split sep [] = [[]] := rfl

@[simp] theorem split_sep (sep : UInt8) (bs : Bytes) :
    split sep (sep :: bs) = [] :: split sep bs := by
  simp [split]

theorem split_ne_nil (sep : UInt8) (bs : Bytes) : split sep bs ≠ [] := by
  cases bs with
  | nil => simp
  | cons b bs => rw [split, List.foldr_cons]; split <;> (try split) <;> simp

theorem dropStart?_append (start rest : Bytes) : dropStart? (start ++ rest) start = some rest := by
  induction start with
  | nil => simp [dropStart?]
  | cons s ss ih => simp [dropStart?, ih]

theorem eq_append_of_dropStart? {start bs rest : Bytes} (h : dropStart? bs start = some rest) :
    bs = start ++ rest := by
  fun_induction dropStart? bs start with
  | case1 => simp_all
  | case2 => simp at h
  | case3 bs s ss ih => simp [ih h]
  | case4 => simp at h

end Bytes

/-! ## Big-endian words -/

def Bytes.word (v : UInt16) : Bytes := [(v.toNat / 256).toUInt8, (v.toNat % 256).toUInt8]

def Bytes.dword (v : UInt32) : Bytes :=
  [(v.toNat / 16777216).toUInt8, (v.toNat / 65536 % 256).toUInt8, (v.toNat / 256 % 256).toUInt8,
    (v.toNat % 256).toUInt8]

def wordOf (hi lo : UInt8) : UInt16 := (hi.toNat * 256 + lo.toNat).toUInt16

def dwordOf (a b c d : UInt8) : UInt32 :=
  (((a.toNat * 256 + b.toNat) * 256 + c.toNat) * 256 + d.toNat).toUInt32

/-- The word at an offset; bytes beyond the end count as zero. -/
def Bytes.wordAt (bs : Bytes) (offset : Nat) : UInt16 :=
  wordOf (bs.getD offset 0) (bs.getD (offset + 1) 0)

end JarRepair

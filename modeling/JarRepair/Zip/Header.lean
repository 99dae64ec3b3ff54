import JarRepair.Bytes

/-! # Zip headers

The fixed parts of a zip file: local headers before the data, central headers in the directory, and
the record at its end. Numbers are little-endian. -/

namespace JarRepair.Zip

def word (v : UInt16) : Bytes := (Bytes.word v).reverse

def dword (v : UInt32) : Bytes := (Bytes.dword v).reverse

def wordAt (bs : Bytes) (i : Nat) : UInt16 := wordOf (bs.getD (i + 1) 0) (bs.getD i 0)

def dwordAt (bs : Bytes) (i : Nat) : UInt32 :=
  dwordOf (bs.getD (i + 3) 0) (bs.getD (i + 2) 0) (bs.getD (i + 1) 0) (bs.getD i 0)

/-! ## Fixed values -/

namespace Method

def stored : UInt16 := 0
def deflated : UInt16 := 8

/-- The version of the format that is needed to read an entry. -/
def version (method : UInt16) : UInt16 := if method = deflated then 20 else 10

end Method

def flagEncrypted : UInt16 := 0x0001
def flagUtf8 : UInt16 := 0x0800

/-- Version 2.0, with the attributes of MS-DOS. -/
def madeBy : UInt16 := 20

/-- Midnight of 1 January 1980: entries carry no time of their own. -/
def time : UInt16 := 0
def date : UInt16 := 0x21

def directoryAttribute : UInt32 := 0x10

/-- Values that stand for a larger one in a record of another kind. -/
def word64 : UInt16 := 0xFFFF
def dword64 : UInt32 := 0xFFFFFFFF

/-! ## Local headers -/

structure LocalHeader where
  version : UInt16
  flags : UInt16
  method : UInt16
  time : UInt16
  date : UInt16
  crc : UInt32
  compressedSize : UInt32
  size : UInt32
  nameLength : UInt16
  extraLength : UInt16
deriving DecidableEq, Repr

namespace LocalHeader

def signature : UInt32 := 0x04034b50
def length : Nat := 30

def encode (h : LocalHeader) : Bytes :=
  dword signature ++ word h.version ++ word h.flags ++ word h.method ++ word h.time ++
    word h.date ++ dword h.crc ++ dword h.compressedSize ++ dword h.size ++ word h.nameLength ++
    word h.extraLength

def decode? (bs : Bytes) : Option LocalHeader :=
  if bs.length = length ∧ dwordAt bs 0 = signature then
    some {
      version := wordAt bs 4
      flags := wordAt bs 6
      method := wordAt bs 8
      time := wordAt bs 10
      date := wordAt bs 12
      crc := dwordAt bs 14
      compressedSize := dwordAt bs 18
      size := dwordAt bs 22
      nameLength := wordAt bs 26
      extraLength := wordAt bs 28 }
  else none

end LocalHeader

/-! ## Central headers -/

structure CentralHeader where
  madeBy : UInt16
  version : UInt16
  flags : UInt16
  method : UInt16
  time : UInt16
  date : UInt16
  crc : UInt32
  compressedSize : UInt32
  size : UInt32
  nameLength : UInt16
  extraLength : UInt16
  commentLength : UInt16
  disk : UInt16
  internal : UInt16
  external : UInt32
  offset : UInt32
deriving DecidableEq, Repr

namespace CentralHeader

def signature : UInt32 := 0x02014b50
def length : Nat := 46

def encode (h : CentralHeader) : Bytes :=
  dword signature ++ word h.madeBy ++ word h.version ++ word h.flags ++ word h.method ++
    word h.time ++ word h.date ++ dword h.crc ++ dword h.compressedSize ++ dword h.size ++
    word h.nameLength ++ word h.extraLength ++ word h.commentLength ++ word h.disk ++
    word h.internal ++ dword h.external ++ dword h.offset

def decode? (bs : Bytes) : Option CentralHeader :=
  if bs.length = length ∧ dwordAt bs 0 = signature then
    some {
      madeBy := wordAt bs 4
      version := wordAt bs 6
      flags := wordAt bs 8
      method := wordAt bs 10
      time := wordAt bs 12
      date := wordAt bs 14
      crc := dwordAt bs 16
      compressedSize := dwordAt bs 20
      size := dwordAt bs 24
      nameLength := wordAt bs 28
      extraLength := wordAt bs 30
      commentLength := wordAt bs 32
      disk := wordAt bs 34
      internal := wordAt bs 36
      external := dwordAt bs 38
      offset := dwordAt bs 42 }
  else none

/-- How many bytes follow the header before the next one. -/
def trailer (h : CentralHeader) : Nat :=
  h.nameLength.toNat + h.extraLength.toNat + h.commentLength.toNat

end CentralHeader

/-! ## The end record -/

structure EndRecord where
  disk : UInt16
  directoryDisk : UInt16
  diskCount : UInt16
  count : UInt16
  directorySize : UInt32
  directoryOffset : UInt32
  commentLength : UInt16
deriving DecidableEq, Repr

namespace EndRecord

def signature : UInt32 := 0x06054b50
def length : Nat := 22
def maxComment : Nat := 65535

def encode (r : EndRecord) : Bytes :=
  dword signature ++ word r.disk ++ word r.directoryDisk ++ word r.diskCount ++ word r.count ++
    dword r.directorySize ++ dword r.directoryOffset ++ word r.commentLength

def decode? (bs : Bytes) : Option EndRecord :=
  if bs.length = length ∧ dwordAt bs 0 = signature then
    some {
      disk := wordAt bs 4
      directoryDisk := wordAt bs 6
      diskCount := wordAt bs 8
      count := wordAt bs 10
      directorySize := dwordAt bs 12
      directoryOffset := dwordAt bs 16
      commentLength := wordAt bs 20 }
  else none

end EndRecord

end JarRepair.Zip

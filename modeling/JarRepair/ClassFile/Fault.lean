import JarRepair.ClassFile.Descriptor
import JarRepair.Error

/-! # What can be wrong with a class file -/

namespace JarRepair.ClassFile

inductive Fault where
  | endOfData (offset : Nat)
  | pastEnd (length offset : Nat)
  | badMagic
  | emptyPool
  | unknownTag (tag : UInt8) (index : UInt16)
  /-- A long or double constant in the last slot. -/
  | halfWide
  | badIndex (index : UInt16)
  | wrongTag (index : UInt16) (found expected : UInt8)
  | badMemberIndex (index : UInt16)
  | notMember (index : UInt16)
  | poolFull
  | textTooLong
  | tooDeep
  | unknownElement (tag : UInt8)
  | lengthMismatch
  | trailing (count : Nat)
  | tooManyInterfaces
  | tooManyMethods
  | tooManyAttributes (method : Bytes)
  | tooManyClassAttributes
  | tooManyAnnotations
  | parameterCount (count : Int)
  | attributeTooLarge
  | descriptor (text : Bytes) (fault : Descriptor.Fault)
  /-- A fault in a part of the class. -/
  | within (part : Bytes) (fault : Fault)
deriving DecidableEq, Repr

namespace Fault

open Bytes in
def text : Fault → Bytes
  | .endOfData offset => "unexpected end of class data at offset " ++ decimal offset
  | .pastEnd length offset =>
    "length " ++ decimal length ++ " at offset " ++ decimal offset ++ " runs past end of class data"
  | .badMagic => "bad magic number"
  | .emptyPool => "constant_pool_count is 0"
  | .unknownTag tag index =>
    "unknown constant pool tag " ++ decimal tag.toNat ++ " at index " ++ decimal index.toNat
  | .halfWide => "last constant pool entry is an 8-byte constant without its second slot"
  | .badIndex index => "constant pool index " ++ decimal index.toNat ++ " out of range"
  | .wrongTag index found expected =>
    "constant pool index " ++ decimal index.toNat ++ " has tag " ++ decimal found.toNat ++
      ", expected " ++ decimal expected.toNat
  | .badMemberIndex index => "member reference index " ++ decimal index.toNat ++ " out of range"
  | .notMember index =>
    "constant pool index " ++ decimal index.toNat ++ " is not a member reference"
  | .poolFull => "constant pool is full"
  | .textTooLong => "UTF-8 constant too long"
  | .tooDeep => "annotation element values nested too deeply"
  | .unknownElement tag => "unknown element value tag '" ++ [tag] ++ "'"
  | .lengthMismatch => "attribute length disagrees with content"
  | .trailing count => decimal count ++ " trailing bytes after class data"
  | .tooManyInterfaces => "too many interfaces"
  | .tooManyMethods => "too many methods"
  | .tooManyAttributes method => "too many attributes on " ++ method
  | .tooManyClassAttributes => "too many class attributes"
  | .tooManyAnnotations => "too many annotations in one set"
  | .parameterCount count => "annotable parameter count " ++ decimalInt count ++ " out of range"
  | .attributeTooLarge => "attribute too large"
  | .descriptor d fault => fault.text d
  | .within part fault => part ++ ": " ++ fault.text

def error (f : Fault) : Error := .format f.text

@[simp] theorem kind_error (f : Fault) : f.error.kind = .format := rfl

end Fault

end JarRepair.ClassFile

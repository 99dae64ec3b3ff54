import JarRepair.Bytes

/-! # Access flags and names fixed by the class-file format -/

namespace JarRepair.ClassFile

/-! ## Access flags -/

namespace Access

def isPrivate : UInt16 := 0x0002
def isStatic : UInt16 := 0x0008
def isInterface : UInt16 := 0x0200
def isSynthetic : UInt16 := 0x1000
def isEnum : UInt16 := 0x4000

/-- Whether some bit of `mask` is set. -/
def hasAny (flags mask : UInt16) : Bool := flags &&& mask != 0

end Access

/-! ## Constant tags -/

namespace Tag

def utf8 : UInt8 := 1
def integer : UInt8 := 3
def float : UInt8 := 4
def long : UInt8 := 5
def double : UInt8 := 6
def classRef : UInt8 := 7
def string : UInt8 := 8
def fieldRef : UInt8 := 9
def methodRef : UInt8 := 10
def interfaceMethodRef : UInt8 := 11
def nameAndType : UInt8 := 12
def methodHandle : UInt8 := 15
def methodType : UInt8 := 16
def dynamic : UInt8 := 17
def invokeDynamic : UInt8 := 18
def module : UInt8 := 19
def package : UInt8 := 20

/-- How many bytes follow a tag whose constants have a fixed size. -/
def size? (tag : UInt8) : Option Nat :=
  if [integer, float, fieldRef, methodRef, interfaceMethodRef, nameAndType, dynamic,
      invokeDynamic].contains tag then some 4
  else if [long, double].contains tag then some 8
  else if [classRef, string, methodType, module, package].contains tag then some 2
  else if tag = methodHandle then some 3
  else none

/-- Long and double constants take two slots. -/
def isWide (tag : UInt8) : Bool := tag == long || tag == double

def isMember (tag : UInt8) : Bool :=
  tag == fieldRef || tag == methodRef || tag == interfaceMethodRef

end Tag

/-! ## Names -/

def magic : UInt32 := 0xCAFEBABE

def suffix : Bytes := ".class"
def constructorName : Bytes := "<init>"
def initializerName : Bytes := "<clinit>"
def overrideType : Bytes := "Ljava/lang/Override;"
def codeName : Bytes := "Code"
def innerClassesName : Bytes := "InnerClasses"

/-- The descriptor of an object type: `a/b/C` becomes `La/b/C;`. -/
def objectType (name : Bytes) : Bytes := Bytes.char 'L' :: name ++ [Bytes.char ';']

end JarRepair.ClassFile

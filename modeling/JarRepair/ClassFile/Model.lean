import JarRepair.ClassFile.Annotation
import JarRepair.ClassFile.Pool

/-! # Class files

A class file in memory. Only the four annotation channels of methods are taken apart; fields, code
and all other attributes are kept as they were read. -/

namespace JarRepair

namespace ClassFile

structure Attribute where
  nameIndex : UInt16
  name : Bytes
  info : Bytes
deriving DecidableEq, Repr

/-- An attribute of a method: kept as read, or a place holder for a channel. -/
inductive MethodAttribute where
  | raw (a : Attribute)
  | channel (index : UInt16) (c : Channel)
deriving DecidableEq, Repr

namespace MethodAttribute

def nameIndex : MethodAttribute → UInt16
  | .raw a => a.nameIndex
  | .channel i _ => i

def name : MethodAttribute → Bytes
  | .raw a => a.name
  | .channel _ c => c.attributeName

def info : MethodAttribute → Bytes
  | .raw a => a.info
  | .channel .. => []

/-- The channel whose attribute this is in name only: it is kept as read because its method has that
channel already. -/
def repeated? : MethodAttribute → Option Channel
  | .raw a => Channel.ofName? a.name
  | .channel .. => none

@[simp] theorem nameIndex_raw (a : Attribute) : (raw a).nameIndex = a.nameIndex := rfl
@[simp] theorem nameIndex_channel (i : UInt16) (c : Channel) : (channel i c).nameIndex = i := rfl
@[simp] theorem name_raw (a : Attribute) : (raw a).name = a.name := rfl
@[simp] theorem name_channel (i : UInt16) (c : Channel) :
    (channel i c).name = c.attributeName := rfl

end MethodAttribute

/-- A row of the `InnerClasses` attribute. -/
structure InnerClass where
  name : Bytes
  outer : Option Bytes
  simple : Option Bytes
  access : UInt16
deriving DecidableEq, Repr

structure Method where
  access : UInt16 := 0
  nameIndex : UInt16 := 0
  descriptorIndex : UInt16 := 0
  name : Bytes := []
  descriptor : Bytes := []
  attributes : List MethodAttribute := []
  visible : Option AnnotationSet := none
  invisible : Option AnnotationSet := none
  visibleParameters : ParameterChannel := {}
  invisibleParameters : ParameterChannel := {}
deriving DecidableEq, Repr

namespace Method

/-- Name and descriptor run together: what tells overridable methods apart. -/
def signature (m : Method) : Bytes := m.name ++ m.descriptor

def isConstructor (m : Method) : Bool := m.name == constructorName

def isInitializer (m : Method) : Bool := m.isConstructor || m.name == initializerName

def attribute? (m : Method) (name : Bytes) : Option MethodAttribute :=
  m.attributes.find? (·.name == name)

def declared (m : Method) : Visibility → Option AnnotationSet
  | .visible => m.visible
  | .invisible => m.invisible

def parameters (m : Method) : Visibility → ParameterChannel
  | .visible => m.visibleParameters
  | .invisible => m.invisibleParameters

def setDeclared (m : Method) (set : Option AnnotationSet) : Visibility → Method
  | .visible => { m with visible := set }
  | .invisible => { m with invisible := set }

def setParameters (m : Method) (channel : ParameterChannel) : Visibility → Method
  | .visible => { m with visibleParameters := channel }
  | .invisible => { m with invisibleParameters := channel }

def has (m : Method) : Channel → Bool
  | .declaration v => (m.declared v).isSome
  | .parameter v => (m.parameters v).sets.isSome

end Method

end ClassFile

structure ClassFile where
  minor : UInt16 := 0
  major : UInt16 := 0
  pool : ClassFile.Pool := {}
  access : UInt16 := 0
  thisClass : UInt16 := 0
  superClass : UInt16 := 0
  name : Bytes := []
  superName : Option Bytes := none
  interfaceIndices : List UInt16 := []
  interfaces : List Bytes := []
  /-- The field table with its count, as read. -/
  fields : Bytes := []
  methods : List ClassFile.Method := []
  attributes : List ClassFile.Attribute := []
  innerClasses : List ClassFile.InnerClass := []
deriving DecidableEq, Repr

namespace ClassFile

def methodIndex? (c : ClassFile) (name descriptor : Bytes) : Option Nat :=
  c.methods.findIdx? fun m => m.name == name && m.descriptor == descriptor

/-- The row of `InnerClasses` on the class itself. -/
def ownRow? (c : ClassFile) : Option InnerClass := c.innerClasses.find? (·.name == c.name)

/-- The superclass and the interfaces. -/
def parents (c : ClassFile) : List Bytes := c.superName.toList ++ c.interfaces

def mapMethod (c : ClassFile) (k : Nat) (f : Method → Method) : ClassFile :=
  { c with methods := c.methods.modify k f }

end ClassFile

end JarRepair

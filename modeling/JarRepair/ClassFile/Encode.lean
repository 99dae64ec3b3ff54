import JarRepair.ClassFile.Model

/-! # Class files to bytes

Everything is written back as it was read, save the channels, which are written from the model. -/

namespace JarRepair.ClassFile

def maxWord : Nat := 65535
def maxByte : Nat := 255
def maxDword : Nat := 4294967295

/-- A list's length as a word, if it fits. -/
def wordCount {α : Type} (fault : Fault) (xs : List α) : Except Fault Bytes :=
  if maxWord < xs.length then .error fault else .ok (Bytes.word xs.length.toUInt16)

def Slot.encode : Slot → Bytes
  | .unusable => []
  | .entry tag raw => tag :: raw

def Pool.encode (p : Pool) : Bytes :=
  Bytes.word p.count ++ (p.slots.toList.drop 1).flatMap Slot.encode

def AnnotationSet.encode (set : AnnotationSet) : Except Fault Bytes := do
  return (← wordCount .tooManyAnnotations set) ++ set.flatMap Annotation.raw

/-- The first `count` sets, filled up with empty ones. -/
def ParameterChannel.written (p : ParameterChannel) : List AnnotationSet :=
  let sets := p.sets.getD []
  sets.take p.count.toNat ++ List.replicate (p.count.toNat - sets.length) []

def ParameterChannel.encode (p : ParameterChannel) : Except Fault Bytes := do
  if p.count < 0 ∨ (maxByte : Int) < p.count then throw (.parameterCount p.count)
  return p.count.toNat.toUInt8 :: (← p.written.mapM AnnotationSet.encode).flatten

def Method.encodeChannel (m : Method) : Channel → Except Fault Bytes
  | .declaration v => AnnotationSet.encode ((m.declared v).getD [])
  | .parameter v => (m.parameters v).encode

def encodeAttribute (nameIndex : UInt16) (info : Bytes) : Except Fault Bytes :=
  if maxDword < info.length then .error .attributeTooLarge
  else .ok (Bytes.word nameIndex ++ Bytes.dword info.length.toUInt32 ++ info)

def Method.encodeAttribute (m : Method) : MethodAttribute → Except Fault Bytes
  | .raw a => ClassFile.encodeAttribute a.nameIndex a.info
  | .channel nameIndex channel => do ClassFile.encodeAttribute nameIndex (← m.encodeChannel channel)

def Method.encode (m : Method) : Except Fault Bytes := do
  let count ← wordCount (.tooManyAttributes m.name) m.attributes
  let attributes ← m.attributes.mapM m.encodeAttribute
  return Bytes.word m.access ++ Bytes.word m.nameIndex ++ Bytes.word m.descriptorIndex ++ count ++
    attributes.flatten

def encodeParts (c : ClassFile) : Except Fault Bytes := do
  let interfaceCount ← wordCount .tooManyInterfaces c.interfaceIndices
  let methodCount ← wordCount .tooManyMethods c.methods
  let methods ← c.methods.mapM Method.encode
  let attributeCount ← wordCount .tooManyClassAttributes c.attributes
  let attributes ← c.attributes.mapM fun a => encodeAttribute a.nameIndex a.info
  return Bytes.dword magic ++ Bytes.word c.minor ++ Bytes.word c.major ++ c.pool.encode ++
    Bytes.word c.access ++ Bytes.word c.thisClass ++ Bytes.word c.superClass ++
    interfaceCount ++ c.interfaceIndices.flatMap Bytes.word ++ c.fields ++
    methodCount ++ methods.flatten ++ attributeCount ++ attributes.flatten

def encode (c : ClassFile) : Except Error Bytes :=
  c.encodeParts.mapError fun fault => fault.error.withClass c.name

end JarRepair.ClassFile

import JarRepair.ClassFile.Model
import JarRepair.ClassFile.Parser

/-! # Class files from bytes

Decoding walks the data front to back and stops at the first fault. The failure says which class it
is, once its name is known, and which repeated attributes were passed on the way. -/

namespace JarRepair.ClassFile

/-- An attribute for a channel that its method has already. -/
structure Repeated where
  channel : Channel
  method : Bytes
deriving DecidableEq, Repr

structure Failure where
  fault : Fault
  className : Bytes := []
  repeats : List Repeated := []
deriving DecidableEq, Repr

def Failure.error (f : Failure) : Error := f.fault.error.withClass f.className

@[simp] theorem Failure.kind_error (f : Failure) : f.error.kind = .format := by
  rw [error, Error.kind_withClass, Fault.kind_error]

open JarRepair.ClassFile.Parser

/-! ## Constants -/

def utf8Constant : Parser Fault Bytes := do
  let length ← word
  return Bytes.word length ++ (← bytes length.toNat)

/-- A constant for the slot with the given index. -/
def constant (index : UInt16) : Parser Fault (UInt8 × Bytes) := do
  let tag ← byte
  if tag = Tag.utf8 then return (tag, ← utf8Constant)
  match Tag.size? tag with
  | some size => return (tag, ← bytes size)
  | none => throw (.unknownTag tag index)

/-- Reads constants until the pool has `count` slots. Each constant fills a slot at least. -/
def constants (count : Nat) : Nat → Pool → Parser Fault Pool
  | 0, pool => pure pool
  | fuel + 1, pool => fun c =>
    if count ≤ pool.slots.size then .ok (pool, c)
    else
      match constant pool.count c with
      | .ok ((tag, raw), c) => constants count fuel (pool.push tag raw) c
      | .error e => .error e

def constantPool : Parser Fault Pool := do
  let count ← word
  if count = 0 then throw .emptyPool
  let pool ← constants count.toNat count.toNat {}
  if pool.slots.size = count.toNat then return pool else throw .halfWide

/-! ## Annotations -/

def maxDepth : Nat := 64

def constantElements : Bytes := "BCDFIJSZsc"

/-- Passes over an element value with at most `depth` values around others in it. -/
def elementValue : (depth : Nat) → Parser Fault Unit
  | 0 => throw .tooDeep
  | depth + 1 => do
    let tag ← byte
    if constantElements.contains tag then skip 2
    else if tag = Bytes.char 'e' then skip 4
    else if tag = Bytes.char '@' then do
      skip 2
      let pairs ← word
      skipTimes (do skip 2; elementValue depth) pairs.toNat
    else if tag = Bytes.char '[' then do
      let values ← word
      skipTimes (elementValue depth) values.toNat
    else throw (.unknownElement tag)

/-- An annotation's type index; its elements are passed over. -/
def annotationType : Parser Fault UInt16 := do
  let type ← word
  let pairs ← word
  skipTimes (do skip 2; elementValue (maxDepth + 1)) pairs.toNat
  return type

def annotationEntry (pool : Pool) : Parser Fault Annotation := do
  let (index, raw) ← withSource annotationType
  return { type := ← pool.utf8 index, raw }

def annotationSet (pool : Pool) : Parser Fault AnnotationSet := do
  let count ← word
  times count.toNat (annotationEntry pool)

def parameterSets (pool : Pool) : Parser Fault (List AnnotationSet) := do
  let count ← byte
  times count.toNat (annotationSet pool)

/-! ## Methods -/

def attributeEntry (pool : Pool) : Parser Fault Attribute := do
  let nameIndex ← word
  let length ← dword
  let info ← bytes length.toNat
  return { nameIndex, name := ← pool.utf8 nameIndex, info }

/-- Fills a channel of a method from the content of its attribute. -/
def readChannel (pool : Pool) (m : Method) (info : Bytes) : Channel → Except Fault Method
  | .declaration v => do
    return m.setDeclared (some (← (annotationSet pool).whole info)) v
  | .parameter v => do
    let sets ← (parameterSets pool).whole info
    return m.setParameters { sets := some sets, count := sets.length } v

/-- Takes an attribute into a method: only the first of each channel is taken apart. -/
def takeAttribute (pool : Pool) (m : Method) (a : Attribute) :
    Except Fault (Method × MethodAttribute) :=
  match Channel.ofName? a.name with
  | none => .ok (m, .raw a)
  | some channel =>
    if m.has channel then .ok (m, .raw a)
    else
      match readChannel pool m a.info channel with
      | .ok m => .ok (m, .channel a.nameIndex channel)
      | .error fault => .error (.within (a.name ++ " of " ++ m.signature) fault)

/-- The repeated attributes of a method among those given. -/
def repeatedOf (m : Method) (attributes : List MethodAttribute) : List Repeated :=
  attributes.filterMap fun a => a.repeated?.map fun c => ⟨c, m.signature⟩

def Method.repeats (m : Method) : List Repeated := repeatedOf m m.attributes

/-- Reads `n` attributes; `found` holds those before, the last one first. -/
def attributesOnto (pool : Pool) :
    Nat → Method → (found : List MethodAttribute) → Parser Failure Method
  | 0, m, found => pure { m with attributes := found.reverse }
  | n + 1, m, found => fun c =>
    match attributeEntry pool c with
    | .error fault => .error { fault, repeats := repeatedOf m found.reverse }
    | .ok (a, c) =>
      match takeAttribute pool m a with
      | .error fault => .error { fault, repeats := repeatedOf m found.reverse }
      | .ok (m, a) => attributesOnto pool n m (a :: found) c

def methodHead (pool : Pool) : Parser Fault (Method × UInt16) := do
  let access ← word
  let nameIndex ← word
  let descriptorIndex ← word
  let count ← word
  let name ← pool.utf8 nameIndex
  let descriptor ← pool.utf8 descriptorIndex
  return ({ access, nameIndex, descriptorIndex, name, descriptor }, count)

def method (pool : Pool) : Parser Failure Method := do
  let (m, count) ← (methodHead pool).mapError fun fault => { fault }
  attributesOnto pool count.toNat m []

def repeatsOf (methods : List Method) : List Repeated := methods.flatMap Method.repeats

/-- Reads `n` methods; `found` holds those before, the last one first. -/
def methodsOnto (pool : Pool) : Nat → (found : List Method) → Parser Failure (List Method)
  | 0, found => pure found.reverse
  | n + 1, found => fun c =>
    match method pool c with
    | .ok (m, c) => methodsOnto pool n (m :: found) c
    | .error e => .error { e with repeats := repeatsOf found.reverse ++ e.repeats }

/-! ## The class -/

/-- Passes over the field table. -/
def fieldTable : Parser Fault Unit := do
  let count ← word
  skipTimes
    (do
      skip 6
      let attributes ← word
      skipTimes (do skip 2; skip (← dword).toNat) attributes.toNat)
    count.toNat

/-- An index of zero stands for nothing. -/
def optional (index : UInt16) (f : UInt16 → Except Fault Bytes) : Except Fault (Option Bytes) :=
  if index = 0 then .ok none else some <$> f index

def innerClass (pool : Pool) : Parser Fault InnerClass := do
  let inner ← word
  let outer ← word
  let simple ← word
  let access ← word
  return {
    name := ← pool.className inner
    outer := ← optional outer pool.className
    simple := ← optional simple pool.utf8
    access }

def innerClassTable (pool : Pool) : Parser Fault (List InnerClass) := do
  let count ← word
  times count.toNat (innerClass pool)

/-- Reads `n` class attributes after those in `found`. Of several `InnerClasses` the last counts. -/
def classAttributesOnto (pool : Pool) :
    Nat → (found : List Attribute) → List InnerClass →
      Parser Fault (List Attribute × List InnerClass)
  | 0, found, rows => pure (found.reverse, rows)
  | n + 1, found, rows => fun c =>
    match attributeEntry pool c with
    | .error fault => .error fault
    | .ok (a, c) =>
      if a.name = innerClassesName then
        match (innerClassTable pool).whole a.info with
        | .ok rows => classAttributesOnto pool n (a :: found) rows c
        | .error fault => .error (.within innerClassesName fault)
      else classAttributesOnto pool n (a :: found) rows c

/-- Everything up to the class's own name. -/
def head : Parser Fault ClassFile := do
  if (← dword) ≠ magic then throw .badMagic
  let minor ← word
  let major ← word
  let pool ← constantPool
  let access ← word
  let thisClass ← word
  let superClass ← word
  let interfaces ← word
  let interfaceIndices ← times interfaces.toNat word
  let name ← pool.className thisClass
  return { minor, major, pool, access, thisClass, superClass, interfaceIndices, name }

/-- Names of the parents, and the fields. -/
def middle (c : ClassFile) : Parser Fault ClassFile := do
  let superName ← optional c.superClass c.pool.className
  let interfaces ← (c.interfaceIndices.mapM c.pool.className : Except Fault (List Bytes))
  let (_, fields) ← withSource fieldTable
  return { c with superName, interfaces, fields }

def methodTable (pool : Pool) : Parser Failure (List Method) := do
  let count ← word.mapError fun fault => { fault }
  methodsOnto pool count.toNat []

/-- The class attributes and the end of the data. -/
def tail (c : ClassFile) : Parser Fault ClassFile := do
  let count ← word
  let (attributes, innerClasses) ← classAttributesOnto c.pool count.toNat [] []
  let rest := (← get).rest
  if rest = [] then return { c with attributes, innerClasses } else throw (.trailing rest.length)

def body (c : ClassFile) : Parser Failure ClassFile := do
  let c ← (middle c).mapError fun fault => { fault }
  let methods ← methodTable c.pool
  (tail { c with methods }).mapError fun fault => { fault, repeats := repeatsOf methods }

def decode (data : Bytes) : Except Failure ClassFile :=
  match head { rest := data } with
  | .error fault => .error { fault }
  | .ok (c, cursor) =>
    match body c cursor with
    | .ok (c, _) => .ok c
    | .error failure => .error { failure with className := c.name }

end JarRepair.ClassFile

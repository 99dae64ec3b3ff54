import JarRepair.Bytes

/-! # Annotations and the channels that carry them

A method has four annotation attributes: for the method itself and for its parameters, each visible
or invisible at run time. Each is a channel. -/

namespace JarRepair.ClassFile

/-- An annotation with its type's descriptor; `raw` is the annotation as it is encoded. -/
structure Annotation where
  type : Bytes
  raw : Bytes
deriving DecidableEq, Repr

abbrev AnnotationSet := List Annotation

/-- Whether some annotation of the set has the type. -/
def AnnotationSet.has (set : AnnotationSet) (type : Bytes) : Bool := set.any (·.type == type)

/-- An annotation without elements: its type's index and a count of zero. -/
def Annotation.marker (type : Bytes) (index : UInt16) : Annotation :=
  { type, raw := Bytes.word index ++ [0, 0] }

inductive Visibility where
  | visible
  | invisible
deriving DecidableEq, Repr

inductive Channel where
  | declaration (v : Visibility)
  | parameter (v : Visibility)
deriving DecidableEq, Repr

namespace Channel

def attributeName : Channel → Bytes
  | .declaration .visible => "RuntimeVisibleAnnotations"
  | .declaration .invisible => "RuntimeInvisibleAnnotations"
  | .parameter .visible => "RuntimeVisibleParameterAnnotations"
  | .parameter .invisible => "RuntimeInvisibleParameterAnnotations"

def all : List Channel :=
  [.declaration .visible, .declaration .invisible, .parameter .visible, .parameter .invisible]

def ofName? (name : Bytes) : Option Channel := all.find? fun c => c.attributeName == name

theorem ofName?_attributeName (c : Channel) : ofName? c.attributeName = some c := by
  rcases c with v | v <;> cases v <;> decide

theorem attributeName_of_ofName? {name : Bytes} {c : Channel} (h : ofName? name = some c) :
    c.attributeName = name := by
  simpa using List.find?_some h

end Channel

/-- The annotation sets of a method's parameters, one per annotated position, and the number of
positions that is written. -/
structure ParameterChannel where
  sets : Option (List AnnotationSet) := none
  count : Int := 0
deriving DecidableEq, Repr

end JarRepair.ClassFile

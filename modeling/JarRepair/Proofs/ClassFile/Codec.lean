import JarRepair.Proofs.ClassFile.Methods

/-! # Class files that can be written and read back

A class is well-formed if every text it keeps is the one that its index stands for, and its parts
are well-formed. Decoding accepts exactly what is written for well-formed classes, so a class that
was read is written as it was, byte for byte, and one that is written is read back as it is. -/

namespace JarRepair.ClassFile

open JarRepair.Outcome
open JarRepair.ClassFile.Parser

variable {pool pool' : Pool}

/-! ## Methods -/

theorem methodsOnto_succ (n : Nat) (found : List Method) :
    methodsOnto pool (n + 1) found =
      (method pool).mapError
        (fun e => { e with repeats := repeatsOf found.reverse ++ e.repeats }) >>=
        fun m => methodsOnto pool n (m :: found) := by
  funext c
  rw [bind_apply]
  dsimp only [Parser.mapError, methodsOnto]
  cases method pool c <;> rfl

instance (n : Nat) (found : List Method) : Local (methodsOnto pool n found) := by
  induction n generalizing found with
  | zero => exact inferInstanceAs (Local (pure found.reverse))
  | succ n ih =>
    rw [methodsOnto_succ]
    infer_instance

theorem reads_methodsOnto_iff {n : Nat} {found ms : List Method} {bs : Bytes} :
    Reads (methodsOnto pool n found) bs ms ↔
      ∃ parts more, List.Forall₂ (Reads (method pool)) parts more ∧ more.length = n ∧
        bs = parts.flatten ∧ ms = found.reverse ++ more := by
  induction n generalizing found bs with
  | zero =>
    rw [methodsOnto, reads_pure_iff]
    constructor
    · rintro ⟨rfl, rfl⟩
      exact ⟨[], [], .nil, rfl, rfl, by simp⟩
    · rintro ⟨parts, more, hall, hlength, rfl, rfl⟩
      obtain rfl := List.length_eq_zero_iff.mp hlength
      cases hall
      exact ⟨rfl, by simp⟩
  | succ n ih =>
    simp only [methodsOnto_succ, reads_bind_iff, reads_mapError_iff, ih]
    constructor
    · rintro ⟨m, b, hm, _, ⟨parts, more, hall, rfl, rfl, rfl⟩, rfl⟩
      exact ⟨b :: parts, m :: more, .cons hm hall, rfl, rfl, by simp⟩
    · rintro ⟨parts, more, hall, hlength, rfl, rfl⟩
      cases hall with
      | nil => simp at hlength
      | @cons b m parts more hm hall =>
        exact ⟨m, b, hm, _, ⟨parts, more, hall, by simpa using hlength, rfl, by simp⟩, rfl⟩

instance : Local (methodTable pool) := by
  unfold methodTable
  infer_instance

theorem reads_methodTable_iff {ms : List Method} {bs : Bytes} :
    Reads (methodTable pool) bs ms ↔ ms.length ≤ maxWord ∧ (∀ m ∈ ms, m.WellFormed pool) ∧
      ∃ parts, ms.mapM Method.encode = .ok parts ∧
        bs = Bytes.word ms.length.toUInt16 ++ parts.flatten := by
  simp only [methodTable, reads_bind_iff, reads_mapError_iff, reads_word_iff, reads_methodsOnto_iff,
    forall₂_reads_iff_mapM reads_method_iff]
  constructor
  · rintro ⟨count, _, rfl, _, ⟨parts, more, ⟨hparts, hgood⟩, hlength, rfl, rfl⟩, rfl⟩
    have hlt := count.toNat_lt
    refine ⟨by simp only [maxWord]; omega, hgood, parts, hparts, ?_⟩
    rw [hlength, toUInt16_toNat]
  · rintro ⟨hlength, hgood, parts, hparts, rfl⟩
    exact ⟨_, _, rfl, _, ⟨parts, ms, ⟨hparts, hgood⟩, (toNat_toUInt16 hlength).symm, rfl, rfl⟩, rfl⟩

/-! ## Class attributes -/

instance : Local (innerClass pool) := by
  unfold innerClass
  infer_instance

theorem reads_innerClass_mono (h : pool ≤ pool') {bs : Bytes} {row : InnerClass}
    (hr : Reads (innerClass pool) bs row) : Reads (innerClass pool') bs row := by
  refine hr.mono_bind fun inner _ _ => Reads.mono_bind fun outer _ _ =>
    Reads.mono_bind fun simple _ _ =>
    Reads.mono_bind fun access _ _ => ?_
  simp only [reads_bind_iff, reads_liftM_iff, reads_pure_iff]
  rintro ⟨name, _, ⟨hname, rfl⟩, _,
    ⟨outerName, _, ⟨houter, rfl⟩, _, ⟨simpleName, _, ⟨hsimple, rfl⟩, hrow⟩,
    rfl⟩, rfl⟩
  exact ⟨name, _, ⟨Pool.className_mono h hname, rfl⟩, _, ⟨outerName, _,
    ⟨Pool.optional_mono (Pool.className_mono h) houter, rfl⟩, _, ⟨simpleName, _,
    ⟨Pool.optional_mono (Pool.utf8_mono h) hsimple, rfl⟩, hrow⟩, rfl⟩, rfl⟩

theorem innerClassTable_mono (h : pool ≤ pool') {info : Bytes} {rows : List InnerClass}
    (hr : (innerClassTable pool).whole info = .ok rows) :
    (innerClassTable pool').whole info = .ok rows := by
  simp only [whole_eq_ok_iff, innerClassTable, reads_bind_iff, reads_times_iff] at hr ⊢
  obtain ⟨count, b, hcount, _, ⟨parts, hall, hlength, rfl⟩, rfl⟩ := hr
  exact ⟨count, b, hcount, _, ⟨parts, hall.imp fun _ _ => reads_innerClass_mono h, hlength, rfl⟩,
    rfl⟩

/-- The inner classes known after an attribute: those of the last `InnerClasses`. -/
def rowsAfter (pool : Pool) (rows : List InnerClass) (a : Attribute) :
    Except Fault (List InnerClass) :=
  if a.name = innerClassesName then (innerClassTable pool).whole a.info else .ok rows

theorem rowsAfter_mono (h : pool ≤ pool') {rows rows' : List InnerClass} {as : List Attribute}
    (hr : as.foldlM (rowsAfter pool) rows = .ok rows') :
    as.foldlM (rowsAfter pool') rows = .ok rows' := by
  induction as generalizing rows with
  | nil =>
    rw [List.foldlM_nil] at hr ⊢
    exact hr
  | cons a as ih =>
    simp only [List.foldlM_cons, bind_eq_ok_iff] at hr ⊢
    obtain ⟨rows₁, h₁, hrest⟩ := hr
    refine ⟨rows₁, ?_, ih hrest⟩
    rw [rowsAfter] at h₁ ⊢
    split at h₁
    · rename_i hname
      rw [if_pos hname]
      exact innerClassTable_mono h h₁
    · rename_i hname
      rw [if_neg hname]
      exact h₁

theorem classAttributesOnto_succ (n : Nat) (found : List Attribute) (rows : List InnerClass) :
    classAttributesOnto pool (n + 1) found rows = attributeEntry pool >>= fun a =>
      liftM ((rowsAfter pool rows a).mapError (Fault.within innerClassesName)) >>= fun rows =>
        classAttributesOnto pool n (a :: found) rows := by
  funext c
  rw [bind_apply]
  dsimp only [classAttributesOnto]
  cases attributeEntry pool c with
  | error fault => rfl
  | ok r =>
    obtain ⟨a, c'⟩ := r
    simp only [Except.bind, bind_apply, liftM_apply, rowsAfter]
    split
    · cases (innerClassTable pool).whole a.info <;> rfl
    · rfl

instance (n : Nat) (found : List Attribute) (rows : List InnerClass) :
    Local (classAttributesOnto pool n found rows) := by
  induction n generalizing found rows with
  | zero => exact inferInstanceAs (Local (pure (found.reverse, rows)))
  | succ n ih =>
    rw [classAttributesOnto_succ]
    infer_instance

theorem reads_classAttributesOnto_iff {n : Nat} {found as : List Attribute}
    {rows rows' : List InnerClass} {bs : Bytes} :
    Reads (classAttributesOnto pool n found rows) bs (as, rows') ↔
      ∃ parts more, List.Forall₂ (Reads (attributeEntry pool)) parts more ∧ more.length = n ∧
        bs = parts.flatten ∧ as = found.reverse ++ more ∧
          more.foldlM (rowsAfter pool) rows = .ok rows' := by
  induction n generalizing found rows bs with
  | zero =>
    rw [classAttributesOnto, reads_pure_iff, Prod.mk.injEq]
    constructor
    · rintro ⟨rfl, rfl, rfl⟩
      exact ⟨[], [], .nil, rfl, rfl, by simp, rfl⟩
    · rintro ⟨parts, more, hall, hlength, rfl, rfl, hrows⟩
      obtain rfl := List.length_eq_zero_iff.mp hlength
      cases hall
      exact ⟨rfl, by simp, (pure_eq_ok_iff.mp hrows)⟩
  | succ n ih =>
    simp only [classAttributesOnto_succ, reads_bind_iff, reads_liftM_iff, mapError_eq_ok_iff, ih]
    constructor
    · rintro ⟨a, b, ha, _, ⟨rows₁, _, ⟨hrows₁, rfl⟩, _, ⟨parts, more, hall, rfl, rfl, rfl, hrows⟩,
        rfl⟩, rfl⟩
      exact ⟨b :: parts, a :: more, .cons ha hall, rfl, rfl, by simp,
        by simpa only [List.foldlM_cons, bind_eq_ok_iff] using ⟨rows₁, hrows₁, hrows⟩⟩
    · rintro ⟨parts, more, hall, hlength, rfl, rfl, hrows⟩
      cases hall with
      | nil => simp at hlength
      | @cons b a parts more ha hall =>
        simp only [List.foldlM_cons, bind_eq_ok_iff] at hrows
        obtain ⟨rows₁, hrows₁, hrows⟩ := hrows
        exact ⟨a, b, ha, _,
          ⟨rows₁, [], ⟨hrows₁, rfl⟩, _, ⟨parts, more, hall, by simpa using hlength,
          rfl, by simp, hrows⟩, rfl⟩, rfl⟩

/-- The class attributes with their count. -/
def attributeTable (pool : Pool) : Parser Fault (List Attribute × List InnerClass) := do
  classAttributesOnto pool (← word).toNat [] []

instance : Local (attributeTable pool) := by
  unfold attributeTable
  infer_instance

theorem reads_attributeTable_iff {as : List Attribute} {rows : List InnerClass} {bs : Bytes} :
    Reads (attributeTable pool) bs (as, rows) ↔ as.length ≤ maxWord ∧
      (∀ a ∈ as, pool.utf8 a.nameIndex = .ok a.name) ∧ as.foldlM (rowsAfter pool) [] = .ok rows ∧
        ∃ parts, as.mapM (fun a => encodeAttribute a.nameIndex a.info) = .ok parts ∧
          bs = Bytes.word as.length.toUInt16 ++ parts.flatten := by
  simp only [attributeTable, reads_bind_iff, reads_word_iff, reads_classAttributesOnto_iff,
    forall₂_reads_iff_mapM reads_attributeEntry_iff]
  constructor
  · rintro ⟨count, _, rfl, _, ⟨parts, more, ⟨hparts, hgood⟩, hlength, rfl, rfl, hrows⟩, rfl⟩
    have hlt := count.toNat_lt
    refine ⟨by simp only [maxWord]; omega, hgood, hrows, parts, hparts, ?_⟩
    rw [hlength, toUInt16_toNat]
  · rintro ⟨hlength, hgood, hrows, parts, hparts, rfl⟩
    exact ⟨_, _, rfl, _,
      ⟨parts, as, ⟨hparts, hgood⟩, (toNat_toUInt16 hlength).symm, rfl, rfl, hrows⟩, rfl⟩

/-! ## The class -/

/-- What is read of a class before the names of its parents. -/
def stub (c : ClassFile) : ClassFile where
  minor := c.minor
  major := c.major
  pool := c.pool
  access := c.access
  thisClass := c.thisClass
  superClass := c.superClass
  interfaceIndices := c.interfaceIndices
  name := c.name

/-- The bytes of a class up to its fields. -/
def headBytes (c : ClassFile) : Bytes :=
  Bytes.dword magic ++ Bytes.word c.minor ++ Bytes.word c.major ++ c.pool.encode ++
    Bytes.word c.access ++ Bytes.word c.thisClass ++ Bytes.word c.superClass ++
    Bytes.word c.interfaceIndices.length.toUInt16 ++ c.interfaceIndices.flatMap Bytes.word

/-- The head of a class after the magic number. -/
def versionOn : Parser Fault ClassFile := do
  let minor ← word
  let major ← word
  let pool ← constantPool
  let access ← word
  let thisClass ← word
  let superClass ← word
  let interfaces ← word
  let interfaceIndices ← times interfaces.toNat word
  let name ← pool.className thisClass
  return { minor, major, pool, access, thisClass, superClass, interfaceIndices, name }

theorem head_eq : head = dword >>= fun m =>
    if m ≠ magic then throw .badMagic >>= fun _ : Unit => versionOn else versionOn := rfl

instance : Local versionOn := by
  unfold versionOn
  infer_instance

instance : Local head := by
  rw [head_eq]
  infer_instance

theorem reads_versionOn_iff {bs : Bytes} {c : ClassFile} :
    Reads versionOn bs c ↔ Bytes.dword magic ++ bs = c.headBytes ∧ c = c.stub ∧ c.pool.WellFormed ∧
      c.interfaceIndices.length ≤ maxWord ∧ c.pool.className c.thisClass = .ok c.name := by
  have hwords {b : Bytes} {v : UInt16} : Reads word b v ↔ b = Bytes.word v ∧ True := by simp
  simp only [versionOn, reads_bind_iff, reads_word_iff, reads_constantPool_iff,
    reads_times_iff_flatMap hwords, reads_liftM_iff, reads_pure_iff, headBytes, List.append_assoc,
    List.append_cancel_left_eq]
  constructor
  · rintro ⟨minor, _, rfl, _, ⟨major, _, rfl, _, ⟨pool, _, ⟨rfl, hpool⟩, _, ⟨access, _, rfl, _,
      ⟨thisClass, _, rfl, _, ⟨superClass, _, rfl, _, ⟨count, _, rfl, _, ⟨indices, _,
      ⟨rfl, hlength, -⟩, _, ⟨name, _, ⟨hname, rfl⟩, _, ⟨rfl, rfl⟩, rfl⟩, rfl⟩, rfl⟩, rfl⟩, rfl⟩,
      rfl⟩, rfl⟩, rfl⟩, rfl⟩
    have hlt := count.toNat_lt
    refine ⟨?_, rfl, hpool, by simp only [maxWord]; omega, hname⟩
    simp only [hlength, toUInt16_toNat, List.append_nil]
  · rintro ⟨rfl, hc, hpool, hlength, hname⟩
    exact ⟨c.minor, _, rfl, _,
      ⟨c.major, _, rfl, _, ⟨c.pool, _, ⟨rfl, hpool⟩, _, ⟨c.access, _, rfl, _,
      ⟨c.thisClass, _, rfl, _, ⟨c.superClass, _, rfl, _, ⟨_, _, rfl, _, ⟨c.interfaceIndices, _,
      ⟨rfl, (toNat_toUInt16 hlength).symm, fun _ _ => trivial⟩, _, ⟨c.name, _, ⟨hname, rfl⟩, _,
      ⟨rfl, hc⟩, rfl⟩, by simp⟩, rfl⟩, rfl⟩, rfl⟩, rfl⟩, rfl⟩, rfl⟩, rfl⟩

theorem reads_head_iff {bs : Bytes} {c : ClassFile} :
    Reads head bs c ↔ bs = c.headBytes ∧ c = c.stub ∧ c.pool.WellFormed ∧
      c.interfaceIndices.length ≤ maxWord ∧ c.pool.className c.thisClass = .ok c.name := by
  simp only [head_eq, reads_bind_iff, reads_dword_iff]
  constructor
  · rintro ⟨m, _, rfl, b, h, rfl⟩
    by_cases hm : m = magic
    · subst hm
      rw [if_neg (not_not.mpr rfl)] at h
      exact reads_versionOn_iff.mp h
    · rw [if_pos hm] at h
      simp at h
  · rintro ⟨hbytes, hc⟩
    have hsplit : bs = Bytes.dword magic ++ bs.drop 4 := by
      rw [hbytes]
      simp [headBytes, Bytes.dword]
    rw [hsplit] at hbytes
    refine ⟨magic, _, rfl, bs.drop 4, ?_, hsplit⟩
    rw [if_neg (not_not.mpr rfl)]
    exact reads_versionOn_iff.mpr ⟨hbytes, hc⟩

instance : Local fieldTable := by
  unfold fieldTable
  infer_instance

theorem middle_eq (c : ClassFile) :
    middle c = liftM (optional c.superClass c.pool.className) >>= fun superName =>
      liftM (c.interfaceIndices.mapM c.pool.className) >>= fun interfaces =>
        fieldTable.withSource >>= fun r => pure { c with superName, interfaces, fields := r.2 } :=
          rfl

instance (c : ClassFile) : Local (middle c) := by
  rw [middle_eq]
  infer_instance

theorem reads_middle_iff {bs : Bytes} {c c' : ClassFile} :
    Reads (middle c) bs c' ↔
      c' = { c with superName := c'.superName, interfaces := c'.interfaces, fields := bs } ∧
        optional c.superClass c.pool.className = .ok c'.superName ∧
        c.interfaceIndices.mapM c.pool.className = .ok c'.interfaces ∧ Reads fieldTable bs () := by
  simp only [middle_eq, reads_bind_iff, reads_liftM_iff, reads_pure_iff, Prod.exists,
    reads_withSource_iff]
  constructor
  · rintro ⟨superName, _, ⟨hsuper, rfl⟩, _, ⟨interfaces, _, ⟨hinterfaces, rfl⟩, _,
      ⟨_, fields, _, ⟨hfields, rfl⟩, _, ⟨rfl, rfl⟩, rfl⟩, rfl⟩, rfl⟩
    exact ⟨by simp, hsuper, hinterfaces, by simpa using hfields⟩
  · rintro ⟨hc, hsuper, hinterfaces, hfields⟩
    exact ⟨c'.superName, [], ⟨hsuper, rfl⟩, bs, ⟨c'.interfaces, [], ⟨hinterfaces, rfl⟩, bs,
      ⟨(), bs, bs, ⟨hfields, rfl⟩, [], ⟨rfl, hc⟩, by simp⟩, rfl⟩, rfl⟩

theorem tail_eq (c : ClassFile) :
    tail c = attributeTable c.pool >>= fun r cursor =>
      if cursor.rest = [] then .ok ({ c with attributes := r.1, innerClasses := r.2 }, cursor)
      else .error (.trailing cursor.rest.length) := by
  rw [tail, attributeTable, bind_assoc]
  refine bind_congr fun count => bind_congr fun r => funext fun cursor => ?_
  obtain ⟨attributes, innerClasses⟩ := r
  have hget (f : Cursor → Parser Fault ClassFile) : (get >>= f) cursor = f cursor cursor := rfl
  simp only [hget]
  split <;> rfl

theorem tail_eq_ok_iff {c c' : ClassFile} {cursor cursor' : Cursor} :
    tail c cursor = .ok (c', cursor') ↔ ∃ attributes innerClasses,
      Reads (attributeTable c.pool) cursor.rest (attributes, innerClasses) ∧
        c' = { c with attributes, innerClasses } ∧
          cursor' = ⟨cursor.offset + cursor.rest.length, []⟩ := by
  rw [tail_eq, run_bind_eq_ok_iff]
  constructor
  · rintro ⟨⟨attributes, innerClasses⟩, cursor₁, htable, hend⟩
    split at hend
    · rename_i hnil
      simp only [Except.ok.injEq, Prod.mk.injEq] at hend
      obtain ⟨rfl, rfl⟩ := hend
      obtain ⟨bs, hrest, hoffset, hreads⟩ := run_eq_ok_iff.mp htable
      rw [hnil, List.append_nil] at hrest
      refine ⟨attributes, innerClasses, hrest ▸ hreads, rfl, ?_⟩
      rw [hrest, ← hoffset, ← hnil]
    · simp at hend
  · rintro ⟨attributes, innerClasses, hreads, rfl, rfl⟩
    refine ⟨(attributes, innerClasses), ⟨cursor.offset + cursor.rest.length, []⟩, ?_, rfl⟩
    exact run_eq_ok_iff.mpr ⟨cursor.rest, by simp, rfl, hreads⟩

/-! ## Decoding and encoding -/

/-- Every text is the one that its index stands for, and all parts are well-formed. -/
structure WellFormed (c : ClassFile) : Prop where
  pool : c.pool.WellFormed
  name : c.pool.className c.thisClass = .ok c.name
  superName : optional c.superClass c.pool.className = .ok c.superName
  interfaces : c.interfaceIndices.mapM c.pool.className = .ok c.interfaces
  fields : Reads fieldTable c.fields ()
  methods : ∀ m ∈ c.methods, m.WellFormed c.pool
  attributeNames : ∀ a ∈ c.attributes, c.pool.utf8 a.nameIndex = .ok a.name
  innerClasses : c.attributes.foldlM (rowsAfter c.pool) [] = .ok c.innerClasses

theorem WellFormed.withMethods {c : ClassFile} (hc : c.WellFormed) {ms : List Method}
    (h : ∀ m ∈ ms, m.WellFormed c.pool) : WellFormed { c with methods := ms } :=
  { hc with methods := h }

theorem encodeParts_eq_ok_iff {c : ClassFile} {bs : Bytes} :
    c.encodeParts = .ok bs ↔ c.interfaceIndices.length ≤ maxWord ∧ c.methods.length ≤ maxWord ∧
      c.attributes.length ≤ maxWord ∧ ∃ methods attributes,
        c.methods.mapM Method.encode = .ok methods ∧
        c.attributes.mapM (fun a => encodeAttribute a.nameIndex a.info) = .ok attributes ∧
        bs =
          c.headBytes ++ (c.fields ++ ((Bytes.word c.methods.length.toUInt16 ++ methods.flatten) ++
          (Bytes.word c.attributes.length.toUInt16 ++ attributes.flatten))) := by
  simp only [encodeParts, bind_eq_ok_iff, wordCount_eq_ok_iff, pure_eq_ok_iff, headBytes,
    List.append_assoc]
  constructor
  · rintro ⟨_, ⟨hinterfaces, rfl⟩, _, ⟨hmethods, rfl⟩, methods, hm, _, ⟨hattributes, rfl⟩,
      attributes, ha, rfl⟩
    exact ⟨hinterfaces, hmethods, hattributes, methods, attributes, hm, ha, rfl⟩
  · rintro ⟨hinterfaces, hmethods, hattributes, methods, attributes, hm, ha, rfl⟩
    exact ⟨_, ⟨hinterfaces, rfl⟩, _, ⟨hmethods, rfl⟩, methods, hm, _,
      ⟨hattributes, rfl⟩, attributes, ha, rfl⟩

theorem encode_eq_ok_iff {c : ClassFile} {bs : Bytes} :
    c.encode = .ok bs ↔ c.encodeParts = .ok bs := mapError_eq_ok_iff

theorem mapError_run_eq_ok_iff {ε ε' α : Type} {p : Parser ε α} {f : ε → ε'} {cursor : Cursor}
    {r : α × Cursor} : p.mapError f cursor = .ok r ↔ p cursor = .ok r := mapError_eq_ok_iff

/-- The body of a class is its parents and fields, its methods, and its attributes to the end. -/
theorem body_eq_ok_iff {c c' : ClassFile} {cursor cursor' : Cursor} :
    body c cursor = .ok (c', cursor') ↔ ∃ c₁ b₁ methods b₂ attributes innerClasses b₃,
      Reads (middle c) b₁ c₁ ∧ Reads (methodTable c₁.pool) b₂ methods ∧
        Reads (attributeTable c₁.pool) b₃ (attributes, innerClasses) ∧
          c' = { c₁ with methods, attributes, innerClasses } ∧ cursor.rest = b₁ ++ (b₂ ++ b₃) ∧
            cursor' = ⟨cursor.offset + cursor.rest.length, []⟩ := by
  simp only [body, run_bind_eq_ok_iff, mapError_run_eq_ok_iff, tail_eq_ok_iff]
  simp only [run_eq_ok_iff]
  constructor
  · rintro ⟨c₁, cursor₁, ⟨b₁, hrest₁, hoffset₁, hmiddle⟩, methods, cursor₂,
      ⟨b₂, hrest₂, hoffset₂, hmethods⟩, attributes, innerClasses, hattributes, rfl, rfl⟩
    refine ⟨c₁, b₁, methods, b₂, attributes, innerClasses, cursor₂.rest, hmiddle, hmethods,
      hattributes, rfl, by rw [hrest₁, hrest₂], ?_⟩
    simp only [hoffset₂, hoffset₁, hrest₁, hrest₂, List.length_append, Nat.add_assoc]
  · rintro ⟨c₁, b₁, methods, b₂, attributes, innerClasses, b₃, hmiddle, hmethods, hattributes, rfl,
      hrest, rfl⟩
    refine ⟨c₁, ⟨cursor.offset + b₁.length, b₂ ++ b₃⟩, ⟨b₁, hrest, rfl, hmiddle⟩, methods,
      ⟨cursor.offset + b₁.length + b₂.length, b₃⟩, ⟨b₂, rfl, rfl, hmethods⟩, attributes,
      innerClasses, hattributes, rfl, ?_⟩
    simp only [hrest, List.length_append, Nat.add_assoc]

theorem decode_eq_ok_iff_reads {data : Bytes} {c : ClassFile} :
    decode data = .ok c ↔ ∃ c₀ b₀ rest cursor', Reads head b₀ c₀ ∧ data = b₀ ++ rest ∧
      body c₀ ⟨b₀.length, rest⟩ = .ok (c, cursor') := by
  constructor
  · intro h
    unfold decode at h
    split at h
    · exact absurd h (by simp)
    · rename_i c₀ cursor hhead
      obtain ⟨b₀, hdata, hoffset, hreads⟩ := run_eq_ok_iff.mp hhead
      split at h
      · rename_i cursor' hbody
        obtain rfl := Except.ok.inj h
        refine ⟨c₀, b₀, cursor.rest, cursor', hreads, hdata, ?_⟩
        rw [← Nat.zero_add b₀.length, ← hoffset]
        exact hbody
      · exact absurd h (by simp)
  · rintro ⟨c₀, b₀, rest, cursor', hreads, rfl, hbody⟩
    have hhead : head { rest := b₀ ++ rest } = .ok (c₀, ⟨b₀.length, rest⟩) :=
      run_eq_ok_iff.mpr ⟨b₀, rfl, (Nat.zero_add _).symm, hreads⟩
    rw [decode, hhead]
    dsimp only
    rw [hbody]

/-- Decoding accepts exactly what is written for well-formed classes. -/
theorem decode_eq_ok_iff {data : Bytes} {c : ClassFile} :
    decode data = .ok c ↔ c.WellFormed ∧ c.encode = .ok data := by
  rw [decode_eq_ok_iff_reads, encode_eq_ok_iff, encodeParts_eq_ok_iff]
  simp only [body_eq_ok_iff, reads_head_iff, reads_middle_iff, reads_methodTable_iff,
    reads_attributeTable_iff]
  constructor
  · rintro ⟨c₀, _, _, cursor', ⟨rfl, hc₀, hpool, hcount, hname⟩, rfl, c₁, b₁, methods,
      _, attributes, innerClasses, _, ⟨hc₁, hsuper, hinterfaces, hfields⟩,
      ⟨hmcount, hmethods, mparts, hmparts, rfl⟩, ⟨hacount, hnames, hrows, aparts, haparts, rfl⟩,
      rfl, rfl, -⟩
    rw [hc₁] at hmethods hnames hrows ⊢
    exact ⟨⟨hpool, hname, hsuper, hinterfaces, hfields, hmethods, hnames, hrows⟩, hcount, hmcount,
      hacount, mparts, aparts, hmparts, haparts, rfl⟩
  · rintro ⟨hc, hcount, hmcount, hacount, mparts, aparts, hmparts, haparts, rfl⟩
    exact ⟨c.stub, _, _, _, ⟨rfl, rfl, hc.pool, hcount, hc.name⟩, rfl,
      { c with methods := [], attributes := [], innerClasses := [] }, c.fields, c.methods, _,
      c.attributes, c.innerClasses, _, ⟨rfl, hc.superName, hc.interfaces, hc.fields⟩,
      ⟨hmcount, hc.methods, mparts, hmparts, rfl⟩,
      ⟨hacount, hc.attributeNames, hc.innerClasses, aparts, haparts, rfl⟩, rfl, rfl, rfl⟩

/-- A class that was read is written as it was, byte for byte. -/
theorem encode_of_decode {data : Bytes} {c : ClassFile} (h : decode data = .ok c) :
    c.encode = .ok data :=
  (decode_eq_ok_iff.mp h).2

/-- A class with a long constant and a method that has an annotation attribute twice. -/
def twiceAnnotated : Bytes :=
  Bytes.dword magic ++ [0, 0, 0, 52] ++
    Pool.encode ⟨#[.unusable, Pool.textSlot "A", .entry Tag.classRef [0, 1], Pool.textSlot "<init>",
      .entry Tag.long [0, 0, 0, 0, 0, 0, 0, 9], .unusable, Pool.textSlot "(I)V",
      Pool.textSlot "RuntimeInvisibleAnnotations"]⟩ ++
    [0, 33, 0, 2, 0, 0, 0, 0, 0, 0] ++
    [0, 1, 0, 1, 0, 3, 0, 6, 0, 2, 0, 7, 0, 0, 0, 2, 0, 0, 0, 7, 0, 0, 0, 1, 99] ++ [0, 0]

theorem encode_of_decode_twiceAnnotated : ∃ c, decode twiceAnnotated = .ok c ∧
    (repeatsOf c.methods).length = 1 ∧ c.encode = .ok twiceAnnotated :=
  ⟨_, rfl, rfl, encode_of_decode rfl⟩

end JarRepair.ClassFile

import JarRepair.Proofs.ClassFile.Codec

/-! # The counts and lengths of a class file

Each list of a class file stands behind the number of its items, and each attribute's content behind
its length. The fields for them have a fixed width. A class is not written if one of its lists is
too long for its field; if it is written, every field says the true number. -/

namespace JarRepair.ClassFile

open JarRepair.Outcome

/-! ## Fields -/

/-- The number in a field, whose first byte counts most. -/
def number (field : Bytes) : Nat := field.foldl (fun n b => n * 256 + b.toNat) 0

@[simp] theorem number_byte (b : UInt8) : number [b] = b.toNat := by simp [number]

@[simp] theorem number_word (v : UInt16) : number (Bytes.word v) = v.toNat := by
  obtain ⟨hi, lo, rfl⟩ := exists_wordOf v
  simp [number, toNat_wordOf]

@[simp] theorem number_dword (v : UInt32) : number (Bytes.dword v) = v.toNat := by
  obtain ⟨a, b, c, d, rfl⟩ := exists_dwordOf v
  simp [number, toNat_dwordOf]

/-- Items behind a field that says how many they are. -/
def Counted (width : Nat) (items : List Bytes) (bs : Bytes) : Prop :=
  ∃ field, field.length = width ∧ number field = items.length ∧ bs = field ++ items.flatten

/-- A content behind a field that says its length. -/
def Sized (width : Nat) (content bs : Bytes) : Prop :=
  ∃ field, field.length = width ∧ number field = content.length ∧ bs = field ++ content

theorem counted_byte (items : List Bytes) (h : items.length ≤ maxByte) :
    Counted 1 items (items.length.toUInt8 :: items.flatten) :=
  ⟨[items.length.toUInt8], rfl, by rw [number_byte, toNat_toUInt8 (Nat.lt_succ_of_le h)], rfl⟩

theorem counted_word (items : List Bytes) (h : items.length ≤ maxWord) :
    Counted 2 items (Bytes.word items.length.toUInt16 ++ items.flatten) :=
  ⟨_, rfl, by rw [number_word, toNat_toUInt16 h], rfl⟩

theorem sized_dword {content : Bytes} (h : content.length ≤ maxDword) :
    Sized 4 content (Bytes.dword content.length.toUInt32 ++ content) :=
  ⟨_, rfl, by rw [number_dword, toNat_toUInt32 h], rfl⟩

/-! ## Layout -/

def AnnotationSet.LaidOut (set : AnnotationSet) (bs : Bytes) : Prop :=
  Counted 2 (set.map Annotation.raw) bs

/-- As many sets as the channel's count says: those that it has, and empty ones past the last. -/
def ParameterChannel.LaidOut (p : ParameterChannel) (bs : Bytes) : Prop :=
  ∃ items, Counted 1 items bs ∧ (items.length : Int) = p.count ∧
    ∀ i item, items[i]? = some item → AnnotationSet.LaidOut ((p.sets.getD []).getD i []) item

/-- What an attribute of a method holds. -/
def Method.Holds (m : Method) : MethodAttribute → Bytes → Prop
  | .raw a, content => content = a.info
  | .channel _ (.declaration v), content => AnnotationSet.LaidOut ((m.declared v).getD []) content
  | .channel _ (.parameter v), content => (m.parameters v).LaidOut content

/-- An attribute: the index of its name, then its content behind its length. -/
def AttributeLaidOut (nameIndex : UInt16) (content bs : Bytes) : Prop :=
  ∃ sized, Sized 4 content sized ∧ bs = Bytes.word nameIndex ++ sized

def Method.LaidOut (m : Method) (bs : Bytes) : Prop :=
  ∃ items table, List.Forall₂ (fun a item => ∃ content, m.Holds a content ∧
      AttributeLaidOut a.nameIndex content item) m.attributes items ∧ Counted 2 items table ∧
    bs = Bytes.word m.access ++ Bytes.word m.nameIndex ++ Bytes.word m.descriptorIndex ++ table

/-- The constants behind the number of slots, slot 0 among them. -/
def Pool.LaidOut (p : Pool) (bs : Bytes) : Prop :=
  ∃ field, field.length = 2 ∧ number field = p.slots.size ∧
    bs = field ++ (p.slots.toList.drop 1).flatMap Slot.encode

structure Parts where
  pool : Bytes
  interfaces : Bytes
  methods : List Bytes
  methodTable : Bytes
  attributes : List Bytes
  attributeTable : Bytes

/-- A class file of these parts. -/
structure LaidOutIn (c : ClassFile) (parts : Parts) (bs : Bytes) : Prop where
  pool : c.pool.LaidOut parts.pool
  interfaces : Counted 2 (c.interfaceIndices.map Bytes.word) parts.interfaces
  methods : List.Forall₂ Method.LaidOut c.methods parts.methods
  methodTable : Counted 2 parts.methods parts.methodTable
  attributes : List.Forall₂ (fun a item => AttributeLaidOut a.nameIndex a.info item)
    c.attributes parts.attributes
  attributeTable : Counted 2 parts.attributes parts.attributeTable
  bytes : bs = Bytes.dword magic ++ Bytes.word c.minor ++ Bytes.word c.major ++ parts.pool ++
    Bytes.word c.access ++ Bytes.word c.thisClass ++ Bytes.word c.superClass ++ parts.interfaces ++
    c.fields ++ parts.methodTable ++ parts.attributeTable

def LaidOut (c : ClassFile) (bs : Bytes) : Prop := ∃ parts, c.LaidOutIn parts bs

/-! ## What is written is laid out -/

theorem AnnotationSet.laidOut_of_encode {set : AnnotationSet} {bs : Bytes}
    (h : set.encode = .ok bs) :
    set.LaidOut bs := by
  obtain ⟨hlength, rfl⟩ := AnnotationSet.encode_eq_ok_iff.mp h
  have hcounted := counted_word (set.map Annotation.raw) (by rwa [List.length_map])
  rwa [List.length_map, ← List.flatMap_def] at hcounted

theorem ParameterChannel.laidOut_of_encode {p : ParameterChannel} {bs : Bytes}
    (h : p.encode = .ok bs) :
    p.LaidOut bs := by
  obtain ⟨⟨hpos, hle⟩, items, hitems, rfl⟩ := encode_eq_ok_iff_written.mp h
  have hall := mapM_eq_ok_iff.mp hitems
  have hlength : items.length = p.count.toNat := by rw [← hall.length_eq, length_written]
  have hcount : (items.length : Int) = p.count := by omega
  refine ⟨items, ?_, hcount, fun i item hitem => ?_⟩
  · rw [← hlength]
    exact counted_byte items (by omega)
  · obtain ⟨hi, hget⟩ := List.getElem?_eq_some_iff.mp hitem
    have hset := List.getElem?_eq_some_iff.mp (getElem?_written (p := p) (i := i) (by omega))
    obtain ⟨hi', hset⟩ := hset
    have hencode := hall.get hi' hi
    rw [List.get_eq_getElem, List.get_eq_getElem, hset, hget] at hencode
    exact AnnotationSet.laidOut_of_encode hencode

theorem attributeLaidOut_of_encode {nameIndex : UInt16} {content bs : Bytes}
    (h : encodeAttribute nameIndex content = .ok bs) : AttributeLaidOut nameIndex content bs := by
  obtain ⟨hlength, rfl⟩ := encodeAttribute_eq_ok_iff.mp h
  exact ⟨_, sized_dword hlength, List.append_assoc _ _ _⟩

namespace Method

variable {m : Method}

/-- The content of an attribute: as it was read, or written from a channel. -/
def content (m : Method) : MethodAttribute → Except Fault Bytes
  | .raw a => .ok a.info
  | .channel _ channel => m.encodeChannel channel

theorem encodeAttribute_eq_ok_iff {a : MethodAttribute} {bs : Bytes} :
    m.encodeAttribute a = .ok bs ↔ ∃ info, m.content a = .ok info ∧
      ClassFile.encodeAttribute a.nameIndex info = .ok bs := by
  cases a with
  | raw a => simp [Method.encodeAttribute, content]
  | channel i c =>
    simp only [Method.encodeAttribute, content, bind_eq_ok_iff, MethodAttribute.nameIndex_channel]

theorem holds_of_content {a : MethodAttribute} {info : Bytes} (h : m.content a = .ok info) :
    m.Holds a info := by
  cases a with
  | raw a => exact (Except.ok.inj h).symm
  | channel i c =>
    cases c with
    | declaration v => exact AnnotationSet.laidOut_of_encode h
    | parameter v => exact ParameterChannel.laidOut_of_encode h

theorem laidOut_of_encode {bs : Bytes} (h : m.encode = .ok bs) : m.LaidOut bs := by
  obtain ⟨hlength, items, hitems, rfl⟩ := Method.encode_eq_ok_iff.mp h
  have hall := mapM_eq_ok_iff.mp hitems
  have hcounted := counted_word items (by rwa [← hall.length_eq])
  rw [← hall.length_eq] at hcounted
  refine ⟨items, _, hall.imp fun a item hitem => ?_, hcounted, by simp only [List.append_assoc]⟩
  obtain ⟨info, hinfo, hwritten⟩ := encodeAttribute_eq_ok_iff.mp hitem
  exact ⟨info, holds_of_content hinfo, attributeLaidOut_of_encode hwritten⟩

end Method

theorem Pool.laidOut_encode {p : Pool} (h : p.slots.size ≤ maxSlots) : p.LaidOut p.encode :=
  ⟨_, rfl, by rw [number_word, count, toNat_toUInt16 h], rfl⟩

theorem laidOut_of_encode {c : ClassFile} {bs : Bytes} (hpool : c.pool.slots.size ≤ Pool.maxSlots)
    (h : c.encode = .ok bs) : c.LaidOut bs := by
  obtain ⟨hinterfaces, hmethods, hattributes, methods, attributes, hms, has, rfl⟩ :=
    encodeParts_eq_ok_iff.mp (encode_eq_ok_iff.mp h)
  have hallMethods := mapM_eq_ok_iff.mp hms
  have hallAttributes := mapM_eq_ok_iff.mp has
  have hinterfaceTable :=
    counted_word (c.interfaceIndices.map Bytes.word) (by rwa [List.length_map])
  have hmethodTable := counted_word methods (by rwa [← hallMethods.length_eq])
  have hattributeTable := counted_word attributes (by rwa [← hallAttributes.length_eq])
  rw [List.length_map, ← List.flatMap_def] at hinterfaceTable
  rw [← hallMethods.length_eq] at hmethodTable
  rw [← hallAttributes.length_eq] at hattributeTable
  refine ⟨⟨c.pool.encode, _, methods, _, attributes, _⟩, Pool.laidOut_encode hpool, hinterfaceTable,
    hallMethods.imp fun _ _ => Method.laidOut_of_encode, hmethodTable,
    hallAttributes.imp fun _ _ => attributeLaidOut_of_encode, hattributeTable, ?_⟩
  simp only [headBytes, List.append_assoc]

/-! ## What can be written -/

/-- A channel has too many annotations for the fields of its attribute. -/
def Method.Overfull (m : Method) : Channel → Prop
  | .declaration v => 65535 < ((m.declared v).getD []).length
  | .parameter v =>
    (m.parameters v).count < 0 ∨ 255 < (m.parameters v).count ∨
      ∃ set ∈ ((m.parameters v).sets.getD []).take (m.parameters v).count.toNat, 65535 < set.length

theorem AnnotationSet.exists_encode_iff {set : AnnotationSet} :
    (∃ bs, set.encode = .ok bs) ↔ set.length ≤ maxWord := by
  simp only [AnnotationSet.encode_eq_ok_iff, exists_and_left, exists_eq, and_true]

theorem AnnotationSet.exists_mapM_encode_iff {sets : List AnnotationSet} :
    (∃ parts, sets.mapM AnnotationSet.encode = .ok parts) ↔ ∀ set ∈ sets, set.length ≤ maxWord := by
  simp only [exists_mapM_eq_ok_iff, AnnotationSet.exists_encode_iff]

theorem ParameterChannel.exists_encode_iff {p : ParameterChannel} :
    (∃ bs, p.encode = .ok bs) ↔ (0 ≤ p.count ∧ p.count ≤ maxByte) ∧
      ∀ set ∈ (p.sets.getD []).take p.count.toNat, set.length ≤ maxWord := by
  have hwritten : (∀ set ∈ p.written, set.length ≤ maxWord) ↔
      ∀ set ∈ (p.sets.getD []).take p.count.toNat, set.length ≤ maxWord := by
    simp only [written, List.forall_mem_append]
    refine and_iff_left fun set hset => ?_
    rw [List.eq_of_mem_replicate hset]
    exact Nat.zero_le _
  rw [← hwritten, ← AnnotationSet.exists_mapM_encode_iff]
  simp only [encode_eq_ok_iff_written]
  constructor
  · rintro ⟨bs, hcount, parts, hparts, -⟩
    exact ⟨hcount, parts, hparts⟩
  · rintro ⟨hcount, parts, hparts⟩
    exact ⟨_, hcount, parts, hparts, rfl⟩

theorem Method.exists_encodeChannel_iff {m : Method} {c : Channel} :
    (∃ bs, m.encodeChannel c = .ok bs) ↔ ¬ m.Overfull c := by
  cases c with
  | declaration v =>
    rw [Method.encodeChannel, AnnotationSet.exists_encode_iff, Overfull, Nat.not_lt]
    rfl
  | parameter v =>
    rw [Method.encodeChannel, ParameterChannel.exists_encode_iff, Overfull]
    simp only [not_or, not_exists, not_and, Int.not_lt, Nat.not_lt, and_assoc]
    rfl

theorem exists_encodeAttribute_iff {nameIndex : UInt16} {info : Bytes} :
    (∃ bs, encodeAttribute nameIndex info = .ok bs) ↔ info.length ≤ maxDword := by
  simp only [encodeAttribute_eq_ok_iff, exists_and_left, exists_eq, and_true]

theorem Method.exists_encodeAttribute_iff {m : Method} {a : MethodAttribute} :
    (∃ bs, m.encodeAttribute a = .ok bs) ↔ ∃ info, m.content a = .ok info ∧
      info.length ≤ maxDword := by
  simp only [Method.encodeAttribute_eq_ok_iff]
  constructor
  · rintro ⟨bs, info, hinfo, hbs⟩
    exact ⟨info, hinfo, ClassFile.exists_encodeAttribute_iff.mp ⟨bs, hbs⟩⟩
  · rintro ⟨info, hinfo, hlength⟩
    obtain ⟨bs, hbs⟩ := ClassFile.exists_encodeAttribute_iff.mpr hlength
    exact ⟨bs, info, hinfo, hbs⟩

theorem Method.exists_encode_iff {m : Method} :
    (∃ bs, m.encode = .ok bs) ↔ m.attributes.length ≤ maxWord ∧
      ∀ a ∈ m.attributes, ∃ info, m.content a = .ok info ∧ info.length ≤ maxDword := by
  simp only [← Method.exists_encodeAttribute_iff, ← exists_mapM_eq_ok_iff, Method.encode_eq_ok_iff]
  constructor
  · rintro ⟨bs, hlength, parts, hparts, -⟩
    exact ⟨hlength, parts, hparts⟩
  · rintro ⟨hlength, parts, hparts⟩
    exact ⟨_, hlength, parts, hparts, rfl⟩

theorem exists_encode_iff {c : ClassFile} :
    (∃ bs, c.encode = .ok bs) ↔ c.interfaceIndices.length ≤ maxWord ∧ c.methods.length ≤ maxWord ∧
      c.attributes.length ≤ maxWord ∧ (∀ m ∈ c.methods, ∃ bs, m.encode = .ok bs) ∧
        ∀ a ∈ c.attributes, a.info.length ≤ maxDword := by
  have hattributes : (∀ a ∈ c.attributes, a.info.length ≤ maxDword) ↔
      ∀ a ∈ c.attributes, ∃ bs, encodeAttribute a.nameIndex a.info = .ok bs := by
    simp only [exists_encodeAttribute_iff]
  simp only [hattributes, ← exists_mapM_eq_ok_iff, encode_eq_ok_iff, encodeParts_eq_ok_iff]
  constructor
  · rintro ⟨bs, hinterfaces, hmethods, hattributes, methods, attributes, hms, has, -⟩
    exact ⟨hinterfaces, hmethods, hattributes, ⟨methods, hms⟩, attributes, has⟩
  · rintro ⟨hinterfaces, hmethods, hattributes, ⟨methods, hms⟩, attributes, has⟩
    exact ⟨_, hinterfaces, hmethods, hattributes, methods, attributes, hms, has, rfl⟩

/-- A class whose attributes have a content of less than 4 GiB is written unless a list is too long
for its count: then it is laid out with the true number in every field. -/
theorem encode_exact {c : ClassFile} (hpool : c.pool.slots.size ≤ 65535)
    (hmethods : ∀ m ∈ c.methods, ∀ a ∈ m.attributes, ∀ info, m.content a = .ok info →
      info.length < 4294967296)
    (hattributes : ∀ a ∈ c.attributes, a.info.length < 4294967296) :
    ((∃ e, c.encode = .error e) ↔
      65535 < c.interfaceIndices.length ∨ 65535 < c.methods.length ∨ 65535 < c.attributes.length ∨
        ∃ m ∈ c.methods, 65535 < m.attributes.length ∨
          ∃ i channel, .channel i channel ∈ m.attributes ∧ m.Overfull channel) ∧
    ∀ bs, c.encode = .ok bs → c.LaidOut bs := by
  refine ⟨?_, fun bs => laidOut_of_encode hpool⟩
  have hmethod (m : Method) (hm : m ∈ c.methods) : (∃ bs, m.encode = .ok bs) ↔
      ¬ (65535 < m.attributes.length ∨
        ∃ i channel, .channel i channel ∈ m.attributes ∧ m.Overfull channel) := by
    rw [Method.exists_encode_iff, not_or, Nat.not_lt]
    refine and_congr_right fun _ => ⟨?_, fun hall a ha => ?_⟩
    · rintro hall ⟨i, channel, hmem, hoverfull⟩
      obtain ⟨info, hinfo, -⟩ := hall _ hmem
      exact Method.exists_encodeChannel_iff.mp ⟨info, hinfo⟩ hoverfull
    · obtain ⟨info, hinfo⟩ : ∃ info, m.content a = .ok info := by
        cases a with
        | raw a => exact ⟨a.info, rfl⟩
        | channel i channel =>
          exact Method.exists_encodeChannel_iff.mpr fun hoverfull =>
            hall ⟨i, channel, ha, hoverfull⟩
      exact ⟨info, hinfo, Nat.le_of_lt_succ (hmethods m hm a ha info hinfo)⟩
  have hinfo : ∀ a ∈ c.attributes, a.info.length ≤ maxDword :=
    fun a ha => Nat.le_of_lt_succ (hattributes a ha)
  rw [exists_eq_error_iff, exists_encode_iff, and_iff_left hinfo, forall₂_congr hmethod]
  simp only [maxWord, not_and_or, Nat.not_le, not_forall, not_not, exists_prop]

/-- A class with one method, whose attribute for parameter annotations has one set and this
count. -/
def withCount (count : Int) : ClassFile where
  methods := [{ attributes := [.channel 1 (.parameter .visible)],
                visibleParameters := { sets := some [[]], count } }]

/-- A count that its field can hold, and the first that it cannot. -/
theorem encode_exact_withCount : (∃ bs, (withCount 2).encode = .ok bs ∧ (withCount 2).LaidOut bs) ∧
    ∃ e, (withCount 256).encode = .error e := by
  constructor
  · obtain ⟨-, hlaid⟩ := encode_exact (c := withCount 2) (by decide)
      (by
        rintro m hm a ha info hinfo
        obtain rfl := List.mem_singleton.mp hm
        obtain rfl := List.mem_singleton.mp ha
        obtain rfl : [2, 0, 0, 0, 0] = info := Except.ok.inj hinfo
        decide)
      (fun a ha => nomatch ha)
    exact ⟨_, rfl, hlaid _ rfl⟩
  · obtain ⟨hfails, -⟩ := encode_exact (c := withCount 256) (by decide)
      (by
        rintro m hm a ha info hinfo
        obtain rfl := List.mem_singleton.mp hm
        obtain rfl := List.mem_singleton.mp ha
        exact nomatch
          (hinfo : (Except.error (.parameterCount 256) : Except Fault Bytes) = .ok info))
      (fun a ha => nomatch ha)
    exact hfails.mpr
      (.inr (.inr (.inr ⟨_, .head _, .inr ⟨1, _, .head _, .inr (.inl (by decide))⟩⟩)))

end JarRepair.ClassFile

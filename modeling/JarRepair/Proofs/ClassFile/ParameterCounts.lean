import Mathlib.Data.List.Flatten
import JarRepair.Proofs.ClassFile.Layout

/-! # The counts of parameter annotations

A channel for parameter annotations has its sets and, next to them, the number of sets that is
written. After an edit the two may disagree. The number rules: sets past it are left out, and empty
ones are added up to it. -/

namespace JarRepair.ClassFile

open JarRepair.Outcome
open JarRepair.ClassFile.Parser

variable {pool : Pool}

/-! ## Edits -/

/-- Sets were removed, or the channel with all of them. The count may be any. -/
structure ParameterChannel.Edited (p p' : ParameterChannel) : Prop where
  absent : p.sets = none → p'.sets = none
  kept : (p'.sets.getD []).Sublist (p.sets.getD [])

/-- Nothing but the channels for parameters was edited. -/
structure Method.Edited (m m' : Method) : Prop where
  rest : m' = { m with
    visibleParameters := m'.visibleParameters, invisibleParameters := m'.invisibleParameters }
  parameters : ∀ v, (m.parameters v).Edited (m'.parameters v)

structure Edited (c c' : ClassFile) : Prop where
  rest : c' = { c with methods := c'.methods }
  methods : List.Forall₂ Method.Edited c.methods c'.methods

/-! ## What is read back -/

/-- An attribute of the method was taken apart into the channel. -/
def Method.places (m : Method) (c : Channel) : Bool :=
  m.attributes.any fun
    | .raw _ => false
    | .channel _ c' => c' == c

/-- The sets of a channel with an attribute are as many as its count says: those that it has, in
order, and empty ones past the last. -/
def ParameterChannel.settled (placed : Bool) (p : ParameterChannel) : ParameterChannel :=
  let sets := p.sets.getD []
  let n := p.count.toNat
  if placed then { p with sets := some (sets.take n ++ List.replicate (n - sets.length) []) }
  else { p with count := 0 }

def Method.settled (m : Method) : Method :=
  { m with
    visibleParameters := m.visibleParameters.settled (m.places (.parameter .visible))
    invisibleParameters := m.invisibleParameters.settled (m.places (.parameter .invisible)) }

def settled (c : ClassFile) : ClassFile := { c with methods := c.methods.map Method.settled }

namespace Method

variable {m : Method}

theorem places_iff {c : Channel} : m.places c = true ↔ ∃ i, .channel i c ∈ m.attributes := by
  simp only [places, List.any_eq_true]
  constructor
  · rintro ⟨a, ha, h⟩
    cases a with
    | raw a => simp at h
    | channel i c' =>
      obtain rfl := eq_of_beq h
      exact ⟨i, ha⟩
  · rintro ⟨i, hi⟩
    exact ⟨_, hi, beq_self_eq_true c⟩

@[simp] theorem declared_settled (m : Method) (v : Visibility) :
    m.settled.declared v = m.declared v := by
  cases v <;> rfl

@[simp] theorem parameters_settled (m : Method) (v : Visibility) :
    m.settled.parameters v = (m.parameters v).settled (m.places (.parameter v)) := by
  cases v <;> rfl

/-- A well-formed method has a channel exactly if the channel has an attribute. -/
theorem WellFormed.places_eq (hm : m.WellFormed pool) (c : Channel) : m.places c = m.has c := by
  rw [Bool.eq_iff_iff, hm.has_iff, places_iff]
  constructor
  · rintro ⟨i, hi⟩
    exact ⟨_, hi, MethodAttribute.name_channel i c⟩
  · rintro ⟨a, ha, hname⟩
    obtain ⟨i, hi⟩ := hm.placed.exists_channel ⟨a, List.mem_reverse.mpr ha, hname⟩
    exact ⟨i, List.mem_reverse.mp hi⟩

end Method

/-! ## Both are written alike -/

theorem ParameterChannel.settled_true (p : ParameterChannel) :
    p.settled true = { p with sets := some p.written } := rfl

theorem ParameterChannel.written_settled (p : ParameterChannel) :
    (p.settled true).written = p.written := by
  have hlength := length_written p
  have htake : p.written.take p.count.toNat = p.written :=
    List.take_of_length_le (Nat.le_of_eq hlength)
  calc (p.settled true).written
    _ = p.written.take p.count.toNat ++ List.replicate (p.count.toNat - p.written.length) [] := rfl
    _ = p.written := by rw [htake, hlength, Nat.sub_self, List.replicate_zero, List.append_nil]

@[simp] theorem ParameterChannel.encode_settled (p : ParameterChannel) :
    (p.settled true).encode = p.encode := by
  rw [encode, encode, written_settled]
  rfl

theorem Method.encodeChannel_settled {m : Method} {c : Channel} (h : m.places c = true) :
    m.settled.encodeChannel c = m.encodeChannel c := by
  cases c with
  | declaration v => simp only [encodeChannel, declared_settled]
  | parameter v => simp only [encodeChannel, parameters_settled, h, ParameterChannel.encode_settled]

theorem Method.encode_settled (m : Method) : m.settled.encode = m.encode := by
  have hattributes : m.settled.attributes.mapM m.settled.encodeAttribute =
      m.attributes.mapM m.encodeAttribute := by
    refine mapM_congr fun a ha => ?_
    cases a with
    | raw a => rfl
    | channel i c =>
      have hplaces : m.places c = true := places_iff.mpr ⟨i, ha⟩
      simp only [Method.encodeAttribute, encodeChannel_settled hplaces]
  rw [encode, encode, hattributes]
  rfl

theorem encode_settled (c : ClassFile) : c.settled.encode = c.encode := by
  have hmethods : c.settled.methods.mapM Method.encode = c.methods.mapM Method.encode := by
    rw [settled, List.mapM_map]
    exact mapM_congr fun m _ => m.encode_settled
  have hcount :
      wordCount .tooManyMethods c.settled.methods = wordCount .tooManyMethods c.methods := by
    simp only [wordCount, settled, List.length_map]
  rw [encode, encode, encodeParts, encodeParts, hmethods, hcount]
  rfl

/-! ## What is read back is well-formed -/

namespace ParameterChannel

variable {p p' : ParameterChannel}

theorem WellFormed.written_eq (hp : p.WellFormed pool) : p.written = p.sets.getD [] := by
  simp [written, hp.count_eq]

theorem mem_written {set : AnnotationSet} (h : set ∈ p.written) :
    set ∈ p.sets.getD [] ∨ set = [] := by
  rcases List.mem_append.mp h with h | h
  · exact .inl (List.mem_of_mem_take h)
  · exact .inr (List.eq_of_mem_replicate h)

theorem Edited.isSome_settled (h : p.Edited p') :
    (p'.settled p.sets.isSome).sets.isSome = p.sets.isSome := by
  cases hsets : p.sets with
  | none => simp [settled, h.absent hsets]
  | some sets => rfl

theorem Edited.wellFormed_settled (h : p.Edited p') (hp : p.WellFormed pool)
    (hcount : p.sets.isSome = true → 0 ≤ p'.count) :
    (p'.settled p.sets.isSome).WellFormed pool := by
  cases hsets : p.sets with
  | none => simp [settled, WellFormed, h.absent hsets]
  | some sets =>
    rw [Option.isSome_some, settled_true]
    refine ⟨?_, fun set hset => ?_⟩
    · rw [length_written, Int.toNat_of_nonneg (hcount (by rw [hsets]; rfl))]
    · rcases mem_written hset with hset | rfl
      · exact hp.sets set (h.kept.subset hset)
      · exact fun a ha => absurd ha List.not_mem_nil

end ParameterChannel

namespace Method

variable {m m' : Method}

theorem Edited.exists_eq (h : m.Edited m') :
    ∃ visible invisible,
      m' = { m with visibleParameters := visible, invisibleParameters := invisible } :=
  ⟨_, _, h.rest⟩

theorem Edited.attributes_eq (h : m.Edited m') : m'.attributes = m.attributes := by
  obtain ⟨_, _, rfl⟩ := h.exists_eq
  rfl

theorem Edited.declared_eq (h : m.Edited m') (v : Visibility) : m'.declared v = m.declared v := by
  obtain ⟨_, _, rfl⟩ := h.exists_eq
  cases v <;> rfl

theorem Edited.places_eq (h : m.Edited m') (c : Channel) : m'.places c = m.places c := by
  rw [places, h.attributes_eq, places]

theorem Edited.exists_channel (h : m.Edited m') {c : Channel} (hc : m'.places c = true) :
    ∃ i, .channel i c ∈ m.attributes :=
  places_iff.mp ((h.places_eq c).symm.trans hc)

/-- What is read back has the channels that were read at first. -/
theorem Edited.has_settled (h : m.Edited m') (hm : m.WellFormed pool) (c : Channel) :
    m'.settled.has c = m.has c := by
  cases c with
  | declaration v => rw [has, declared_settled, h.declared_eq, has]
  | parameter v =>
    rw [has, parameters_settled, h.places_eq, hm.places_eq]
    exact (h.parameters v).isSome_settled

theorem Edited.wellFormed_settled (h : m.Edited m') (hm : m.WellFormed pool)
    (hcount : ∀ v, m'.places (.parameter v) = true → 0 ≤ (m'.parameters v).count) :
    m'.settled.WellFormed pool := by
  have hhas := h.has_settled hm
  have hgood (c : Channel) : m'.settled.Good pool c := by
    cases c with
    | declaration v =>
      rw [Good, declared_settled, h.declared_eq]
      exact hm.good (.declaration v)
    | parameter v =>
      have hplaces : m'.places (.parameter v) = (m.parameters v).sets.isSome :=
        (h.places_eq _).trans (hm.places_eq _)
      rw [Good, parameters_settled, hplaces]
      exact (h.parameters v).wellFormed_settled (hm.good (.parameter v)) (hplaces ▸ hcount v)
  obtain ⟨_, _, rfl⟩ := h.exists_eq
  exact ⟨hm.name, hm.descriptor, hm.attributeNames, hm.placed, fun c => hhas c ▸ hm.has_iff c,
    hgood⟩

end Method

theorem Edited.exists_mem {c c' : ClassFile} (h : c.Edited c') :
    ∀ m' ∈ c'.methods, ∃ m ∈ c.methods, m.Edited m' :=
  forall_of_forall₂ h.methods (fun _ => id) fun m _ hedit hm => ⟨m, hm, hedit⟩

theorem Edited.wellFormed_settled {c c' : ClassFile} (h : c.Edited c') (hc : c.WellFormed)
    (hcount : ∀ m ∈ c'.methods, ∀ v, m.places (.parameter v) = true → 0 ≤ (m.parameters v).count) :
    c'.settled.WellFormed := by
  have hmethods : ∀ m ∈ c'.methods.map Method.settled, m.WellFormed c.pool := by
    rw [List.forall_mem_map]
    intro m' hm'
    obtain ⟨m, hm, hedit⟩ := h.exists_mem m' hm'
    exact hedit.wellFormed_settled (hc.methods m hm) (hcount m' hm')
  have hsettled : c'.settled = { c with methods := c'.methods.map Method.settled } := by
    rw [settled, h.rest]
  rw [hsettled]
  exact hc.withMethods hmethods

/-! ## What can be written -/

/-- The count fits in its field, and so does the length of what is written for that many sets. -/
def ParameterChannel.Fits (p : ParameterChannel) : Prop :=
  (0 ≤ p.count ∧ p.count ≤ 255) ∧ ∀ info, p.encode = .ok info → info.length < 4294967296

/-- What is written for a set that is not too long. -/
def AnnotationSet.bytes (set : AnnotationSet) : Bytes :=
  Bytes.word set.length.toUInt16 ++ set.flatMap Annotation.raw

theorem AnnotationSet.flatten_of_mapM_encode {sets : List AnnotationSet} {parts : List Bytes}
    (h : sets.mapM AnnotationSet.encode = .ok parts) : parts.flatten = sets.flatMap bytes := by
  induction sets generalizing parts with
  | nil =>
    obtain rfl := List.forall₂_nil_left_iff.mp (mapM_eq_ok_iff.mp h)
    rfl
  | cons set sets ih =>
    obtain ⟨part, parts, hpart, hparts, rfl⟩ := List.forall₂_cons_left_iff.mp (mapM_eq_ok_iff.mp h)
    obtain ⟨-, rfl⟩ := AnnotationSet.encode_eq_ok_iff.mp hpart
    rw [List.flatten_cons, List.flatMap_cons, ih (mapM_eq_ok_iff.mpr hparts)]
    rfl

/-- An empty set takes two bytes. -/
theorem AnnotationSet.length_flatMap_bytes_replicate (n : Nat) :
    ((List.replicate n []).flatMap bytes).length = 2 * n := by
  simp [bytes, Bytes.word, Nat.mul_comm]

namespace ParameterChannel

variable {p p' : ParameterChannel}

theorem length_of_encode {info : Bytes} (h : p.encode = .ok info) :
    info.length = 1 + (p.written.flatMap AnnotationSet.bytes).length := by
  obtain ⟨-, parts, hparts, rfl⟩ := encode_eq_ok_iff_written.mp h
  rw [List.length_cons, AnnotationSet.flatten_of_mapM_encode hparts, Nat.add_comm]

/-- Removing sets makes an attribute no longer; at most 255 empty sets are added. -/
theorem Edited.length_encode_le (h : p.Edited p') (hp : p.WellFormed pool) {info info' : Bytes}
    (hinfo : p.encode = .ok info) (hinfo' : p'.encode = .ok info') :
    info'.length ≤ info.length + 510 := by
  obtain ⟨⟨-, hcount⟩, -⟩ := encode_eq_ok_iff_written.mp hinfo'
  have hkept : ((p'.sets.getD []).take p'.count.toNat).Sublist (p.sets.getD []) :=
    (List.take_sublist _ _).trans h.kept
  have hlength := (hkept.flatMap AnnotationSet.bytes).length_le
  rw [length_of_encode hinfo, length_of_encode hinfo', hp.written_eq, written, List.flatMap_append,
    List.length_append, AnnotationSet.length_flatMap_bytes_replicate]
  simp only [maxByte] at hcount
  omega

/-- Whether an edited channel can be written depends on its count only. -/
theorem Edited.exists_encode_iff (h : p.Edited p') (hp : p.WellFormed pool)
    (hencode : ∃ info, p.encode = .ok info) :
    (∃ info, p'.encode = .ok info) ↔ 0 ≤ p'.count ∧ p'.count ≤ 255 := by
  obtain ⟨-, hsets⟩ := ParameterChannel.exists_encode_iff.mp hencode
  rw [hp.count_eq, Int.toNat_natCast, List.take_length] at hsets
  rw [ParameterChannel.exists_encode_iff]
  exact and_iff_left fun set hset => hsets set (h.kept.subset (List.mem_of_mem_take hset))

end ParameterChannel

namespace Method

variable {m m' : Method}

/-- An edited method is written exactly if its channels for parameters fit in their attributes. -/
theorem Edited.exists_encode_iff (h : m.Edited m') (hm : m.WellFormed pool)
    (hencode : ∃ bs, m.encode = .ok bs) :
    (∃ bs, m'.encode = .ok bs) ↔ ∀ v, m'.places (.parameter v) = true → (m'.parameters v).Fits := by
  obtain ⟨hlength, hcontents⟩ := Method.exists_encode_iff.mp hencode
  have hwritten (v : Visibility) (hv : m'.places (.parameter v) = true) :
      (∃ info, (m'.parameters v).encode = .ok info) ↔
        0 ≤ (m'.parameters v).count ∧ (m'.parameters v).count ≤ 255 := by
    obtain ⟨i, hi⟩ := h.exists_channel hv
    obtain ⟨info, hinfo, -⟩ := hcontents _ hi
    exact (h.parameters v).exists_encode_iff (hm.good (.parameter v)) ⟨info, hinfo⟩
  rw [Method.exists_encode_iff, h.attributes_eq, and_iff_right hlength]
  constructor
  · intro hall v hv
    obtain ⟨i, hi⟩ := h.exists_channel hv
    obtain ⟨info, hinfo, hle⟩ := hall _ hi
    refine ⟨(hwritten v hv).mp ⟨info, hinfo⟩, fun info' hinfo' => ?_⟩
    obtain rfl := Except.ok.inj (hinfo.symm.trans hinfo')
    exact Nat.lt_succ_of_le hle
  · intro hall a ha
    cases a with
    | raw a => exact hcontents _ ha
    | channel i c =>
      cases c with
      | declaration v =>
        obtain ⟨info, hinfo, hle⟩ := hcontents _ ha
        refine ⟨info, ?_, hle⟩
        rw [content, encodeChannel, h.declared_eq]
        exact hinfo
      | parameter v =>
        have hv : m'.places (.parameter v) = true := (h.places_eq _).trans (places_iff.mpr ⟨i, ha⟩)
        obtain ⟨hcount, hlt⟩ := hall v hv
        obtain ⟨info, hinfo⟩ := (hwritten v hv).mpr hcount
        exact ⟨info, hinfo, Nat.le_of_lt_succ (hlt info hinfo)⟩

theorem length_content_le {bs : Bytes} (h : m.encode = .ok bs) {a : MethodAttribute}
    (ha : a ∈ m.attributes) {info : Bytes} (hinfo : m.content a = .ok info) :
    info.length ≤ bs.length := by
  obtain ⟨-, parts, hparts, rfl⟩ := Method.encode_eq_ok_iff.mp h
  obtain ⟨b, hb⟩ := exists_mapM_eq_ok_iff.mp ⟨parts, hparts⟩ a ha
  have hle := (List.sublist_flatten_of_mem (mem_of_mapM_eq_ok hparts ha hb)).length_le
  obtain ⟨info', hinfo', hwritten⟩ := Method.encodeAttribute_eq_ok_iff.mp hb
  obtain rfl := Except.ok.inj (hinfo'.symm.trans hinfo)
  obtain ⟨-, rfl⟩ := ClassFile.encodeAttribute_eq_ok_iff.mp hwritten
  simp only [List.length_append] at hle ⊢
  omega

theorem Edited.length_encode_le (h : m.Edited m') (hm : m.WellFormed pool) {bs : Bytes}
    (hbs : m.encode = .ok bs) {v : Visibility} (hv : m'.places (.parameter v) = true)
    {info' : Bytes} (hinfo' : (m'.parameters v).encode = .ok info') :
    info'.length ≤ bs.length + 510 := by
  obtain ⟨i, hi⟩ := h.exists_channel hv
  obtain ⟨info, hinfo, -⟩ := (Method.exists_encode_iff.mp ⟨bs, hbs⟩).2 _ hi
  calc info'.length
    _ ≤ info.length + 510 := (h.parameters v).length_encode_le (hm.good (.parameter v)) hinfo hinfo'
    _ ≤ bs.length + 510 := Nat.add_le_add_right (length_content_le hbs hi hinfo) 510

end Method

theorem length_method_le {c : ClassFile} {data : Bytes} (h : c.encode = .ok data) {m : Method}
    (hm : m ∈ c.methods) {bs : Bytes} (hbs : m.encode = .ok bs) : bs.length ≤ data.length := by
  obtain ⟨-, -, -, methods, attributes, hmethods, -, rfl⟩ :=
    encodeParts_eq_ok_iff.mp (encode_eq_ok_iff.mp h)
  have hle := (List.sublist_flatten_of_mem (mem_of_mapM_eq_ok hmethods hm hbs)).length_le
  simp only [List.length_append]
  omega

theorem Edited.exists_encode_iff {c c' : ClassFile} (h : c.Edited c') (hc : c.WellFormed)
    (hencode : ∃ data, c.encode = .ok data) : (∃ bs, c'.encode = .ok bs) ↔
      ∀ m ∈ c'.methods, ∀ v, m.places (.parameter v) = true → (m.parameters v).Fits := by
  obtain ⟨hinterfaces, hlength, hattributes, hmethods, hinfo⟩ :=
    ClassFile.exists_encode_iff.mp hencode
  rw [h.methods.length_eq] at hlength
  have hmethod : (∀ m ∈ c'.methods, ∃ bs, m.encode = .ok bs) ↔
      ∀ m ∈ c'.methods, ∀ v, m.places (.parameter v) = true → (m.parameters v).Fits := by
    refine forall₂_congr fun m' hm' => ?_
    obtain ⟨m, hm, hedit⟩ := h.exists_mem m' hm'
    exact hedit.exists_encode_iff (hc.methods m hm) (hmethods m hm)
  rw [ClassFile.exists_encode_iff, ← hmethod]
  obtain ⟨methods, rfl⟩ : ∃ methods, c' = { c with methods } := ⟨_, h.rest⟩
  simp only [hinterfaces, hlength, hattributes, true_and]
  exact and_iff_left hinfo

/-- A class that was read, with sets for parameters removed and their counts set, is written exactly
if every count with an attribute fits in a byte. It is read back with as many sets as the counts
say.

Only next to 4 GiB a count can also be so large that the empty sets for it make an attribute too
long. -/
theorem decode_of_encode_edited {data : Bytes} {c c' : ClassFile} (hread : decode data = .ok c)
    (hedit : c.Edited c') :
    ((∃ bs, c'.encode = .ok bs) ↔
      ∀ m ∈ c'.methods, ∀ v, m.places (.parameter v) = true → (m.parameters v).Fits) ∧
    (data.length + 510 < 4294967296 → ((∃ bs, c'.encode = .ok bs) ↔
      ∀ m ∈ c'.methods, ∀ v, m.places (.parameter v) = true →
        0 ≤ (m.parameters v).count ∧ (m.parameters v).count ≤ 255)) ∧
    ∀ bs, c'.encode = .ok bs → decode bs = .ok c'.settled := by
  obtain ⟨hc, hencode⟩ := decode_eq_ok_iff.mp hread
  have hwritten := hedit.exists_encode_iff hc ⟨data, hencode⟩
  refine ⟨hwritten, fun hlength => ?_, fun bs hbs => ?_⟩
  · rw [hwritten]
    refine forall₂_congr fun m' hm' => forall₂_congr fun v hv => and_iff_left fun info' hinfo' => ?_
    obtain ⟨m, hm, hmethod⟩ := hedit.exists_mem m' hm'
    obtain ⟨b, hb⟩ := (ClassFile.exists_encode_iff.mp ⟨data, hencode⟩).2.2.2.1 m hm
    have hinfo := hmethod.length_encode_le (hc.methods m hm) hb hv hinfo'
    have hb := length_method_le hencode hm hb
    omega
  · have hcount : ∀ m ∈ c'.methods, ∀ v, m.places (.parameter v) = true →
        0 ≤ (m.parameters v).count :=
      fun m hm v hv => (hwritten.mp ⟨bs, hbs⟩ m hm v hv).1.1
    -- the edited class need not be well-formed; the settled one is, and it is written with the same
    -- bytes
    rw [← c'.encode_settled] at hbs
    exact decode_eq_ok_iff.mpr ⟨hedit.wellFormed_settled hc hcount, hbs⟩

/-- Removes the visible set of the first parameter and sets the count. -/
def dropFirst (count : Int) (c : ClassFile) : ClassFile :=
  { c with methods := c.methods.map fun m =>
    { m with visibleParameters := { sets := m.visibleParameters.sets.map (List.drop 1), count } } }

theorem edited_dropFirst (count : Int) (c : ClassFile) : c.Edited (c.dropFirst count) := by
  refine ⟨rfl, ?_⟩
  rw [dropFirst, List.forall₂_map_right_iff, List.forall₂_same]
  refine fun m _ => ⟨rfl, fun v => ?_⟩
  cases v with
  | visible =>
    refine ⟨fun hsets => ?_, ?_⟩
    · simpa [Method.parameters] using hsets
    · cases hsets : m.visibleParameters.sets with
      | none => simp [Method.parameters, hsets]
      | some sets => simpa [Method.parameters, hsets] using List.drop_sublist 1 sets
  | invisible => exact ⟨id, List.Sublist.refl _⟩

/-- A class with a method of two parameters, of which the second is annotated. The attribute is
there a second time, with other content. -/
def secondAnnotated : Bytes :=
  Bytes.dword magic ++ [0, 0, 0, 52] ++
    Pool.encode ⟨#[.unusable, Pool.textSlot "A", .entry Tag.classRef [0, 1], Pool.textSlot "m",
      Pool.textSlot "(II)V", Pool.textSlot "RuntimeVisibleParameterAnnotations",
      Pool.textSlot "LX;"]⟩ ++
    [0, 33, 0, 2, 0, 0, 0, 0, 0, 0] ++
    [0, 1, 0, 1, 0, 3, 0, 4, 0, 2, 0, 5, 0, 0, 0, 9, 2, 0, 0, 0, 1, 0, 6, 0, 0, 0, 5, 0, 0, 0, 1,
      99] ++ [0, 0]

/-- The annotated set comes first, and an empty one after it. Of 256 sets none are written. -/
theorem decode_of_encode_edited_secondAnnotated : ∃ c bs, decode secondAnnotated = .ok c ∧
    (c.dropFirst 2).encode = .ok bs ∧ decode bs = .ok (c.dropFirst 2).settled ∧
      ¬ ∃ bs, (c.dropFirst 256).encode = .ok bs := by
  have hrun : ∃ c bs, decode secondAnnotated = .ok c ∧ (c.dropFirst 2).encode = .ok bs ∧
      ∃ m ∈ (c.dropFirst 256).methods, m.places (.parameter .visible) = true ∧
        (m.parameters .visible).count = 256 := ⟨_, _, rfl, rfl, _, .head _, rfl, rfl⟩
  obtain ⟨c, bs, hread, hbs, m, hm, hplaces, hcount⟩ := hrun
  obtain ⟨-, -, hback⟩ := decode_of_encode_edited hread (edited_dropFirst 2 c)
  obtain ⟨-, hfits, -⟩ := decode_of_encode_edited hread (edited_dropFirst 256 c)
  refine ⟨c, bs, hread, hbs, hback bs hbs, fun hencode => ?_⟩
  obtain ⟨-, hle⟩ := (hfits (by decide)).mp hencode m hm .visible hplaces
  rw [hcount] at hle
  exact absurd hle (by decide)

/-! ## Next to 4 GiB -/

/-- A class with a method that has an attribute for one visible set. -/
def withSet (set : AnnotationSet) (count : Int) : ClassFile where
  major := 52
  pool := ⟨#[.unusable, Pool.textSlot "A", .entry Tag.classRef [0, 1], Pool.textSlot "m",
    Pool.textSlot "(I)V", Pool.textSlot "RuntimeVisibleParameterAnnotations",
    Pool.textSlot "LX;"]⟩
  access := 33
  thisClass := 2
  name := "A"
  fields := [0, 0]
  methods := [
    { access := 1
      nameIndex := 3
      descriptorIndex := 4
      name := "m"
      descriptor := "(I)V"
      attributes := [.channel 5 (.parameter .visible)]
      visibleParameters := { sets := some [set], count } }]

theorem wellFormed_withSet {set : AnnotationSet} (h : set.WellFormed (withSet [] 1).pool) :
    (withSet set 1).WellFormed := by
  have hempty : (withSet [] 1).WellFormed := by
    have hrun : ∃ data, (withSet [] 1).encode = .ok data ∧ decode data = .ok (withSet [] 1) :=
      ⟨_, rfl, rfl⟩
    obtain ⟨data, -, hread⟩ := hrun
    exact (decode_eq_ok_iff.mp hread).1
  have hmethods : ∀ m ∈ (withSet set 1).methods, m.WellFormed (withSet [] 1).pool := by
    intro m hm
    obtain rfl := List.mem_singleton.mp hm
    have hm := hempty.methods _ List.mem_cons_self
    refine { hm with has_iff := ?_, good := ?_ }
    · rintro (v | v)
      · cases v with
        | visible => exact hm.has_iff (.declaration .visible)
        | invisible => exact hm.has_iff (.declaration .invisible)
      · cases v with
        | visible => exact hm.has_iff (.parameter .visible)
        | invisible => exact hm.has_iff (.parameter .invisible)
    · rintro (v | v)
      · cases v with
        | visible => exact hm.good (.declaration .visible)
        | invisible => exact hm.good (.declaration .invisible)
      · cases v with
        | visible => exact ⟨rfl, List.forall_mem_singleton.mpr h⟩
        | invisible => exact hm.good (.parameter .invisible)
  exact hempty.withMethods hmethods

theorem edited_withSet (set : AnnotationSet) (count count' : Int) :
    (withSet set count).Edited (withSet set count') := by
  refine ⟨rfl, .cons ⟨rfl, fun v => ?_⟩ .nil⟩
  cases v with
  | visible => exact ⟨nofun, List.Sublist.refl _⟩
  | invisible => exact ⟨id, List.Sublist.refl _⟩

/-- The class is written if its count and the length of its attribute fit in their fields. -/
theorem exists_encode_withSet_iff {set : AnnotationSet} (hset : set.length ≤ maxWord) (n : Nat) :
    (∃ bs, (withSet set (n + 1 : Nat)).encode = .ok bs) ↔
      n + 1 ≤ maxByte ∧ 1 + (set.bytes.length + 2 * n) ≤ maxDword := by
  let p : ParameterChannel := { sets := some [set], count := (n + 1 : Nat) }
  have hwritten : p.written = set :: List.replicate n [] := by
    simp [p, ParameterChannel.written]
  have hlength {info : Bytes} (hinfo : p.encode = .ok info) :
      info.length = 1 + (set.bytes.length + 2 * n) := by
    rw [ParameterChannel.length_of_encode hinfo, hwritten, List.flatMap_cons, List.length_append,
      AnnotationSet.length_flatMap_bytes_replicate]
  have hencode : (∃ info, p.encode = .ok info) ↔ n + 1 ≤ maxByte := by
    rw [ParameterChannel.exists_encode_iff, and_iff_left fun s hs => ?_]
    · simp only [p]
      omega
    · obtain rfl := List.mem_singleton.mp (List.mem_of_mem_take hs)
      exact hset
  have hmethod : (∀ m ∈ (withSet set (n + 1 : Nat)).methods, ∃ bs, m.encode = .ok bs) ↔
      ∃ info, p.encode = .ok info ∧ info.length ≤ maxDword := by
    rw [withSet, List.forall_mem_singleton, Method.exists_encode_iff, List.forall_mem_singleton]
    exact and_iff_right (Nat.le_of_ble_eq_true rfl)
  rw [exists_encode_iff, hmethod, ← hencode]
  constructor
  · rintro ⟨-, -, -, ⟨info, hinfo, hle⟩, -⟩
    exact ⟨⟨info, hinfo⟩, hlength hinfo ▸ hle⟩
  · rintro ⟨⟨info, hinfo⟩, hle⟩
    exact ⟨Nat.zero_le _, Nat.le_of_ble_eq_true rfl, Nat.zero_le _,
      ⟨info, hinfo, (hlength hinfo).symm ▸ hle⟩, fun _ ha => absurd ha List.not_mem_nil⟩

/-- Elements of an annotation, each of them a number. -/
def numberElements (n : Nat) : Bytes := (List.replicate n [0, 6, 73, 0, 1]).flatten

theorem length_numberElements (n : Nat) : (numberElements n).length = 5 * n := by
  rw [numberElements, List.length_flatten, List.map_replicate, List.sum_replicate_nat,
    Nat.mul_comm]
  rfl

theorem reads_numberElements (n : Nat) :
    Reads (skipTimes (do skip 2; elementValue (maxDepth + 1)) n) (numberElements n) () := by
  have hname : Reads (skip 2) [0, 6] () := reads_skip_iff.mpr rfl
  have hindex : Reads (skip 2) [0, 1] () := reads_skip_iff.mpr rfl
  have hvalue : Reads (elementValue (maxDepth + 1)) [73, 0, 1] () := (reads_byte 73).bind hindex
  have helement : Reads (do skip 2; elementValue (maxDepth + 1)) [0, 6, 73, 0, 1] () :=
    hname.bind hvalue
  induction n with
  | zero => exact reads_pure ()
  | succ n ih =>
    rw [skipTimes_succ, numberElements, List.replicate_succ, List.flatten_cons]
    exact helement.bind ih

/-- An annotation of 65539 bytes. -/
def broad : Annotation where
  type := "LX;"
  raw := Bytes.word 6 ++ (Bytes.word 13107 ++ numberElements 13107)

theorem wellFormed_broad : broad.WellFormed (withSet [] 1).pool :=
  ⟨6, (reads_word 6).bind ((reads_word 13107).bind
    ((reads_numberElements 13107).bind_pure fun _ => 6)), rfl⟩

theorem length_broad : broad.raw.length = 65539 := by
  rw [broad, List.length_append, List.length_append, length_numberElements]
  rfl

/-- An attribute for this set alone leaves five bytes of 4 GiB. -/
def crowdedSet : AnnotationSet := List.replicate 65533 broad

theorem length_crowdedSet : crowdedSet.bytes.length = 4294967289 := by
  rw [crowdedSet, AnnotationSet.bytes, List.length_append, List.length_flatMap,
    List.map_replicate, List.sum_replicate_nat, length_broad]
  rfl

/-- Whether a class can be written does not depend on its counts alone: the empty sets for a count
that fits in its field can make an attribute too long. -/
theorem encode_crowded_fails : ∃ data, decode data = .ok (withSet crowdedSet 1) ∧
    (withSet crowdedSet 1).Edited (withSet crowdedSet 255) ∧
    (∀ m ∈ (withSet crowdedSet 255).methods, ∀ v, m.places (.parameter v) = true →
      0 ≤ (m.parameters v).count ∧ (m.parameters v).count ≤ 255) ∧
    ¬ ∃ bs, (withSet crowdedSet 255).encode = .ok bs := by
  have hlength : crowdedSet.length ≤ maxWord := by
    rw [crowdedSet, List.length_replicate]
    decide
  have hset : crowdedSet.WellFormed (withSet [] 1).pool := fun a ha =>
    List.eq_of_mem_replicate ha ▸ wellFormed_broad
  obtain ⟨data, hdata⟩ := (exists_encode_withSet_iff hlength 0).mpr
    (by rw [length_crowdedSet]; decide)
  refine ⟨data, decode_eq_ok_iff.mpr ⟨wellFormed_withSet hset, hdata⟩, edited_withSet _ _ _, ?_, ?_⟩
  · intro m hm v hv
    obtain rfl := List.mem_singleton.mp hm
    cases v with
    | visible => exact ⟨by decide, by decide⟩
    | invisible => exact absurd hv (by decide)
  · intro hencode
    obtain ⟨-, hle⟩ := (exists_encode_withSet_iff hlength 254).mp hencode
    rw [length_crowdedSet] at hle
    exact absurd hle (by decide)

end JarRepair.ClassFile

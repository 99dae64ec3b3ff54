import JarRepair.Proofs.ClassFile.Annotations

/-! # Methods that can be written and read back

Of the attributes that are named like a channel, decoding takes the first apart and keeps the
others. A method is well-formed if its place holders stand exactly there, a channel is held exactly
if there is an attribute of its name, and what the channels hold is well-formed. These are the
methods that decoding makes, and each is read back from what is written for it. -/

namespace JarRepair.ClassFile

open JarRepair.Outcome
open JarRepair.ClassFile.Parser

variable {pool pool' : Pool}

/-! ## Attributes -/

theorem encodeAttribute_eq_ok_iff {nameIndex : UInt16} {info bs : Bytes} :
    encodeAttribute nameIndex info = .ok bs ↔ info.length ≤ maxDword ∧
      bs = Bytes.word nameIndex ++ Bytes.dword info.length.toUInt32 ++ info := by
  rw [encodeAttribute, ite_error_eq_ok_iff, Nat.not_lt]

instance : Local (attributeEntry pool) := by
  unfold attributeEntry
  infer_instance

theorem reads_attributeEntry_iff {bs : Bytes} {a : Attribute} :
    Reads (attributeEntry pool) bs a ↔
      encodeAttribute a.nameIndex a.info = .ok bs ∧ pool.utf8 a.nameIndex = .ok a.name := by
  simp only [attributeEntry, reads_bind_iff, reads_word_iff, reads_dword_iff, reads_bytes_iff,
    reads_liftM_iff, reads_pure_iff, encodeAttribute_eq_ok_iff]
  constructor
  · rintro ⟨nameIndex, _, rfl, _, ⟨length, _, rfl, _, ⟨info, _, ⟨rfl, hlength⟩, _,
      ⟨name, _, ⟨hname, rfl⟩, _, ⟨rfl, rfl⟩, rfl⟩, rfl⟩, rfl⟩, rfl⟩
    have hlt := length.toNat_lt
    refine ⟨⟨by simp only [maxDword]; omega, ?_⟩, hname⟩
    simp only [hlength, toUInt32_toNat, List.append_nil, List.append_assoc]
  · rintro ⟨⟨hlength, rfl⟩, hname⟩
    exact ⟨a.nameIndex, _, rfl, _, ⟨a.info.length.toUInt32, _, rfl, _, ⟨a.info, _,
      ⟨rfl, (toNat_toUInt32 hlength).symm⟩, _, ⟨a.name, _, ⟨hname, rfl⟩, _, ⟨rfl, rfl⟩, rfl⟩, rfl⟩,
      rfl⟩, by simp⟩

/-! ## Channels -/

theorem Channel.attributeName_injective {c c' : Channel} (h : c.attributeName = c'.attributeName) :
    c = c' := by
  have hc := ofName?_attributeName c
  rw [h, ofName?_attributeName] at hc
  exact (Option.some.inj hc).symm

namespace Method

/-- The method without what a channel holds. -/
def forget (m : Method) : Channel → Method
  | .declaration v => m.setDeclared none v
  | .parameter v => m.setParameters {} v

/-- Two methods hold the same in a channel. -/
def Agree (m m' : Method) : Channel → Prop
  | .declaration v => m.declared v = m'.declared v
  | .parameter v => m.parameters v = m'.parameters v

theorem agree_forget_of_ne {m : Method} {c c' : Channel} (h : c ≠ c') :
    (m.forget c').Agree m c := by
  rcases c with v | v <;> rcases c' with v' | v' <;> cases v <;> cases v' <;>
    first | exact absurd rfl h | rfl

theorem has_forget (m : Method) (c : Channel) : (m.forget c).has c = false := by
  rcases c with v | v <;> cases v <;> rfl

theorem forget_forget (m : Method) (c : Channel) : (m.forget c).forget c = m.forget c := by
  rcases c with v | v <;> cases v <;> rfl

theorem Agree.trans {m₁ m₂ m₃ : Method} {c : Channel} (h : m₁.Agree m₂ c) (h' : m₂.Agree m₃ c) :
    m₁.Agree m₃ c := by
  cases c <;> exact Eq.trans h h'

theorem Agree.symm {m m' : Method} {c : Channel} (h : m.Agree m' c) : m'.Agree m c := by
  cases c <;> exact Eq.symm h

theorem Agree.has_eq {m m' : Method} {c : Channel} (h : m.Agree m' c) : m.has c = m'.has c := by
  cases c <;> simp only [Agree] at h <;> simp only [has, h]

theorem Agree.encodeChannel_eq {m m' : Method} {c : Channel} (h : m.Agree m' c) :
    m.encodeChannel c = m'.encodeChannel c := by
  cases c <;> simp only [Agree] at h <;> simp only [encodeChannel, h]

/-- Methods that are the same without a channel agree in all others. -/
theorem agree_of_forget_eq {m m' : Method} {c c' : Channel} (h : m'.forget c' = m.forget c')
    (hne : c ≠ c') : m'.Agree m c :=
  (agree_forget_of_ne hne).symm.trans (h ▸ agree_forget_of_ne hne)

end Method

/-- The count of a channel is that of its sets, zero if it is absent. -/
def ParameterChannel.WellFormed (pool : Pool) (p : ParameterChannel) : Prop :=
  match p.sets with
  | none => p.count = 0
  | some sets => p.count = sets.length ∧ ∀ set ∈ sets, set.WellFormed pool

theorem ParameterChannel.WellFormed.mono {p : ParameterChannel} (hp : p.WellFormed pool)
    (h : pool ≤ pool') : p.WellFormed pool' := by
  obtain ⟨sets, count⟩ := p
  cases sets with
  | none => exact hp
  | some sets => exact ⟨hp.1, fun set hs => (hp.2 set hs).mono h⟩

theorem ParameterChannel.WellFormed.count_eq {p : ParameterChannel} (hp : p.WellFormed pool) :
    p.count = (p.sets.getD []).length := by
  obtain ⟨sets, count⟩ := p
  cases sets with
  | none => exact hp
  | some sets => exact hp.1

theorem ParameterChannel.WellFormed.sets {p : ParameterChannel} (hp : p.WellFormed pool) :
    ∀ set ∈ p.sets.getD [], set.WellFormed pool := by
  obtain ⟨sets, count⟩ := p
  cases sets with
  | none => simp
  | some sets => exact hp.2

/-- What a channel of a method holds is well-formed. -/
def Method.Good (pool : Pool) (m : Method) : Channel → Prop
  | .declaration v => ∀ set, m.declared v = some set → set.WellFormed pool
  | .parameter v => (m.parameters v).WellFormed pool

theorem Method.Agree.good_iff {m m' : Method} {c : Channel} (h : m.Agree m' c) :
    m.Good pool c ↔ m'.Good pool c := by
  cases c <;> simp only [Agree] at h <;> simp only [Good, h]

theorem Method.Good.mono {m : Method} {c : Channel} (hm : m.Good pool c) (h : pool ≤ pool') :
    m.Good pool' c := by
  cases c with
  | declaration v => exact fun set hs => (hm set hs).mono h
  | parameter v => exact ParameterChannel.WellFormed.mono hm h

namespace Method

theorem eq_setDeclared {m m' : Method} {v : Visibility} {set : Option AnnotationSet}
    (h : m'.forget (.declaration v) = m.forget (.declaration v)) (hset : m'.declared v = set) :
    m' = m.setDeclared set v := by
  subst hset
  cases m
  cases m'
  cases v <;> simp_all [forget, setDeclared, declared]

theorem eq_setParameters {m m' : Method} {v : Visibility} {p : ParameterChannel}
    (h : m'.forget (.parameter v) = m.forget (.parameter v)) (hp : m'.parameters v = p) :
    m' = m.setParameters p v := by
  subst hp
  cases m
  cases m'
  cases v <;> simp_all [forget, setParameters, parameters]

@[simp] theorem declared_setDeclared (m : Method) (set : Option AnnotationSet) (v : Visibility) :
    (m.setDeclared set v).declared v = set := by
  cases v <;> rfl

@[simp] theorem parameters_setParameters (m : Method) (p : ParameterChannel) (v : Visibility) :
    (m.setParameters p v).parameters v = p := by
  cases v <;> rfl

theorem forget_setDeclared (m : Method) (set : Option AnnotationSet) (v : Visibility) :
    (m.setDeclared set v).forget (.declaration v) = m.forget (.declaration v) := by
  cases v <;> rfl

theorem forget_setParameters (m : Method) (p : ParameterChannel) (v : Visibility) :
    (m.setParameters p v).forget (.parameter v) = m.forget (.parameter v) := by
  cases v <;> rfl

end Method

/-- Reading a channel changes this channel only, to what is written as the content read. -/
theorem readChannel_eq_ok_iff {m m' : Method} {info : Bytes} {c : Channel} :
    readChannel pool m info c = .ok m' ↔
      m'.has c = true ∧ m'.forget c = m.forget c ∧ m'.encodeChannel c = .ok info ∧
      m'.Good pool c := by
  cases c with
  | declaration v =>
    simp only [readChannel, bind_eq_ok_iff, whole_eq_ok_iff, reads_annotationSet_iff,
      pure_eq_ok_iff]
    constructor
    · rintro ⟨set, ⟨hencode, hgood⟩, rfl⟩
      refine ⟨?_, m.forget_setDeclared _ v, ?_, ?_⟩
      · simp [Method.has]
      · simpa [Method.encodeChannel] using hencode
      · simpa [Method.Good] using hgood
    · rintro ⟨hhas, hforget, hencode, hgood⟩
      obtain ⟨set, hset⟩ := Option.isSome_iff_exists.mp hhas
      refine ⟨set, ⟨?_, hgood set hset⟩, Method.eq_setDeclared hforget hset⟩
      simpa [Method.encodeChannel, hset] using hencode
  | parameter v =>
    simp only [readChannel, bind_eq_ok_iff, whole_eq_ok_iff, reads_parameterSets_iff,
      pure_eq_ok_iff]
    constructor
    · rintro ⟨sets, ⟨hencode, hgood⟩, rfl⟩
      refine ⟨?_, m.forget_setParameters _ v, ?_, ?_⟩
      · simp [Method.has]
      · simpa [Method.encodeChannel] using hencode
      · simpa [Method.Good, ParameterChannel.WellFormed] using hgood
    · rintro ⟨hhas, hforget, hencode, hgood⟩
      obtain ⟨sets, hsets⟩ := Option.isSome_iff_exists.mp hhas
      simp only [Method.Good, ParameterChannel.WellFormed, hsets] at hgood
      have hchannel : m'.parameters v = { sets := some sets, count := sets.length } := by
        rw [← hgood.1, ← hsets]
      refine ⟨sets, ⟨?_, hgood.2⟩, Method.eq_setParameters hforget hchannel⟩
      simpa [Method.encodeChannel, hchannel] using hencode

/-! ## Place holders -/

/-- In a list that has the last attribute first, the first of each channel's name is its place
holder and all other attributes are kept as they were read. -/
def Placed : List MethodAttribute → Prop
  | [] => True
  | .raw a :: before =>
    Placed before ∧ ∀ c, Channel.ofName? a.name = some c → ∃ b ∈ before, b.name = a.name
  | .channel _ c :: before => Placed before ∧ ∀ b ∈ before, b.name ≠ c.attributeName

theorem Placed.tail {a : MethodAttribute} {before : List MethodAttribute}
    (h : Placed (a :: before)) :
    Placed before := by
  cases a <;> exact h.1

/-- If there is an attribute of a channel's name, there is its place holder. -/
theorem Placed.exists_channel {as : List MethodAttribute} (h : Placed as) {c : Channel}
    (hname : ∃ a ∈ as, a.name = c.attributeName) : ∃ i, .channel i c ∈ as := by
  induction as with
  | nil => simp at hname
  | cons a before ih =>
    have hbefore : (∃ b ∈ before, b.name = c.attributeName) → ∃ i, .channel i c ∈ a :: before := by
      intro hb
      obtain ⟨i, hi⟩ := ih h.tail hb
      exact ⟨i, List.mem_cons_of_mem a hi⟩
    obtain ⟨b, hb, hbname⟩ := hname
    rcases List.mem_cons.mp hb with rfl | hb
    · cases b with
      | raw r =>
        rw [MethodAttribute.name_raw] at hbname
        obtain ⟨b', hb', hb'name⟩ := h.2 c (by rw [hbname, Channel.ofName?_attributeName])
        exact hbefore ⟨b', hb', hb'name.trans hbname⟩
      | channel i c' =>
        obtain rfl := Channel.attributeName_injective hbname
        exact ⟨i, List.mem_cons_self⟩
    · exact hbefore ⟨b, hb, hbname⟩

/-- No attribute before a place holder has the name of its channel. -/
theorem Placed.name_ne {after before : List MethodAttribute} (h : Placed (after ++ before))
    {i : UInt16} {c : Channel} (hc : .channel i c ∈ after) {b : MethodAttribute} (hb : b ∈ before) :
    b.name ≠ c.attributeName := by
  induction after with
  | nil => simp at hc
  | cons a after ih =>
    rcases List.mem_cons.mp hc with rfl | hc
    · exact h.2 b (List.mem_append_right after hb)
    · exact ih h.tail hc

/-! ## Well-formed methods -/

namespace Method

structure WellFormed (pool : Pool) (m : Method) : Prop where
  name : pool.utf8 m.nameIndex = .ok m.name
  descriptor : pool.utf8 m.descriptorIndex = .ok m.descriptor
  attributeNames : ∀ a ∈ m.attributes, pool.utf8 a.nameIndex = .ok a.name
  placed : Placed m.attributes.reverse
  has_iff : ∀ c, m.has c = true ↔ ∃ a ∈ m.attributes, a.name = c.attributeName
  good : ∀ c, m.Good pool c

theorem WellFormed.mono {m : Method} (hm : m.WellFormed pool) (h : pool ≤ pool') :
    m.WellFormed pool' where
  name := Pool.utf8_mono h hm.name
  descriptor := Pool.utf8_mono h hm.descriptor
  attributeNames a ha := Pool.utf8_mono h (hm.attributeNames a ha)
  placed := hm.placed
  has_iff := hm.has_iff
  good c := (hm.good c).mono h

/-- A method before its attributes are read. -/
def blank (m : Method) : Method where
  access := m.access
  nameIndex := m.nameIndex
  descriptorIndex := m.descriptorIndex
  name := m.name
  descriptor := m.descriptor

/-- With the attributes that have been taken so far, the last one first. -/
def withTaken (m : Method) (found : List MethodAttribute) : Method :=
  { m with attributes := found.reverse }

theorem agree_withTaken (m : Method) (found : List MethodAttribute) (c : Channel) :
    (m.withTaken found).Agree m c := by
  cases c with
  | declaration v => cases v <;> rfl
  | parameter v => cases v <;> rfl

@[simp] theorem mem_attributes_withTaken {m : Method} {found : List MethodAttribute}
    {a : MethodAttribute} : a ∈ (m.withTaken found).attributes ↔ a ∈ found := List.mem_reverse

@[simp] theorem has_withTaken (m : Method) (found : List MethodAttribute) (c : Channel) :
    (m.withTaken found).has c = m.has c := (m.agree_withTaken found c).has_eq

theorem good_withTaken_iff {m : Method} {found : List MethodAttribute} {c : Channel} :
    (m.withTaken found).Good pool c ↔ m.Good pool c := (m.agree_withTaken found c).good_iff

theorem blank_forget (m : Method) (c : Channel) : (m.forget c).blank = m.blank := by
  rcases c with v | v <;> cases v <;> rfl

theorem blank_eq_iff {m m' : Method} : m'.blank = m.blank ↔
    m'.access = m.access ∧ m'.nameIndex = m.nameIndex ∧ m'.descriptorIndex = m.descriptorIndex ∧
      m'.name = m.name ∧ m'.descriptor = m.descriptor := by
  simp [blank]

theorem WellFormed.blank_withTaken {m : Method} (hname : pool.utf8 m.nameIndex = .ok m.name)
    (hdescriptor : pool.utf8 m.descriptorIndex = .ok m.descriptor) :
    (m.blank.withTaken []).WellFormed pool where
  name := hname
  descriptor := hdescriptor
  attributeNames := by simp [withTaken]
  placed := trivial
  has_iff c := by
    rcases c with v | v <;> cases v <;> simp [withTaken, blank, has, declared, parameters]
  good c := by
    rcases c with v | v <;> cases v <;>
      simp [withTaken, blank, Good, declared, parameters, ParameterChannel.WellFormed]

theorem encodeAttribute_congr {m m' : Method} {a : MethodAttribute}
    (h : ∀ i c, a = .channel i c → m.Agree m' c) : m.encodeAttribute a = m'.encodeAttribute a := by
  cases a with
  | raw a => rfl
  | channel i c => simp only [Method.encodeAttribute, (h i c rfl).encodeChannel_eq]

end Method

/-! ## Taking attributes -/

theorem takeAttribute_eq_ok_iff {m m' : Method} {a : Attribute} {a' : MethodAttribute} :
    takeAttribute pool m a = .ok (m', a') ↔
      (m' = m ∧ a' = .raw a ∧ ∀ c, Channel.ofName? a.name = some c → m.has c = true) ∨
        ∃ c, a' = .channel a.nameIndex c ∧ a.name = c.attributeName ∧ m.has c = false ∧
          readChannel pool m a.info c = .ok m' := by
  rw [takeAttribute]
  split
  · rename_i hnone
    simp only [Except.ok.injEq, Prod.mk.injEq, hnone, reduceCtorEq, false_imp_iff, implies_true,
      and_true]
    constructor
    · rintro ⟨rfl, rfl⟩
      exact .inl ⟨rfl, rfl⟩
    · rintro (⟨rfl, rfl⟩ | ⟨c, -, hname, -⟩)
      · exact ⟨rfl, rfl⟩
      · rw [hname, Channel.ofName?_attributeName] at hnone
        simp at hnone
  · rename_i c hc
    have hname := (Channel.attributeName_of_ofName? hc).symm
    have hunique {c' : Channel} (h : a.name = c'.attributeName) : c' = c :=
      Channel.attributeName_injective (h.symm.trans hname)
    by_cases hhas : m.has c = true
    · simp only [hhas, if_true, Except.ok.injEq, Prod.mk.injEq, hc, Option.some.injEq, forall_eq']
      constructor
      · rintro ⟨rfl, rfl⟩
        exact .inl ⟨rfl, rfl, trivial⟩
      · rintro (⟨rfl, rfl, -⟩ | ⟨c', -, hname', hhas', -⟩)
        · exact ⟨rfl, rfl⟩
        · rw [hunique hname', hhas] at hhas'
          simp at hhas'
    · rw [if_neg hhas]
      rw [Bool.not_eq_true] at hhas
      have hraw : ¬ ∀ c, Channel.ofName? a.name = some c → m.has c = true := fun h => by
        simp [h c hc] at hhas
      constructor
      · intro h
        split at h
        · rename_i m₁ hread
          simp only [Except.ok.injEq, Prod.mk.injEq] at h
          obtain ⟨rfl, rfl⟩ := h
          exact .inr ⟨c, rfl, hname, hhas, hread⟩
        · simp at h
      · rintro (⟨-, -, h⟩ | ⟨c', rfl, hname', -, hread⟩)
        · exact absurd h hraw
        · obtain rfl := hunique hname'
          rw [hread]

theorem Method.WellFormed.has_iff_exists_mem {m : Method} {found : List MethodAttribute}
    (hm : (m.withTaken found).WellFormed pool) (c : Channel) :
    m.has c = true ↔ ∃ b ∈ found, b.name = c.attributeName := by
  simpa using hm.has_iff c

/-- An attribute that stays as it was read is not the first of any channel. -/
theorem Method.WellFormed.takeRaw {m : Method} {found : List MethodAttribute} {a : Attribute}
    (hm : (m.withTaken found).WellFormed pool) (ha : pool.utf8 a.nameIndex = .ok a.name)
    (hraw : ∀ c, Channel.ofName? a.name = some c → m.has c = true) :
    (m.withTaken (.raw a :: found)).WellFormed pool := by
  have hhas := hm.has_iff_exists_mem
  refine ⟨hm.name, hm.descriptor, ?_, ?_, ?_, ?_⟩
  · simp only [mem_attributes_withTaken, List.forall_mem_cons]
    exact ⟨ha, fun b hb => hm.attributeNames b (mem_attributes_withTaken.mpr hb)⟩
  · rw [withTaken, List.reverse_reverse]
    refine ⟨by simpa [withTaken] using hm.placed, fun c hc => ?_⟩
    obtain ⟨b, hb, hbname⟩ := (hhas c).mp (hraw c hc)
    exact ⟨b, hb, hbname.trans (Channel.attributeName_of_ofName? hc)⟩
  · intro c
    simp only [has_withTaken, mem_attributes_withTaken, List.mem_cons, or_and_right, exists_or,
      exists_eq_left, hhas]
    refine ⟨.inr, ?_⟩
    rintro (hc | hc)
    · rw [MethodAttribute.name_raw] at hc
      exact (hhas c).mp (hraw c (by rw [hc, Channel.ofName?_attributeName]))
    · exact hc
  · exact fun c => good_withTaken_iff.mpr (good_withTaken_iff.mp (hm.good c))

/-- The first attribute of a channel fills it. All that concerns other channels stays. -/
theorem Method.WellFormed.takeChannel {m m' : Method} {found : List MethodAttribute} {c : Channel}
    {i : UInt16} (hm : (m.withTaken found).WellFormed pool) (hi : pool.utf8 i = .ok c.attributeName)
    (hfree : ∀ b ∈ found, b.name ≠ c.attributeName) (hblank : m'.blank = m.blank)
    (hhas' : m'.has c = true) (hgood : m'.Good pool c) (hagree : ∀ c', c' ≠ c → m'.Agree m c') :
    (m'.withTaken (.channel i c :: found)).WellFormed pool := by
  obtain ⟨-, hnameIndex, hdescriptorIndex, hmname, hmdescriptor⟩ := blank_eq_iff.mp hblank
  refine ⟨?_, ?_, ?_, ?_, ?_, ?_⟩
  · simp only [withTaken, hnameIndex, hmname]
    exact hm.name
  · simp only [withTaken, hdescriptorIndex, hmdescriptor]
    exact hm.descriptor
  · simp only [mem_attributes_withTaken, List.forall_mem_cons]
    exact ⟨hi, fun b hb => hm.attributeNames b (mem_attributes_withTaken.mpr hb)⟩
  · rw [withTaken, List.reverse_reverse]
    exact ⟨by simpa [withTaken] using hm.placed, hfree⟩
  · intro c'
    simp only [has_withTaken, mem_attributes_withTaken, List.mem_cons, or_and_right, exists_or,
      exists_eq_left]
    by_cases hc : c' = c
    · subst hc
      simp [hhas']
    · rw [(hagree c' hc).has_eq, hm.has_iff_exists_mem c']
      refine ⟨.inr, ?_⟩
      rintro (hc' | hc')
      · exact absurd (Channel.attributeName_injective hc').symm hc
      · exact hc'
  · intro c'
    rw [good_withTaken_iff]
    by_cases hc : c' = c
    · exact hc ▸ hgood
    · exact (hagree c' hc).good_iff.mpr (good_withTaken_iff.mp (hm.good c'))

/-- Taking an attribute keeps a method well-formed. It is written as it was read, and so are the
attributes taken before. -/
theorem Method.WellFormed.take {m m' : Method} {found : List MethodAttribute} {a : Attribute}
    {a' : MethodAttribute} (hm : (m.withTaken found).WellFormed pool)
    (ha : pool.utf8 a.nameIndex = .ok a.name) (h : takeAttribute pool m a = .ok (m', a')) :
    (m'.withTaken (a' :: found)).WellFormed pool ∧ m'.blank = m.blank ∧
      m'.encodeAttribute a' = ClassFile.encodeAttribute a.nameIndex a.info ∧
      ∀ b ∈ found, m'.encodeAttribute b = m.encodeAttribute b := by
  rcases takeAttribute_eq_ok_iff.mp h with ⟨rfl, rfl, hraw⟩ | ⟨c, rfl, hname, hnot, hread⟩
  · exact ⟨hm.takeRaw ha hraw, rfl, rfl, fun _ _ => rfl⟩
  · obtain ⟨hhas', hforget, hencode, hgood⟩ := readChannel_eq_ok_iff.mp hread
    have hagree (c' : Channel) (hne : c' ≠ c) : m'.Agree m c' := agree_of_forget_eq hforget hne
    have hblank : m'.blank = m.blank := by rw [← blank_forget m' c, hforget, blank_forget]
    have hfree : ∀ b ∈ found, b.name ≠ c.attributeName := by
      intro b hb hbname
      rw [(hm.has_iff_exists_mem c).mpr ⟨b, hb, hbname⟩] at hnot
      simp at hnot
    refine ⟨hm.takeChannel (hname ▸ ha) hfree hblank hhas' hgood hagree, hblank, ?_, ?_⟩
    · simp [Method.encodeAttribute, hencode, Except.bind, bind]
    · refine fun b hb => encodeAttribute_congr fun i c' hb' => hagree c' ?_
      rintro rfl
      exact hfree b hb (by rw [hb', MethodAttribute.name_channel])

/-! ## Reading a method -/

theorem attributesOnto_succ (n : Nat) (m : Method) (found : List MethodAttribute) :
    attributesOnto pool (n + 1) m found =
      (attributeEntry pool).mapError
        (fun fault => { fault, repeats := repeatedOf m found.reverse }) >>=
        fun a => liftM ((takeAttribute pool m a).mapError fun fault =>
            ({ fault, repeats := repeatedOf m found.reverse } : Failure)) >>=
          fun r => attributesOnto pool n r.1 (r.2 :: found) := by
  funext c
  rw [bind_apply]
  dsimp only [Parser.mapError, attributesOnto]
  cases attributeEntry pool c with
  | error fault => rfl
  | ok r =>
    obtain ⟨a, c'⟩ := r
    simp only [Except.mapError, Except.bind, bind_apply, liftM_apply]
    cases takeAttribute pool m a <;> rfl

instance (n : Nat) (m : Method) (found : List MethodAttribute) :
    Local (attributesOnto pool n m found) := by
  induction n generalizing m found with
  | zero => exact inferInstanceAs (Local (pure (m.withTaken found)))
  | succ n ih =>
    rw [attributesOnto_succ]
    infer_instance

theorem reads_attributesOnto_succ_iff {n : Nat} {m m' : Method} {found : List MethodAttribute}
    {bs : Bytes} :
    Reads (attributesOnto pool (n + 1) m found) bs m' ↔
      ∃ (a : Attribute) (b : Bytes) (m₁ : Method) (a₁ : MethodAttribute) (bs₁ : Bytes),
        ClassFile.encodeAttribute a.nameIndex a.info = .ok b ∧ pool.utf8 a.nameIndex = .ok a.name ∧
          takeAttribute pool m a = .ok (m₁, a₁) ∧
          Reads (attributesOnto pool n m₁ (a₁ :: found)) bs₁ m' ∧
            bs = b ++ bs₁ := by
  simp only [attributesOnto_succ, reads_bind_iff, reads_mapError_iff, reads_attributeEntry_iff,
    reads_liftM_iff, mapError_eq_ok_iff, Prod.exists]
  constructor
  · rintro ⟨a, b, ⟨hb, ha⟩, bs₁, ⟨m₁, a₁, _, ⟨htake, rfl⟩, _, hrest, rfl⟩, rfl⟩
    exact ⟨a, b, m₁, a₁, bs₁, hb, ha, htake, hrest, rfl⟩
  · rintro ⟨a, b, m₁, a₁, bs₁, hb, ha, htake, hrest, rfl⟩
    exact ⟨a, b, ⟨hb, ha⟩, _, ⟨m₁, a₁, [], ⟨htake, rfl⟩, bs₁, hrest, rfl⟩, rfl⟩

/-- Reading attributes appends them to those taken before, and they are written as they were
read. -/
theorem Method.WellFormed.of_reads_attributesOnto {n : Nat} {m m' : Method}
    {found : List MethodAttribute} {bs : Bytes} (hm : (m.withTaken found).WellFormed pool)
    (h : Reads (attributesOnto pool n m found) bs m') :
    m'.WellFormed pool ∧ m'.blank = m.blank ∧
      (∀ b ∈ found, m'.encodeAttribute b = m.encodeAttribute b) ∧
      ∃ more parts, m'.attributes = found.reverse ++ more ∧ more.length = n ∧
        more.mapM m'.encodeAttribute = .ok parts ∧ bs = parts.flatten := by
  induction n generalizing m found bs with
  | zero =>
    obtain ⟨rfl, rfl⟩ := reads_pure_iff.mp h
    refine ⟨hm, rfl, ?_, [], [], ?_, rfl, rfl, rfl⟩
    · exact fun b _ => encodeAttribute_congr fun _ c _ => m.agree_withTaken found c
    · exact (List.append_nil _).symm
  | succ n ih =>
    obtain ⟨a, b, m₁, a₁, bs₁, hb, ha, htake, hrest, rfl⟩ := reads_attributesOnto_succ_iff.mp h
    obtain ⟨hm₁, hblank₁, hlast, hfound₁⟩ := hm.take ha htake
    obtain ⟨hm', hblank, hfound, more, parts, hattributes, hlength, hparts, rfl⟩ := ih hm₁ hrest
    refine ⟨hm', hblank.trans hblank₁, ?_, a₁ :: more, b :: parts, ?_, ?_, ?_, rfl⟩
    · exact fun d hd => (hfound d (List.mem_cons_of_mem a₁ hd)).trans (hfound₁ d hd)
    · simp [hattributes]
    · simp [hlength]
    · have hfirst : m'.encodeAttribute a₁ = .ok b := by
        rw [hfound a₁ List.mem_cons_self, hlast, hb]
      rw [mapM_eq_ok_iff] at hparts ⊢
      exact .cons hfirst hparts

/-! ## Reading a method back -/

namespace Method

/-- The method before its attributes from `todo` on are read. -/
def before (m : Method) : List MethodAttribute → Method
  | [] => { m with attributes := [] }
  | .raw _ :: todo => m.before todo
  | .channel _ c :: todo => (m.before todo).forget c

theorem agree_before {m : Method} {todo : List MethodAttribute} {c : Channel}
    (h : ∀ i, .channel i c ∉ todo) : (m.before todo).Agree m c := by
  induction todo with
  | nil =>
    cases c with
    | declaration v => cases v <;> rfl
    | parameter v => cases v <;> rfl
  | cons a todo ih =>
    have htodo : (m.before todo).Agree m c := ih fun i hi => h i (List.mem_cons_of_mem a hi)
    cases a with
    | raw a => exact htodo
    | channel i c' =>
      have hne : c ≠ c' := by
        rintro rfl
        exact h i List.mem_cons_self
      exact (agree_forget_of_ne hne).trans htodo

theorem has_before_of_mem {m : Method} {todo : List MethodAttribute} {c : Channel} {i : UInt16}
    (h : .channel i c ∈ todo) : (m.before todo).has c = false := by
  induction todo with
  | nil => simp at h
  | cons a todo ih =>
    cases a with
    | raw a =>
      rw [List.mem_cons] at h
      exact ih (h.resolve_left nofun)
    | channel i' c' =>
      by_cases hc : c = c'
      · subst hc
        exact has_forget _ _
      · rw [before, (agree_forget_of_ne hc).has_eq]
        refine ih ((List.mem_cons.mp h).resolve_left ?_)
        intro heq
        cases heq
        exact hc rfl

theorem good_forget (m : Method) (c : Channel) : (m.forget c).Good pool c := by
  rcases c with v | v <;> cases v <;>
    simp [forget, Good, setDeclared, setParameters, declared, parameters,
      ParameterChannel.WellFormed]

theorem good_before {m : Method} (hm : ∀ c, m.Good pool c) (todo : List MethodAttribute)
    (c : Channel) :
    (m.before todo).Good pool c := by
  induction todo with
  | nil => exact (agree_before (by simp)).good_iff.mpr (hm c)
  | cons a todo ih =>
    cases a with
    | raw a => exact ih
    | channel i c' =>
      by_cases hc : c = c'
      · subst hc
        exact good_forget _ c
      · exact (agree_forget_of_ne hc).good_iff.mpr ih

theorem blank_before (m : Method) (todo : List MethodAttribute) :
    (m.before todo).blank = m.blank := by
  induction todo with
  | nil => rfl
  | cons a todo ih =>
    cases a with
    | raw a => exact ih
    | channel i c => exact (blank_forget _ c).trans ih

theorem attributes_before (m : Method) (todo : List MethodAttribute) :
    (m.before todo).attributes = [] := by
  induction todo with
  | nil => rfl
  | cons a todo ih =>
    cases a with
    | raw a => exact ih
    | channel i c => rcases c with v | v <;> cases v <;> exact ih

/-- A method without attributes and channels is blank. -/
theorem eq_blank {m : Method} (hattributes : m.attributes = []) (hhas : ∀ c, m.has c = false)
    (hgood : ∀ c, m.Good pool c) : m = m.blank := by
  have hdeclared (v : Visibility) : m.declared v = none := by
    simpa [has] using hhas (.declaration v)
  have hparameters (v : Visibility) : m.parameters v = {} := by
    have hsets : (m.parameters v).sets = none := by simpa [has] using hhas (.parameter v)
    have hcount := hgood (.parameter v)
    simp only [Good, ParameterChannel.WellFormed, hsets] at hcount
    rw [← hsets, ← hcount]
  have hvisible := hdeclared .visible
  have hinvisible := hdeclared .invisible
  have hvisible' := hparameters .visible
  have hinvisible' := hparameters .invisible
  cases m
  simp_all [blank, declared, parameters]

theorem before_attributes {m : Method} (hm : m.WellFormed pool) :
    m.before m.attributes = m.blank := by
  rw [eq_blank (m.attributes_before _) ?_ (good_before hm.good _), blank_before]
  intro c
  by_cases hc : ∃ i, .channel i c ∈ m.attributes
  · obtain ⟨i, hi⟩ := hc
    exact has_before_of_mem hi
  · rw [not_exists] at hc
    rw [(agree_before hc).has_eq, ← Bool.not_eq_true, hm.has_iff]
    rintro ⟨a, ha, hname⟩
    obtain ⟨i, hi⟩ := hm.placed.exists_channel ⟨a, List.mem_reverse.mpr ha, hname⟩
    exact hc i (List.mem_reverse.mp hi)

end Method

/-- Attributes that are written from a well-formed method are taken back into it. -/
theorem Method.WellFormed.reads_attributesOnto {m : Method} (hm : m.WellFormed pool)
    {done todo : List MethodAttribute} (hsplit : m.attributes = done ++ todo) {parts : List Bytes}
    (hparts : todo.mapM m.encodeAttribute = .ok parts) :
    Reads (attributesOnto pool todo.length (m.before todo) done.reverse) parts.flatten m := by
  induction todo generalizing done parts with
  | nil =>
    simp only [List.mapM_nil, pure_eq_ok_iff] at hparts
    subst hparts
    rw [List.append_nil] at hsplit
    refine reads_pure_iff.mpr ⟨rfl, ?_⟩
    rw [List.reverse_reverse, ← hsplit]
    rfl
  | cons a todo ih =>
    simp only [List.mapM_cons, bind_eq_ok_iff, pure_eq_ok_iff] at hparts
    obtain ⟨b, hb, parts, hrest, rfl⟩ := hparts
    have hsplit' : m.attributes = (done ++ [a]) ++ todo := by simp [hsplit]
    have hmem : a ∈ m.attributes := by simp [hsplit]
    have hread := ih hsplit' hrest
    rw [List.reverse_append] at hread
    have hplaced : Placed (todo.reverse ++ (a :: done.reverse)) := by
      simpa [hsplit] using hm.placed
    have hlater {c : Channel} (hc : a.name = c.attributeName) (i : UInt16) : .channel i c ∉ todo :=
      fun hi => hplaced.name_ne (List.mem_reverse.mpr hi) List.mem_cons_self hc
    have hhas {c : Channel} (hc : a.name = c.attributeName) : (m.before todo).has c = true := by
      rw [(agree_before (hlater hc)).has_eq]
      exact (hm.has_iff c).mpr ⟨a, hmem, hc⟩
    rw [List.length_cons, List.flatten_cons]
    cases a with
    | raw r =>
      refine reads_attributesOnto_succ_iff.mpr
        ⟨r, b, m.before todo, .raw r, parts.flatten, hb, hm.attributeNames _ hmem, ?_, hread, rfl⟩
      refine takeAttribute_eq_ok_iff.mpr (.inl ⟨rfl, rfl, fun c hc => hhas ?_⟩)
      exact (Channel.attributeName_of_ofName? hc).symm
    | channel i c =>
      simp only [Method.encodeAttribute, bind_eq_ok_iff] at hb
      obtain ⟨info, hinfo, hb⟩ := hb
      have hagree := agree_before (m := m) (hlater (c := c) rfl)
      refine reads_attributesOnto_succ_iff.mpr
        ⟨{ nameIndex := i, name := c.attributeName, info }, b,
        m.before todo, .channel i c, parts.flatten, hb, hm.attributeNames _ hmem, ?_, hread, rfl⟩
      refine takeAttribute_eq_ok_iff.mpr (.inr ⟨c, rfl, rfl, has_forget _ c, ?_⟩)
      exact readChannel_eq_ok_iff.mpr ⟨hhas rfl, (forget_forget _ c).symm,
        hagree.encodeChannel_eq.trans hinfo, hagree.good_iff.mpr (hm.good c)⟩

/-! ## Methods -/

instance : Local (methodHead pool) := by
  unfold methodHead
  infer_instance

theorem method_eq : method pool = (methodHead pool).mapError (fun fault => { fault }) >>=
    fun r => attributesOnto pool r.2.toNat r.1 [] := rfl

instance : Local (method pool) := by
  rw [method_eq]
  infer_instance

theorem reads_methodHead_iff {bs : Bytes} {m : Method} {count : UInt16} :
    Reads (methodHead pool) bs (m, count) ↔
      bs = Bytes.word m.access ++ Bytes.word m.nameIndex ++ Bytes.word m.descriptorIndex ++
        Bytes.word count ∧
      m = m.blank ∧ pool.utf8 m.nameIndex = .ok m.name ∧
        pool.utf8 m.descriptorIndex = .ok m.descriptor := by
  simp only [methodHead, reads_bind_iff, reads_word_iff, reads_liftM_iff, reads_pure_iff,
    Prod.mk.injEq]
  constructor
  · rintro ⟨access, _, rfl, _,
      ⟨nameIndex, _, rfl, _, ⟨descriptorIndex, _, rfl, _, ⟨count, _, rfl, _,
      ⟨name, _, ⟨hname, rfl⟩, _, ⟨descriptor, _, ⟨hdescriptor, rfl⟩, _, ⟨rfl, rfl, rfl⟩, rfl⟩, rfl⟩,
      rfl⟩, rfl⟩, rfl⟩, rfl⟩
    exact ⟨by simp, rfl, hname, hdescriptor⟩
  · rintro ⟨rfl, hm, hname, hdescriptor⟩
    exact ⟨m.access, _, rfl, _,
      ⟨m.nameIndex, _, rfl, _, ⟨m.descriptorIndex, _, rfl, _, ⟨count, _, rfl,
      _, ⟨m.name, _, ⟨hname, rfl⟩, _, ⟨m.descriptor, _, ⟨hdescriptor, rfl⟩, _, ⟨rfl, hm, rfl⟩, rfl⟩,
      rfl⟩, rfl⟩, rfl⟩, rfl⟩, by simp⟩

theorem Method.encode_eq_ok_iff {m : Method} {bs : Bytes} :
    m.encode = .ok bs ↔ m.attributes.length ≤ maxWord ∧
      ∃ parts, m.attributes.mapM m.encodeAttribute = .ok parts ∧
        bs = Bytes.word m.access ++ Bytes.word m.nameIndex ++ Bytes.word m.descriptorIndex ++
          Bytes.word m.attributes.length.toUInt16 ++ parts.flatten := by
  simp only [Method.encode, bind_eq_ok_iff, wordCount_eq_ok_iff, pure_eq_ok_iff]
  constructor
  · rintro ⟨_, ⟨hlength, rfl⟩, parts, hparts, rfl⟩
    exact ⟨hlength, parts, hparts, rfl⟩
  · rintro ⟨hlength, parts, hparts, rfl⟩
    exact ⟨_, ⟨hlength, rfl⟩, parts, hparts, rfl⟩

/-- What is read as a method is what is written for a well-formed one. -/
theorem reads_method_iff {bs : Bytes} {m : Method} :
    Reads (method pool) bs m ↔ m.encode = .ok bs ∧ m.WellFormed pool := by
  simp only [method_eq, reads_bind_iff, reads_mapError_iff, Prod.exists, Method.encode_eq_ok_iff]
  constructor
  · rintro ⟨m₀, count, _, hhead, b, hrest, rfl⟩
    obtain ⟨rfl, hm₀, hname, hdescriptor⟩ := reads_methodHead_iff.mp hhead
    rw [hm₀] at hrest
    obtain ⟨hm, hblank, -, more, parts, hattributes, hlength, hparts, rfl⟩ :=
      (Method.WellFormed.blank_withTaken hname hdescriptor).of_reads_attributesOnto hrest
    obtain ⟨haccess, hnameIndex, hdescriptorIndex, -, -⟩ := Method.blank_eq_iff.mp hblank
    rw [List.reverse_nil, List.nil_append] at hattributes
    have hlt := count.toNat_lt
    refine ⟨⟨by simp only [hattributes, hlength, maxWord]; omega, parts, hattributes ▸ hparts, ?_⟩,
      hm⟩
    rw [haccess, hnameIndex, hdescriptorIndex, hattributes, hlength, toUInt16_toNat]
    rfl
  · rintro ⟨⟨hlength, parts, hparts, rfl⟩, hm⟩
    refine ⟨m.blank, m.attributes.length.toUInt16, _,
      reads_methodHead_iff.mpr ⟨rfl, rfl, hm.name, hm.descriptor⟩, parts.flatten, ?_, rfl⟩
    have h := hm.reads_attributesOnto (List.nil_append _).symm hparts
    rwa [Method.before_attributes hm, ← toNat_toUInt16 hlength] at h

end JarRepair.ClassFile

import JarRepair.Proofs.ClassFile.Realignment

/-! # What marking does

A method that gets a marker has it at the end of its invisible set. If it had no such set, it gets
the attribute for one behind its other attributes. The pool gets the texts that it does not have.
All else stays, and the class stays well-formed, also if marking fails. -/

namespace JarRepair.ClassFile

open JarRepair.Outcome

variable {pool pool' : Pool}

/-- The attribute name of the invisible channel. -/
abbrev invisibleName : Bytes := (Channel.declaration .invisible).attributeName

/-! ## Methods -/

namespace Method

variable {m m' : Method}

/-- Whether the invisible set has an annotation of the type. -/
def isMarked (m : Method) (type : Bytes) : Bool := AnnotationSet.has (m.invisible.getD []) type

/-- How a method gets a marker, and the pool what the marker needs. -/
inductive Marks (type : Bytes) (pool : Pool) (m : Method) : Pool → Method → Prop
  | annotate {i : UInt16} {pool₁ : Pool} (hset : m.invisible.isSome = true)
    (htype : pool.addUtf8 type = .ok (i, pool₁)) :
    Marks type pool m pool₁ (m.annotate ( Annotation.marker type i))
  | openInvisible {i j : UInt16} {pool₁ pool₂ : Pool} (hset : m.invisible = none)
    (htype : pool.addUtf8 type = .ok (i, pool₁))
    (hname : pool₁.addUtf8 invisibleName = .ok (j, pool₂)) : Marks type pool m pool₂
      ((m.openInvisible j).annotate ( Annotation.marker type i))

theorem agree_annotate (m : Method) (a : Annotation) {c : Channel}
    (h : c ≠ .declaration .invisible) :
    (m.annotate a).Agree m c := by
  rcases c with v | v <;> cases v <;> first | exact absurd rfl h | rfl

theorem WellFormed.annotate (hm : m.WellFormed pool) (hset : m.has (.declaration .invisible) = true)
    {a : Annotation} (ha : a.WellFormed pool) : (m.annotate a).WellFormed pool where
  name := hm.name
  descriptor := hm.descriptor
  attributeNames := hm.attributeNames
  placed := hm.placed
  has_iff c := by
    by_cases hc : c = .declaration .invisible
    · subst hc
      exact ⟨fun _ => (hm.has_iff _).mp hset, fun _ => rfl⟩
    · rw [(m.agree_annotate a hc).has_eq]
      exact hm.has_iff c
  good c := by
    by_cases hc : c = .declaration .invisible
    · subst hc
      obtain ⟨set, hsome⟩ := Option.isSome_iff_exists.mp hset
      intro set' hset'
      have hold : ∀ b ∈ set, b.WellFormed pool := hm.good (.declaration .invisible) set hsome
      have hnew : set' = set ++ [a] := by
        rw [declared] at hsome
        simpa [Method.annotate, declared, hsome, eq_comm] using hset'
      rw [hnew]
      intro b hb
      rcases List.mem_append.mp hb with hb | hb
      · exact hold b hb
      · rw [List.mem_singleton] at hb
        exact hb ▸ ha
    · exact (m.agree_annotate a hc).good_iff.mpr (hm.good c)

theorem agree_openInvisible (m : Method) (j : UInt16) {c : Channel}
    (h : c ≠ .declaration .invisible) :
    (m.openInvisible j).Agree m c := by
  rcases c with v | v <;> cases v <;> first | exact absurd rfl h | rfl

theorem WellFormed.openInvisible (hm : m.WellFormed pool) (hset : m.invisible = none) {j : UInt16}
    (hj : pool.utf8 j = .ok invisibleName) : (m.openInvisible j).WellFormed pool where
  name := hm.name
  descriptor := hm.descriptor
  attributeNames a ha := by
    rcases List.mem_append.mp ha with ha | ha
    · exact hm.attributeNames a ha
    · rw [List.mem_singleton] at ha
      subst ha
      exact hj
  placed := by
    rw [Method.openInvisible, List.reverse_append, List.reverse_singleton, List.singleton_append]
    refine ⟨hm.placed, fun b hb hname => ?_⟩
    have hhas := (hm.has_iff (.declaration .invisible)).mpr ⟨b, List.mem_reverse.mp hb, hname⟩
    simp [has, declared, hset] at hhas
  has_iff c := by
    simp only [Method.openInvisible, List.mem_append, List.mem_singleton, or_and_right, exists_or,
      exists_eq_left, MethodAttribute.name_channel]
    by_cases hc : c = .declaration .invisible
    · subst hc
      exact ⟨fun _ => .inr rfl, fun _ => rfl⟩
    · have hne : invisibleName ≠ c.attributeName :=
        fun h => hc (Channel.attributeName_injective h).symm
      have hagree := m.agree_openInvisible j hc
      rw [Method.openInvisible] at hagree
      rw [hagree.has_eq, hm.has_iff c]
      exact ⟨.inl, fun h => h.resolve_right hne⟩
  good c := by
    by_cases hc : c = .declaration .invisible
    · subst hc
      intro set hset' b hb
      obtain rfl : set = [] := by simpa [Method.openInvisible, declared, eq_comm] using hset'
      simp at hb
    · exact (m.agree_openInvisible j hc).good_iff.mpr (hm.good c)

theorem Marks.pool_le {type : Bytes} (h : m.Marks type pool pool' m') : pool ≤ pool' := by
  cases h with
  | annotate _ htype => exact Pool.le_of_addUtf8 htype
  | openInvisible _ htype hname => exact (Pool.le_of_addUtf8 htype).trans (Pool.le_of_addUtf8 hname)

theorem Marks.pool_wellFormed {type : Bytes} (h : m.Marks type pool pool' m')
    (hp : pool.WellFormed) :
    pool'.WellFormed := by
  cases h with
  | annotate _ htype => exact hp.addUtf8 htype
  | openInvisible _ htype hname => exact (hp.addUtf8 htype).addUtf8 hname

theorem Marks.wellFormed {type : Bytes} (h : m.Marks type pool pool' m') (hp : pool.WellFormed)
    (hm : m.WellFormed pool) : m'.WellFormed pool' := by
  have hm' := hm.mono h.pool_le
  cases h with
  | annotate hset htype =>
    exact hm'.annotate hset ( Annotation.wellFormed_marker (Pool.utf8_of_addUtf8 hp htype))
  | openInvisible hset htype hname =>
    have hi := Pool.utf8_of_addUtf8 hp htype
    have hj := Pool.utf8_of_addUtf8 (hp.addUtf8 htype) hname
    refine (hm'.openInvisible hset hj).annotate rfl ( Annotation.wellFormed_marker ?_)
    exact Pool.utf8_mono (Pool.le_of_addUtf8 hname) hi

end Method

/-! ## Classes -/

variable {c c' : ClassFile} {k : Nat} {type : Bytes}

theorem modify_of_getElem? {ms : List Method} {m : Method} (h : ms[k]? = some m)
    (f : Method → Method) :
    ms.modify k f = ms.set k (f m) := by
  have : Inhabited Method := ⟨m⟩
  rw [List.modify_eq_set, h, Option.getD_some]

/-- Marking leaves a class with the marker or gives a method the marker. -/
theorem mark_eq_ok_cases {added : Bool} (h : mark k type c = (.ok added, c')) :
    (added = false ∧ c' = c ∧ ∀ m, c.methods[k]? = some m → m.isMarked type = true) ∨
      (added = true ∧ ∃ m pool' m', c.methods[k]? = some m ∧ m.isMarked type = false ∧
        m.Marks type c.pool pool' m' ∧
          c' = { c with pool := pool', methods := c.methods.set k m' }) := by
  rw [mark] at h
  split at h
  · rename_i hnone
    simp only [Prod.mk.injEq, Except.ok.injEq] at h
    exact .inl ⟨h.1.symm, h.2.symm, by simp [hnone]⟩
  · rename_i m hm
    split at h
    · rename_i hmarked
      simp only [Prod.mk.injEq, Except.ok.injEq] at h
      exact .inl ⟨h.1.symm, h.2.symm, fun m' hm' => by
        obtain rfl := Option.some.inj (hm.symm.trans hm')
        exact hmarked⟩
    · rename_i hmarked
      right
      split at h
      · simp at h
      · rename_i i pool₁ htype
        dsimp only at h
        split at h
        · rename_i hset
          rw [mapMethod, modify_of_getElem? hm] at h
          simp only [Prod.mk.injEq, Except.ok.injEq] at h
          exact ⟨h.1.symm, m, pool₁, _, hm, eq_false_of_ne_true hmarked, .annotate hset htype,
            h.2.symm⟩
        · rename_i hset
          split at h
          · simp at h
          · rename_i j pool₂ hname
            rw [mapMethod, modify_of_getElem? hm] at h
            simp only [Prod.mk.injEq, Except.ok.injEq] at h
            exact ⟨h.1.symm, m, pool₂, _, hm, eq_false_of_ne_true hmarked,
              .openInvisible (by simpa using hset) htype hname, h.2.symm⟩

/-- Marking that fails leaves at most the constant for the type. -/
theorem mark_eq_error_cases {e : Error} (h : mark k type c = (.error e, c')) :
    c' = c ∨ ∃ i pool', c.pool.addUtf8 type = .ok (i, pool') ∧ c' = { c with pool := pool' } := by
  rw [mark] at h
  split at h
  · simp at h
  · split at h
    · simp at h
    · split at h
      · exact .inl (Prod.mk.inj h).2.symm
      · rename_i i pool' htype
        dsimp only at h
        split at h
        · simp at h
        · split at h
          · exact .inr ⟨i, pool', htype, (Prod.mk.inj h).2.symm⟩
          · simp at h

theorem WellFormed.withPool (hc : c.WellFormed) (hp : pool.WellFormed) (h : c.pool ≤ pool) :
    WellFormed { c with pool := pool } where
  pool := hp
  name := Pool.className_mono h hc.name
  superName := Pool.optional_mono (Pool.className_mono h) hc.superName
  interfaces := by
    have hall := mapM_eq_ok_iff.mp hc.interfaces
    exact mapM_eq_ok_iff.mpr (hall.imp fun _ _ => Pool.className_mono h)
  fields := hc.fields
  methods m hm := (hc.methods m hm).mono h
  attributeNames a ha := Pool.utf8_mono h (hc.attributeNames a ha)
  innerClasses := rowsAfter_mono h hc.innerClasses

/-- Marking keeps a class well-formed, whether or not it fails. -/
theorem WellFormed.of_mark (hc : c.WellFormed) {k : Nat} {type : Bytes} {x : Except Error Bool}
    {c' : ClassFile} (h : mark k type c = (x, c')) : c'.WellFormed := by
  rcases x with e | added
  · rcases mark_eq_error_cases h with rfl | ⟨i, pool', htype, rfl⟩
    · exact hc
    · exact hc.withPool (hc.pool.addUtf8 htype) (Pool.le_of_addUtf8 htype)
  · rcases mark_eq_ok_cases h with ⟨-, rfl, -⟩ | ⟨-, m, pool', m', hm, -, hmarks, rfl⟩
    · exact hc
    · have hpool := hc.withPool (hmarks.pool_wellFormed hc.pool) hmarks.pool_le
      refine hpool.withMethods fun x hx => ?_
      rcases List.mem_or_eq_of_mem_set hx with hx | rfl
      · exact hpool.methods x hx
      · exact hmarks.wellFormed hc.pool (hc.methods m (List.mem_of_getElem? hm))

end JarRepair.ClassFile

import Mathlib.Data.List.Nodup
import Mathlib.Data.List.Perm.Subperm
import JarRepair.ClassFile.Bridge
import JarRepair.Proofs.ClassFile.Markers

/-! # What repairs leave of a class

A repaired class differs from the one before in few places: constructors may have lost the leading
sets of their parameter channels, methods may have got a marker at the end of their invisible set,
and the pool may have got the two texts that markers need. A method is shortened once and marked
once, so repairing further is again a repair of the class that was there first. -/

namespace JarRepair.ClassFile

open JarRepair.Outcome
open JarRepair.Task

/-! ## Pools -/

/-- The pool has got some of the texts, each once and only if it had no slot for it. -/
def Pool.Gains (allowed : List Bytes) (p p' : Pool) : Prop :=
  ∃ texts : List Bytes, texts.Nodup ∧ texts ⊆ allowed ∧ (∀ t ∈ texts, textSlot t ∉ p.slots.toList) ∧
    p'.slots.toList = p.slots.toList ++ texts.map textSlot

namespace Pool.Gains

variable {allowed : List Bytes} {p p₁ p₂ : Pool}

theorem refl (allowed : List Bytes) (p : Pool) : Gains allowed p p :=
  ⟨[], List.nodup_nil, List.nil_subset _, by simp, by simp⟩

theorem trans (h₁ : Gains allowed p p₁) (h₂ : Gains allowed p₁ p₂) : Gains allowed p p₂ := by
  obtain ⟨texts₁, hnodup₁, hsub₁, hnew₁, hslots₁⟩ := h₁
  obtain ⟨texts₂, hnodup₂, hsub₂, hnew₂, hslots₂⟩ := h₂
  simp only [hslots₁, List.mem_append, not_or] at hnew₂
  refine ⟨texts₁ ++ texts₂, ?_, List.append_subset.mpr ⟨hsub₁, hsub₂⟩, ?_, ?_⟩
  · refine hnodup₁.append hnodup₂ fun t ht₁ ht₂ => ?_
    exact (hnew₂ t ht₂).2 (List.mem_map_of_mem ht₁)
  · intro t ht
    rcases List.mem_append.mp ht with ht | ht
    · exact hnew₁ t ht
    · exact (hnew₂ t ht).1
  · rw [hslots₂, hslots₁, List.map_append, List.append_assoc]

theorem le (h : Gains allowed p p₁) : p ≤ p₁ := by
  obtain ⟨texts, -, -, -, hslots⟩ := h
  exact ⟨_, hslots.symm⟩

theorem size_le (h : Gains allowed p p₁) : p₁.slots.size ≤ p.slots.size + allowed.length := by
  obtain ⟨texts, hnodup, hsub, -, hslots⟩ := h
  have hlength : texts.length ≤ allowed.length := (hnodup.subperm hsub).length_le
  rw [← Array.length_toList, ← Array.length_toList, hslots, List.length_append, List.length_map]
  omega

theorem addUtf8 (hp : p.WellFormed) {text : Bytes} {i : UInt16} (h : p.addUtf8 text = .ok (i, p₁))
    (htext : text ∈ allowed) : Gains allowed p p₁ := by
  rcases addUtf8_cases h with ⟨rfl, -⟩ | ⟨hnone, -, -, -, hslots⟩
  · exact refl allowed p₁
  · refine ⟨[text], List.nodup_singleton text, by simpa using htext, ?_, hslots⟩
    intro t ht hmem
    rw [List.mem_singleton] at ht
    subst ht
    obtain ⟨cs, -, hcs⟩ := hp.constants
    rw [findUtf8?_eq_none_iff, hcs] at hnone
    rw [hcs] at hmem
    rcases List.mem_cons.mp hmem with heq | hmem
    · simp [textSlot] at heq
    · have hfalse := hnone (textSlot t) hmem
      rw [isText_textSlot] at hfalse
      simp at hfalse

end Pool.Gains

/-! ## Methods -/

namespace Method

variable {m m' m₁ m₂ : Method}

/-- The invisible set is the same, or it had no marker and has one at its end. In the latter case
there is one more attribute if there was no invisible set. -/
def Remarked (m m' : Method) : Prop :=
  (m'.invisible = m.invisible ∧ m'.attributes = m.attributes) ∨
    (m.isMarked overrideType = false ∧
      (∃ i, m'.invisible = some (m.invisible.getD [] ++ [ Annotation.marker overrideType i])) ∧
      if m.invisible.isSome then m'.attributes = m.attributes
      else ∃ j, m'.attributes = m.attributes ++ [.channel j (.declaration .invisible)])

/-- A channel of a constructor with a set for each parameter has lost the first one or two. -/
def Shortened (m m' : Method) (v : Visibility) : Prop :=
  m.isConstructor = true ∧ ∃ sets n, (n = 1 ∨ n = 2) ∧ n ≤ sets.length ∧
    parameterCount m.descriptor = .ok sets.length ∧
      m.parameters v = { sets := some sets, count := sets.length } ∧
        m'.parameters v = { sets := some (sets.drop n), count := (sets.drop n).length }

/-- What repairs make of a method. -/
structure Repaired (m m' : Method) : Prop where
  rest : m' = { m with
    attributes := m'.attributes
    invisible := m'.invisible
    visibleParameters := m'.visibleParameters
    invisibleParameters := m'.invisibleParameters }
  remarked : m.Remarked m'
  parameters : ∀ v, m'.parameters v = m.parameters v ∨ m.Shortened m' v

theorem Repaired.refl (m : Method) : m.Repaired m where
  rest := rfl
  remarked := .inl ⟨rfl, rfl⟩
  parameters _ := .inl rfl

theorem Repaired.name_eq (h : m.Repaired m') : m'.name = m.name := by rw [h.rest]

theorem Repaired.descriptor_eq (h : m.Repaired m') : m'.descriptor = m.descriptor := by rw [h.rest]

theorem Repaired.access_eq (h : m.Repaired m') : m'.access = m.access := by rw [h.rest]

theorem isMarked_of_marker {i : UInt16} {set : Option AnnotationSet} {type : Bytes}
    (h : m.invisible = some (set.getD [] ++ [ Annotation.marker type i])) :
    m.isMarked type = true := by
  simp [isMarked, AnnotationSet.has, h, Annotation.marker]

theorem Remarked.isMarked (h : m.Remarked m') (hm : m.isMarked overrideType = true) :
    m'.isMarked overrideType = true := by
  rcases h with ⟨hset, -⟩ | ⟨hfalse, -⟩
  · rwa [Method.isMarked, hset]
  · rw [hm] at hfalse
    simp at hfalse

theorem Remarked.trans (h₁ : m.Remarked m₁) (h₂ : m₁.Remarked m₂) : m.Remarked m₂ := by
  rcases h₁ with ⟨hset₁, hattributes₁⟩ | ⟨hfalse, ⟨i, hset₁⟩, hattributes₁⟩
  · rcases h₂ with ⟨hset₂, hattributes₂⟩ | ⟨hfalse, ⟨i, hset₂⟩, hattributes₂⟩
    · exact .inl ⟨hset₂.trans hset₁, hattributes₂.trans hattributes₁⟩
    · rw [Method.isMarked, hset₁] at hfalse
      rw [hset₁] at hset₂
      rw [hset₁, hattributes₁] at hattributes₂
      exact .inr ⟨hfalse, ⟨i, hset₂⟩, hattributes₂⟩
  · rcases h₂ with ⟨hset₂, hattributes₂⟩ | ⟨hfalse₂, -⟩
    · refine .inr ⟨hfalse, ⟨i, hset₂.trans hset₁⟩, ?_⟩
      rw [hattributes₂]
      exact hattributes₁
    · rw [isMarked_of_marker hset₁] at hfalse₂
      simp at hfalse₂

theorem Repaired.trans (h₁ : m.Repaired m₁) (h₂ : m₁.Repaired m₂) : m.Repaired m₂ where
  rest := by
    rw [h₂.rest, h₁.rest]
  remarked := h₁.remarked.trans h₂.remarked
  parameters v := by
    rcases h₁.parameters v with heq | ⟨hctor, sets, n, hn, hle, hcount, hsets, hsets₁⟩
    · rcases h₂.parameters v with heq₂ | ⟨hctor, sets, n, hn, hle, hcount, hsets, hsets₂⟩
      · exact .inl (heq₂.trans heq)
      · rw [isConstructor, h₁.name_eq] at hctor
        rw [h₁.descriptor_eq] at hcount
        exact .inr ⟨hctor, sets, n, hn, hle, hcount, heq ▸ hsets, hsets₂⟩
    · right
      rcases h₂.parameters v with heq₂ | ⟨-, sets', n', -, -, hcount', hsets', -⟩
      · exact ⟨hctor, sets, n, hn, hle, hcount, hsets, heq₂.trans hsets₁⟩
      · -- A channel that has been shortened has no set for each parameter any more.
        rw [hsets₁] at hsets'
        simp only [ParameterChannel.mk.injEq, Option.some.injEq] at hsets'
        rw [h₁.descriptor_eq, hcount, ← hsets'.1, Except.ok.injEq, List.length_drop] at hcount'
        omega

theorem Repaired.attribute?_eq (h : m.Repaired m') (name : Bytes) (hname : name ≠ invisibleName) :
    m'.attribute? name = m.attribute? name := by
  have happend (j : UInt16) :
      (m.attributes ++ [MethodAttribute.channel j (.declaration .invisible)]).find?
      (·.name == name) = m.attributes.find? (·.name == name) := by
    rw [List.find?_append]
    simp [Ne.symm hname]
  rw [attribute?, attribute?]
  rcases h.remarked with ⟨-, hattributes⟩ | ⟨-, -, hattributes⟩
  · rw [hattributes]
  · split at hattributes
    · rw [hattributes]
    · obtain ⟨j, hj⟩ := hattributes
      rw [hj, happend]

/-- A marked method is repaired. -/
theorem Marks.repaired {pool pool' : Pool} (h : m.Marks overrideType pool pool' m')
    (hm : m.isMarked overrideType = false) : m.Repaired m' := by
  cases h with
  | annotate hset =>
    refine ⟨rfl, .inr ⟨hm, ⟨_, rfl⟩, ?_⟩, fun _ => .inl ?_⟩
    · rw [if_pos hset]
      rfl
    · rename_i v
      cases v <;> rfl
  | @openInvisible i j _ _ hset =>
    refine ⟨rfl, .inr ⟨hm, ⟨i, ?_⟩, ?_⟩, fun v => .inl (by cases v <;> rfl)⟩
    · rw [hset]
      rfl
    · rw [hset, if_neg (by simp)]
      exact ⟨j, rfl⟩

theorem Marks.isMarked {pool pool' : Pool} {type : Bytes} (h : m.Marks type pool pool' m') :
    m'.isMarked type = true := by
  cases h with
  | annotate => exact isMarked_of_marker rfl
  | openInvisible => exact isMarked_of_marker rfl

theorem Marks.gains {pool pool' : Pool} (h : m.Marks overrideType pool pool' m')
    (hp : pool.WellFormed) :
    Pool.Gains [overrideType, invisibleName] pool pool' := by
  cases h with
  | annotate _ htype => exact .addUtf8 hp htype (by simp)
  | openInvisible _ htype hname =>
    exact (Pool.Gains.addUtf8 hp htype (by simp)).trans
      (.addUtf8 (hp.addUtf8 htype) hname (by simp))

theorem parameters_realign {pool : Pool} {p : ParameterChannel} (hp : p.WellFormed pool)
    (n k : Nat) :
    p.realign n k = p ∨ ∃ sets, sets.length = n ∧ p = { sets := some sets, count := sets.length } ∧
      p.realign n k = { sets := some (sets.drop k), count := (sets.drop k).length } := by
  obtain ⟨sets, count⟩ := p
  cases sets with
  | none => exact .inl rfl
  | some sets =>
    obtain ⟨rfl, -⟩ : count = sets.length ∧ _ := hp
    rw [ParameterChannel.realign]
    by_cases hall : sets.length = n
    · exact .inr ⟨sets, hall, rfl, by simp only [hall, if_true]⟩
    · exact .inl (by simp only [hall, if_false])

/-- A realigned method is repaired. -/
theorem Repaired.of_realign {pool : Pool} (hm : m.WellFormed pool) {leading : List Bytes}
    (hleading : leading.length = 1 ∨ leading.length = 2) (h : m.realign leading = .ok m') :
    m.Repaired m' := by
  rcases realign_eq_ok_iff.mp h with ⟨-, rfl⟩ | ⟨hctor, d, hd, rfl⟩
  · exact .refl m'
  · by_cases hstart : Descriptor.startsWith d.parameters leading
    · rw [if_pos hstart]
      have hle : leading.length ≤ d.parameters.length :=
        (List.isPrefixOf_iff_prefix.mp hstart).length_le
      have hcount : parameterCount m.descriptor = .ok d.parameters.length := by
        rw [parameterCount, hd]
      refine ⟨rfl, .inl ⟨rfl, rfl⟩, fun v => ?_⟩
      have hgood : (m.parameters v).WellFormed pool := hm.good (.parameter v)
      have hchannel : (m.parameters v).realign d.parameters.length leading.length = m.parameters v ∨
          _ :=
        parameters_realign hgood d.parameters.length leading.length
      rcases hchannel with hsame | ⟨sets, hlength, hold, hnew⟩
      · left
        cases v <;> exact hsame
      · refine .inr ⟨hctor, sets, leading.length, hleading, hlength ▸ hle, hlength ▸ hcount, hold,
          ?_⟩
        cases v <;> exact hnew
    · rw [if_neg hstart]
      exact .refl m

end Method

/-! ## Classes -/

theorem length_leadingParameters {c : ClassFile} {leading : List Bytes}
    (h : c.leadingParameters = some leading) : leading.length = 1 ∨ leading.length = 2 := by
  rw [leadingParameters] at h
  split at h
  · obtain rfl := Option.some.inj h
    exact .inr rfl
  · simp only [Option.bind_eq_bind, Option.bind_eq_some_iff] at h
    obtain ⟨row, -, -, -, outer, -, h⟩ := h
    split at h
    · simp at h
    · obtain rfl := Option.some.inj h
      exact .inl rfl

theorem forall₂_trans {α : Type} {R : α → α → Prop} (hR : ∀ x y z, R x y → R y z → R x z)
    {xs ys zs : List α} (h₁ : List.Forall₂ R xs ys) (h₂ : List.Forall₂ R ys zs) :
    List.Forall₂ R xs zs := by
  induction h₁ generalizing zs with
  | nil => exact h₂
  | cons hxy _ ih =>
    cases h₂ with
    | cons hyz hrest => exact .cons (hR _ _ _ hxy hyz) (ih hrest)

theorem exists_of_forall₂ {α β : Type} {R : α → β → Prop} {xs : List α} {ys : List β}
    (h : List.Forall₂ R xs ys) {k : Nat} {x : α} (hx : xs[k]? = some x) :
    ∃ y, ys[k]? = some y ∧ R x y := by
  induction h generalizing k with
  | nil => simp at hx
  | @cons x' y' _ _ hxy _ ih =>
    cases k with
    | zero =>
      obtain rfl : x' = x := by simpa using hx
      exact ⟨y', rfl, hxy⟩
    | succ k => exact ih (by simpa using hx)

theorem forall₂_set {α : Type} {R : α → α → Prop} (hR : ∀ x, R x x) {xs : List α}
    {k : Nat} {x y : α} (hx : xs[k]? = some x) (hxy : R x y) : List.Forall₂ R xs (xs.set k y) := by
  induction xs generalizing k with
  | nil => simp at hx
  | cons x' xs ih =>
    cases k with
    | zero =>
      obtain rfl : x' = x := by simpa using hx
      exact .cons hxy (List.forall₂_same.mpr fun x _ => hR x)
    | succ k => exact .cons (hR x') (ih (by simpa using hx))

/-- What repairs make of a class. The pool is the same unless a method was marked. -/
structure Repaired (c c' : ClassFile) : Prop where
  rest : c' = { c with pool := c'.pool, methods := c'.methods }
  methods : List.Forall₂ Method.Repaired c.methods c'.methods
  pool : Pool.Gains [overrideType, invisibleName] c.pool c'.pool
  pool_eq : c'.methods.map (·.isMarked overrideType) = c.methods.map (·.isMarked overrideType) →
    c'.pool = c.pool

/-- Between two lists of methods with the same marks, all have these marks. -/
theorem map_isMarked_eq {ms ms₁ ms₂ : List Method} (h₁ : List.Forall₂ Method.Repaired ms ms₁)
    (h₂ : List.Forall₂ Method.Repaired ms₁ ms₂)
    (h : ms₂.map (·.isMarked overrideType) = ms.map (·.isMarked overrideType)) :
    ms₁.map (·.isMarked overrideType) = ms.map (·.isMarked overrideType) := by
  induction h₁ generalizing ms₂ with
  | nil => rfl
  | @cons m m₁ _ _ hm _ ih =>
    cases h₂ with
    | cons hm₂ hrest =>
      simp only [List.map_cons, List.cons.injEq] at h ⊢
      refine ⟨?_, ih hrest h.2⟩
      cases hmarked : m.isMarked overrideType with
      | true => exact hm.remarked.isMarked hmarked
      | false =>
        cases hmarked₁ : m₁.isMarked overrideType with
        | false => rfl
        | true => rw [hm₂.remarked.isMarked hmarked₁, hmarked] at h; simp at h

namespace Repaired

variable {c c' c₁ c₂ : ClassFile}

theorem refl (c : ClassFile) : c.Repaired c where
  rest := rfl
  methods := List.forall₂_same.mpr fun m _ => .refl m
  pool := .refl _ _
  pool_eq _ := rfl

theorem trans (h₁ : c.Repaired c₁) (h₂ : c₁.Repaired c₂) : c.Repaired c₂ where
  rest := by rw [h₂.rest, h₁.rest]
  methods := forall₂_trans (fun _ _ _ => .trans) h₁.methods h₂.methods
  pool := h₁.pool.trans h₂.pool
  pool_eq h := by
    have hmarks := map_isMarked_eq h₁.methods h₂.methods h
    rw [h₂.pool_eq (h.trans hmarks.symm), h₁.pool_eq hmarks]

theorem eq_of_methods_eq (h : c.Repaired c') (hmethods : c'.methods = c.methods) : c' = c := by
  have hpool := h.pool_eq (by rw [hmethods])
  rw [h.rest, hmethods, hpool]

theorem of_mark (hc : c.WellFormed) {k : Nat} {added : Bool}
    (h : mark k overrideType c = (.ok added, c')) : c.Repaired c' := by
  rcases mark_eq_ok_cases h with ⟨-, rfl, -⟩ | ⟨-, m, pool', m', hm, hfalse, hmarks, rfl⟩
  · exact refl c'
  · refine ⟨rfl, ?_, ?_, ?_⟩
    · exact forall₂_set Method.Repaired.refl hm (hmarks.repaired hfalse)
    · exact hmarks.gains hc.pool
    · intro hsame
      have hk : m'.isMarked overrideType = m.isMarked overrideType := by
        have hget := congrArg (·[k]?) hsame
        obtain ⟨hlt, -⟩ := List.getElem?_eq_some_iff.mp hm
        simpa only [List.getElem?_map, List.getElem?_set_self hlt, hm, Option.map_some,
          Option.some.injEq] using hget
      rw [hmarks.isMarked, hfalse] at hk
      simp at hk

theorem of_realign (hc : c.WellFormed) {leading : List Bytes} {ms : List Method}
    (hleading : c.leadingParameters = some leading)
    (hms : c.methods.mapM (Method.realign leading) = .ok ms) :
    c.Repaired { c with methods := ms } where
  rest := rfl
  methods := by
    have hall := (List.forall₂_and_left _ _).mpr ⟨hc.methods, mapM_eq_ok_iff.mp hms⟩
    exact hall.imp fun m m' h => .of_realign h.1 (length_leadingParameters hleading) h.2
  pool := .refl _ _
  pool_eq _ := rfl

end Repaired

end JarRepair.ClassFile

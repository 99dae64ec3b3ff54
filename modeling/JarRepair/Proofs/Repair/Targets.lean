import Mathlib.Data.Set.Card
import JarRepair.Proofs.Repair.Edits
import JarRepair.Proofs.Repair.Frame

/-! # Which methods get markers

The marker of a method that overrides goes to the first method with the key that the resolver names,
or to the method itself if its class declares none. Several methods may send their markers to one,
and a target may be gone through before or after it gets its marker. In the end each target that had
no marker has exactly one, at the end of its set, all other methods are as they were, and as many
markers are counted as there are such targets. -/

namespace JarRepair.ClassFile

open JarRepair.Task

/-! ## Methods that can override -/

/-- A method is neither static nor private, nor an initializer. -/
structure Method.Overridable (m : Method) : Prop where
  notStatic : Access.hasAny m.access Access.isStatic = false
  notPrivate : Access.hasAny m.access Access.isPrivate = false
  notConstructor : m.name ≠ constructorName
  notInitializer : m.name ≠ initializerName

theorem Access.hasAny_or_eq_false_iff {flags a b : UInt16} :
    Access.hasAny flags (a ||| b) = false ↔
      Access.hasAny flags a = false ∧ Access.hasAny flags b = false := by
  have hdistrib : flags &&& (a ||| b) = flags &&& a ||| flags &&& b := by
    refine UInt16.toBitVec_inj.mp ?_
    simp only [UInt16.toBitVec_and, UInt16.toBitVec_or, BitVec.and_or_distrib_left]
  simp [Access.hasAny, hdistrib]

theorem Method.isEligible_iff {m : Method} : m.isEligible = true ↔ m.Overridable := by
  simp only [isEligible, isInitializer, isConstructor, Bool.and_eq_true, Bool.not_eq_true',
    Bool.or_eq_false_iff, beq_eq_false_iff_ne, Access.hasAny_or_eq_false_iff]
  constructor
  · rintro ⟨⟨hs, hp⟩, hc, hi⟩
    exact ⟨hs, hp, hc, hi⟩
  · exact fun h => ⟨⟨h.notStatic, h.notPrivate⟩, h.notConstructor, h.notInitializer⟩

theorem Method.overrides_iff {m : Method} {inherited : Std.TreeSet Bytes} :
    m.overrides inherited = true ↔ m.Overridable ∧ m.signature ∈ inherited := by
  rw [overrides, Bool.and_eq_true, isEligible_iff, Std.TreeSet.mem_iff_contains]

/-! ## Targets -/

section

variable {c : ClassFile} {key : MethodKey} {k t : Nat}

/-- Method `t` is the first one with the key. -/
def FirstWith (c : ClassFile) (key : MethodKey) (t : Nat) : Prop :=
  (∃ m, c.methods[t]? = some m ∧ m.key = key) ∧
    ∀ j m, j < t → c.methods[j]? = some m → m.key ≠ key

/-- Method `t` gets the marker of method `k`, for which the resolver names the key. -/
def Receives (c : ClassFile) (key : MethodKey) (k t : Nat) : Prop :=
  c.FirstWith key t ∨ (∀ m ∈ c.methods, m.key ≠ key) ∧ t = k

theorem Method.key_eq_iff {m : Method} :
    m.key = key ↔ (m.name == key.name && m.descriptor == key.descriptor) = true := by
  obtain ⟨name, descriptor⟩ := key
  rw [Bool.and_eq_true, beq_iff_eq, beq_iff_eq, Method.key, MethodKey.mk.injEq]

theorem firstWith_iff : c.FirstWith key t ↔ c.methodIndex? key.name key.descriptor = some t := by
  rw [methodIndex?, List.findIdx?_eq_some_iff_getElem]
  simp only [← Method.key_eq_iff]
  constructor
  · rintro ⟨⟨m, hm, hkey⟩, hfirst⟩
    obtain ⟨ht, rfl⟩ := List.getElem?_eq_some_iff.mp hm
    exact ⟨ht, hkey, fun j hj => hfirst j _ hj (List.getElem?_eq_getElem _)⟩
  · rintro ⟨ht, hkey, hfirst⟩
    refine ⟨⟨_, List.getElem?_eq_getElem ht, hkey⟩, fun j m hj hm => ?_⟩
    obtain ⟨-, rfl⟩ := List.getElem?_eq_some_iff.mp hm
    exact hfirst j hj

theorem methodIndex?_eq_none_iff :
    c.methodIndex? key.name key.descriptor = none ↔ ∀ m ∈ c.methods, m.key ≠ key := by
  rw [methodIndex?, List.findIdx?_eq_none_iff]
  exact forall₂_congr fun m _ => by rw [Ne, Method.key_eq_iff, Bool.not_eq_true]

theorem receives_iff : c.Receives key k t ↔ c.markTarget key k = t := by
  rw [Receives, firstWith_iff, ← methodIndex?_eq_none_iff, markTarget]
  cases c.methodIndex? key.name key.descriptor with
  | some i => simp
  | none => simp [eq_comm]

end

/-- The methods that those which override an inherited signature send their markers to. What a
resolver names is asked of the class `c'` that `c` has become. -/
def targets (r : Resolver) (inherited : Std.TreeSet Bytes) (c c' : ClassFile) : Set Nat :=
  {t | ∃ k m m' key, c.methods[k]? = some m ∧ m.Overridable ∧ m.signature ∈ inherited ∧
    c'.methods[k]? = some m' ∧ r.target c' m' = .ok key ∧ c.Receives key k t}

/-! ## Markers -/

/-- A method has got its only marker, at the end of its invisible set, and the attribute for the set
if it had none. -/
structure Method.GainsMarker (m m' : Method) : Prop where
  rest : m' = { m with attributes := m'.attributes, invisible := m'.invisible }
  last : ∃ i, m'.invisible = some (m.invisible.getD [] ++ [ Annotation.marker overrideType i])
  once : (m'.invisible.getD []).countP (·.type == overrideType) = 1
  attributes : if m.invisible.isSome then m'.attributes = m.attributes
    else ∃ i, m'.attributes = m.attributes ++ [.channel i (.declaration .invisible)]

theorem Method.Marks.gainsMarker {m m' : Method} {pool pool' : Pool}
    (h : m.Marks overrideType pool pool' m') (hm : m.isMarked overrideType = false) :
    m.GainsMarker m' := by
  have hlast :
      ∃ i, m'.invisible = some (m.invisible.getD [] ++ [ Annotation.marker overrideType i]) := by
    cases h with
    | annotate => exact ⟨_, rfl⟩
    | @openInvisible i _ _ _ hset => exact ⟨i, by rw [hset]; rfl⟩
  refine ⟨by cases h <;> rfl, hlast, ?_, ?_⟩
  · obtain ⟨i, hi⟩ := hlast
    have hnone : (m.invisible.getD []).countP (·.type == overrideType) = 0 := by
      rw [List.countP_eq_zero]
      exact List.any_eq_false.mp hm
    rw [hi, Option.getD_some, List.countP_append, hnone]
    simp [ Annotation.marker]
  · cases h with
    | annotate hset => rw [if_pos hset]; rfl
    | openInvisible hset => rw [hset]; exact ⟨_, rfl⟩

/-- Method `t` has no marker. -/
def Unmarked (c : ClassFile) (t : Nat) : Prop :=
  ∃ m, c.methods[t]? = some m ∧ m.isMarked overrideType = false

/-- Of the methods in `T` those without a marker have got one, `n` in all; the others are as they
were. -/
structure MarkedOn (T : Set Nat) (n : Nat) (c c' : ClassFile) : Prop where
  length : c'.methods.length = c.methods.length
  gains : ∀ t m m', c.methods[t]? = some m → c'.methods[t]? = some m' → t ∈ T →
    m.isMarked overrideType = false → m.GainsMarker m'
  keeps : ∀ t m m', c.methods[t]? = some m → c'.methods[t]? = some m' →
    (t ∈ T → m.isMarked overrideType = true) → m' = m
  count : n = {t | t ∈ T ∧ c.Unmarked t}.ncard

namespace MarkedOn

variable {T : Set Nat} {n t : Nat} {c c₁ c₂ : ClassFile}

theorem empty (c : ClassFile) : MarkedOn ∅ 0 c c where
  length := rfl
  gains _ _ _ _ _ h := h.elim
  keeps _ _ _ hm hm' _ := Option.some.inj (hm'.symm.trans hm)
  count := by simp

theorem finite (c : ClassFile) (T : Set Nat) : {t | t ∈ T ∧ c.Unmarked t}.Finite := by
  refine (Set.finite_lt_nat c.methods.length).subset ?_
  rintro t ⟨-, m, hm, -⟩
  exact (List.getElem?_eq_some_iff.mp hm).1

/-- A target that has a marker stays as it is. -/
theorem skip (h : MarkedOn T n c c₁) {m₁ : Method} (hm₁ : c₁.methods[t]? = some m₁)
    (hmarked : m₁.isMarked overrideType = true) : MarkedOn (insert t T) n c c₁ := by
  by_cases htT : t ∈ T
  · rw [Set.insert_eq_of_mem htT]
    exact h
  · have hnew : ¬c.Unmarked t := by
      rintro ⟨m, hm, hfalse⟩
      rw [← h.keeps t m m₁ hm hm₁ fun hT => absurd hT htT, hmarked] at hfalse
      cases hfalse
    refine ⟨h.length, fun x m m' hm hm' hx hfalse => ?_, fun x m m' hm hm' hx =>
      h.keeps x m m' hm hm' fun hT => hx (Set.mem_insert_of_mem t hT), ?_⟩
    · rcases Set.mem_insert_iff.mp hx with rfl | hx
      · exact absurd ⟨m, hm, hfalse⟩ hnew
      · exact h.gains x m m' hm hm' hx hfalse
    · rw [h.count]
      congr 1
      ext x
      simp only [Set.mem_ofPred_eq, Set.mem_insert_iff]
      refine and_congr_left fun hx => (or_iff_right ?_).symm
      rintro rfl
      exact hnew hx

/-- A target without a marker had none at first and has not been reached before. -/
theorem unreached (h : MarkedOn T n c c₁) {m₁ : Method} (hm₁ : c₁.methods[t]? = some m₁)
    (hnot : m₁.isMarked overrideType = false) : t ∉ T ∧ c.methods[t]? = some m₁ := by
  obtain ⟨m, hm⟩ : ∃ m, c.methods[t]? = some m :=
    ⟨_, List.getElem?_eq_getElem (h.length ▸ (List.getElem?_eq_some_iff.mp hm₁).1)⟩
  have htT : t ∉ T := by
    intro hT
    cases hself : m.isMarked overrideType with
    | false =>
      obtain ⟨i, hi⟩ := (h.gains t m m₁ hm hm₁ hT hself).last
      rw [Method.isMarked_of_marker hi] at hnot
      simp at hnot
    | true =>
      rw [h.keeps t m m₁ hm hm₁ fun _ => hself, hself] at hnot
      simp at hnot
  obtain rfl := h.keeps t m m₁ hm hm₁ fun hT => absurd hT htT
  exact ⟨htT, hm⟩

theorem ncard_insert {m : Method} (htT : t ∉ T) (hm : c.methods[t]? = some m)
    (hnot : m.isMarked overrideType = false) :
    {x | x ∈ insert t T ∧ c.Unmarked x}.ncard = {x | x ∈ T ∧ c.Unmarked x}.ncard + 1 := by
  have hinsert : {x | x ∈ insert t T ∧ c.Unmarked x} = insert t {x | x ∈ T ∧ c.Unmarked x} := by
    ext x
    simp only [Set.mem_ofPred_eq, Set.mem_insert_iff]
    constructor
    · rintro ⟨rfl | hx, hunmarked⟩
      · exact .inl rfl
      · exact .inr ⟨hx, hunmarked⟩
    · rintro (rfl | ⟨hx, hunmarked⟩)
      · exact ⟨.inl rfl, m, hm, hnot⟩
      · exact ⟨.inr hx, hunmarked⟩
  rw [hinsert, Set.ncard_insert_of_notMem (fun hx => htT hx.1) (finite c T)]

/-- A target without a marker gets one. -/
theorem add (h : MarkedOn T n c c₁) {m₁ m₂ : Method} {pool : Pool} (hm₁ : c₁.methods[t]? = some m₁)
    (hnot : m₁.isMarked overrideType = false) (hgains : m₁.GainsMarker m₂) :
    MarkedOn (insert t T) (n + 1) c { c₁ with pool, methods := c₁.methods.set t m₂ } := by
  obtain ⟨htT, hm⟩ := h.unreached hm₁ hnot
  have hget (x : Nat) : (c₁.methods.set t m₂)[x]? = if t = x then some m₂ else c₁.methods[x]? := by
    rw [List.getElem?_set, if_pos (List.getElem?_eq_some_iff.mp hm₁).1]
  refine ⟨by rw [List.length_set, h.length], ?_, ?_, by rw [ncard_insert htT hm hnot, ← h.count]⟩
  · intro x m' m'' hm' hm'' hx hfalse
    rw [hget] at hm''
    split at hm''
    · rename_i heq
      subst heq
      obtain rfl := Option.some.inj hm''
      obtain rfl := Option.some.inj (hm.symm.trans hm')
      exact hgains
    · rename_i hne
      exact h.gains x m' m'' hm' hm'' (Set.mem_of_mem_insert_of_ne hx (Ne.symm hne)) hfalse
  · intro x m' m'' hm' hm'' hx
    rw [hget] at hm''
    split at hm''
    · rename_i heq
      subst heq
      have htrue := hx (Set.mem_insert t T)
      rw [← Option.some.inj (hm.symm.trans hm'), hnot] at htrue
      simp at htrue
    · exact h.keeps x m' m'' hm' hm'' fun hT => hx (Set.mem_insert_of_mem t hT)

/-- Marking method `t` puts it among those that are marked. -/
theorem mark (h : MarkedOn T n c c₁) {added : Bool} (ht : t < c.methods.length)
    (hrun : ClassFile.mark t overrideType c₁ = (.ok added, c₂)) :
    MarkedOn (insert t T) (n + added.toNat) c c₂ := by
  rcases mark_eq_ok_cases hrun with
      ⟨rfl, rfl, hmarked⟩ | ⟨rfl, m₁, pool, m₂, hm₁, hnot, hmarks, rfl⟩
  · have hm₁ : c₂.methods[t]? = some _ := List.getElem?_eq_getElem (h.length ▸ ht)
    exact h.skip hm₁ (hmarked _ hm₁)
  · exact h.add hm₁ hnot (hmarks.gainsMarker hnot)

end MarkedOn

/-! ## Marking all that override -/

section

variable {r : Resolver} {inherited : Std.TreeSet Bytes} {c c₁ c₂ : ClassFile}
  {x : Method × Nat} {t : Nat}

/-- Method `x` overrides, and its marker goes to method `t` as the resolver answers on `c₁`. -/
def Sends (r : Resolver) (inherited : Std.TreeSet Bytes) (c c₁ : ClassFile) (x : Method × Nat)
    (t : Nat) : Prop :=
  x.1.overrides inherited = true ∧ ∃ m₁ key, c₁.methods[x.2]? = some m₁ ∧
    r.target c₁ m₁ = .ok key ∧ c.markTarget key x.2 = t

theorem Sends.mono (hr : r.Stable) (h : c.Sends r inherited c₁ x t) (hstep : c₁.Repaired c₂) :
    c.Sends r inherited c₂ x t := by
  obtain ⟨hover, m₁, key, hm₁, hkey, ht⟩ := h
  obtain ⟨m₂, hm₂, hm⟩ := exists_of_forall₂ hstep.methods hm₁
  exact ⟨hover, m₂, key, hm₂, hr hstep hm hkey, ht⟩

theorem Sends.unique {t' : Nat} (h : c.Sends r inherited c₁ x t)
    (h' : c.Sends r inherited c₁ x t') :
    t = t' := by
  obtain ⟨-, m₁, key, hm₁, hkey, rfl⟩ := h
  obtain ⟨-, m₁', key', hm₁', hkey', rfl⟩ := h'
  obtain rfl := Option.some.inj (hm₁.symm.trans hm₁')
  rw [Except.ok.inj (hkey.symm.trans hkey')]

/-- The methods gone through so far have sent their markers, and nothing else has happened. -/
structure Sent (r : Resolver) (inherited : Std.TreeSet Bytes) (c : ClassFile)
    (done : List (Method × Nat)) (n : Nat) (c₁ : ClassFile) : Prop where
  wellFormed : c₁.WellFormed
  repaired : c.Repaired c₁
  sends : ∀ x ∈ done, x.1.overrides inherited = true → ∃ t, c.Sends r inherited c₁ x t
  marked : MarkedOn {t | ∃ x ∈ done, c.Sends r inherited c₁ x t} n c c₁

variable {done : List (Method × Nat)} {n : Nat}

theorem Sent.empty (hc : c.WellFormed) : Sent r inherited c [] 0 c where
  wellFormed := hc
  repaired := .refl c
  sends := by simp
  marked := by simpa using MarkedOn.empty c

theorem Sent.skip (h : Sent r inherited c done n c₁) (hskip : x.1.overrides inherited = false) :
    Sent r inherited c (done ++ [x]) n c₁ where
  wellFormed := h.wellFormed
  repaired := h.repaired
  sends y hy hover := by
    rcases List.mem_append.mp hy with hy | hy
    · exact h.sends y hy hover
    · rw [List.mem_singleton.mp hy, hskip] at hover
      simp at hover
  marked := by
    have hsame : {t | ∃ y ∈ done ++ [x], c.Sends r inherited c₁ y t} =
        {t | ∃ y ∈ done, c.Sends r inherited c₁ y t} := by
      ext t
      simp only [Set.mem_ofPred_eq, List.mem_append, List.mem_singleton, or_and_right, exists_or,
        exists_eq_left]
      refine or_iff_left fun hx => ?_
      rw [hx.1] at hskip
      simp at hskip
    rw [hsame]
    exact h.marked

/-- The targets of methods that were gone through before stay what they were. -/
theorem Sent.add (hr : r.Stable) (h : Sent r inherited c done n c₁)
    (hx : c.Sends r inherited c₁ x t) (ht : t < c.methods.length) {added : Bool}
    (hrun : mark t overrideType c₁ = (.ok added, c₂)) :
    Sent r inherited c (done ++ [x]) (n + added.toNat) c₂ := by
  have hstep : c₁.Repaired c₂ := .of_mark h.wellFormed hrun
  refine ⟨h.wellFormed.of_mark hrun, h.repaired.trans hstep, ?_, ?_⟩
  · intro y hy hover
    rcases List.mem_append.mp hy with hy | hy
    · obtain ⟨t', ht'⟩ := h.sends y hy hover
      exact ⟨t', ht'.mono hr hstep⟩
    · rw [List.mem_singleton.mp hy]
      exact ⟨t, hx.mono hr hstep⟩
  · have hinsert : {t | ∃ y ∈ done ++ [x], c.Sends r inherited c₂ y t} =
        insert t {t | ∃ y ∈ done, c.Sends r inherited c₁ y t} := by
      ext t'
      simp only [Set.mem_ofPred_eq, Set.mem_insert_iff, List.mem_append, List.mem_singleton]
      constructor
      · rintro ⟨y, hy | rfl, hsends⟩
        · obtain ⟨t'', ht''⟩ := h.sends y hy hsends.1
          rw [hsends.unique (ht''.mono hr hstep)]
          exact .inr ⟨y, hy, ht''⟩
        · exact .inl (hsends.unique (hx.mono hr hstep))
      · rintro (rfl | ⟨y, hy, hsends⟩)
        · exact ⟨x, .inr rfl, hx.mono hr hstep⟩
        · exact ⟨y, .inl hy, hsends.mono hr hstep⟩
    rw [hinsert]
    exact h.marked.mark ht hrun

theorem ensures_markOverrides_sent (hr : r.Stable) (hc : c.WellFormed) :
    (markOverrides r inherited).Ensures c (fun n c' => Sent r inherited c c.methods.zipIdx n c')
      (fun _ _ => True) := by
  refine Ensures.bind (ensures_state.mpr ?_)
  refine Ensures.foldlM (I := fun done n c₁ => Sent r inherited c done n c₁) ?_ (.empty hc)
  rintro done ⟨m, k⟩ rest n c₁ hitems hsent
  have hm : c.methods[k]? = some m :=
    List.mem_zipIdx_iff_getElem?.mp (hitems ▸ List.mem_append_right done List.mem_cons_self)
  obtain ⟨m₁, hm₁, -⟩ := exists_of_forall₂ hsent.repaired.methods hm
  refine Ensures.bind (ensures_markOverride ?_ ?_ (fun _ _ _ => trivial) fun _ _ _ _ _ _ => trivial)
  · exact fun hskip => ensures_pure.mpr (hsent.skip hskip)
  · intro key added c₂ hover hkey hrun
    rw [hm₁, Option.getD_some] at hkey
    rw [hsent.repaired.markTarget_eq] at hrun
    obtain ⟨m', hm'⟩ := exists_markTarget hm key
    have hsends : c.Sends r inherited c₁ (m, k) (c.markTarget key k) :=
      ⟨hover, m₁, key, hm₁, hkey, rfl⟩
    exact ensures_pure.mpr (hsent.add hr hsends (List.getElem?_eq_some_iff.mp hm').1 hrun)

theorem setOf_sends_eq_targets {c' : ClassFile} :
    {t | ∃ x ∈ c.methods.zipIdx, c.Sends r inherited c' x t} = targets r inherited c c' := by
  ext t
  simp only [Set.mem_ofPred_eq, targets, Sends, Method.overrides_iff, receives_iff, Prod.exists,
    List.mem_zipIdx_iff_getElem?]
  constructor
  · rintro ⟨m, k, hm, ⟨hover, hmem⟩, m', key, hm', hkey, ht⟩
    exact ⟨k, m, m', key, hm, hover, hmem, hm', hkey, ht⟩
  · rintro ⟨k, m, m', key, hm, hover, hmem, hm', hkey, ht⟩
    exact ⟨m, k, hm, ⟨hover, hmem⟩, m', key, hm', hkey, ht⟩

end

theorem Resolver.Stable.of_eq {r : Resolver} (hr : r = .bridge ∨ r = .identity) : r.Stable := by
  rcases hr with rfl | rfl
  · exact stable_bridge
  · exact stable_identity

end JarRepair.ClassFile

/-! ## Visiting a class -/

namespace JarRepair.Repair

open JarRepair.Task
open ClassFile
  (MarkedOn Method Pool Resolver Sent decode decode_eq_ok_iff setOf_sends_eq_targets targets)

variable {σ : Type} {src : Sources σ} {r : Resolver} {name data : Bytes} {c₀ c : ClassFile}

/-- Whatever the containers answer, loading puts nothing into the cache. -/
theorem Sources.loads (src : Sources σ) : src.Loads (fun _ => True) (fun _ _ => True) := by
  intro name b _
  refine Sources.ensures_load (fun _ => ⟨trivial, trivial, rfl⟩) fun reader _ => ?_
  refine (ensures_any _ _).mono ?_ fun _ _ _ => ⟨trivial, trivial, rfl⟩
  intro data w _
  split <;> exact ⟨trivial, trivial, rfl⟩

/-- Exactly the targets of the methods that override get markers. The class may be any that was
read, also after edits, and the cache may hold any other classes. -/
theorem markClass_marks_targets (hr : r = .bridge ∨ r = .identity) (hread : decode data = .ok c₀)
    {edits : List Edit} (hc : edits.foldl Edit.apply c₀ = c) {b : Bench σ}
    (hslot : b.class? name = some c) {notes : Array Log.Note} {n : Nat} {s' : Traced (Bench σ)}
    (hrun : markClass src r name c { state := b, notes } = (.ok n, s')) :
    ∃ inherited c', (inheritedSignatures src c { state := b, notes }).1 = .ok inherited ∧
      s'.state.class? name = some c' ∧ MarkedOn (targets r inherited c c') n c c' := by
  have hwell : c.WellFormed := hc ▸ Edit.wellFormed_foldl (decode_eq_ok_iff.mp hread).1 edits
  have hstable : r.Stable := Resolver.Stable.of_eq hr
  obtain ⟨inherited, ⟨b₁, notes₁⟩, hclimb, hmark⟩ := bind_run_eq_ok_iff.mp hrun
  rw [mapError_run_eq_ok_iff] at hclimb
  have hafter : Bench.After (fun _ => True) (fun _ _ => True) b b₁ :=
    (after_inheritedSignatures src.loads (fun _ _ _ => trivial)
      ⟨trivial, fun _ _ _ => trivial⟩ c).of_ok
      hclimb
  have hedit : (Bench.edit name (ClassFile.markOverrides r inherited)).Ensures b₁
      (fun n b' => ∃ c', b'.class? name = some c' ∧ Sent r inherited c c.methods.zipIdx n c')
      (fun _ _ => True) :=
    Bench.ensures_edit (hafter.class? hslot)
      ((ClassFile.ensures_markOverrides_sent hstable hwell).mono
      (fun _ c' h => ⟨c', Bench.class?_remember, h⟩) fun _ _ => id)
  obtain ⟨c', hc', hsent⟩ := hedit.of_ok hmark
  refine ⟨inherited, c', by rw [hclimb], hc', ?_⟩
  rw [← setOf_sends_eq_targets]
  exact hsent.marked

/-- A class with a method that returns the class itself and a bridge to it that returns `O`. -/
def bridged : Bytes :=
  Bytes.dword ClassFile.magic ++ [0, 0, 0, 52] ++
    Pool.encode ⟨#[.unusable, Pool.textSlot "A", .entry ClassFile.Tag.classRef [0, 1],
      Pool.textSlot "B", .entry ClassFile.Tag.classRef [0, 3], Pool.textSlot "m",
      Pool.textSlot "()LO;", Pool.textSlot "()LA;", .entry ClassFile.Tag.nameAndType [0, 5, 0, 7],
      .entry ClassFile.Tag.methodRef [0, 2, 0, 8], Pool.textSlot "Code"]⟩ ++
    [0, 33, 0, 2, 0, 4, 0, 0, 0, 0] ++
    [0, 2, 0, 1, 0, 5, 0, 7, 0, 0] ++
    [16, 1, 0, 5, 0, 6, 0, 1, 0, 10, 0, 0, 0, 17, 0, 1, 0, 1, 0, 0, 0, 5, 42, 182, 0, 9, 176,
      0, 0, 0, 0] ++
    [0, 0]

/-- The superclass of the bridged class, with the method that the bridge overrides. -/
def bridgedParent : Bytes :=
  Bytes.dword ClassFile.magic ++ [0, 0, 0, 52] ++
    Pool.encode ⟨#[.unusable, Pool.textSlot "B", .entry ClassFile.Tag.classRef [0, 1],
      Pool.textSlot "m", Pool.textSlot "()LO;"]⟩ ++
    [0, 33, 0, 2, 0, 0, 0, 0, 0, 0] ++ [0, 1, 4, 1, 0, 3, 0, 4, 0, 0] ++ [0, 0]

/-- Where the superclass of the bridged class is found. -/
def bridgedSources : Sources Unit where
  primary :=
    Archive.Memory.reader []
      { files := (∅ : Std.TreeMap Archive.Path Bytes).insert "B.class" bridgedParent }

theorem markClass_marks_targets_bridged : ∃ c s', decode bridged = .ok c ∧
    markClass bridgedSources .bridge "A" c { state := Bench.remember { world := () } "A" c } =
      (.ok 1, s') ∧
    ∃ inherited c', (inheritedSignatures bridgedSources c
        { state := Bench.remember { world := () } "A" c }).1 = .ok inherited ∧
      s'.state.class? "A" = some c' ∧ MarkedOn (targets .bridge inherited c c') 1 c c' := by
  have hmarked : ((decode bridged).toOption.bind fun c => (markClass bridgedSources .bridge "A" c
      { state := Bench.remember { world := () } "A" c }).1.toOption) = some 1 := by
    decide +kernel
  cases hread : decode bridged with
  | error failure => simp [hread, Except.toOption] at hmarked
  | ok c =>
    rcases hrun : markClass bridgedSources .bridge "A" c
      { state := Bench.remember { world := () } "A" c } with ⟨e | n, s'⟩
    · simp [hread, hrun, Except.toOption] at hmarked
    · obtain rfl : n = 1 := by simpa [hread, hrun, Except.toOption] using hmarked
      have hunedited : ([] : List Edit).foldl Edit.apply c = c := rfl
      have hmarks := markClass_marks_targets (.inl rfl) hread hunedited Bench.class?_remember hrun
      exact ⟨c, s', rfl, hrun, hmarks⟩

end JarRepair.Repair

import JarRepair.Proofs.Task
import JarRepair.Repair.Override

/-! # What lookups remember

A property that holds of all that the containers answer holds of all slots of the cache, as long as
edits keep it. Slots that are filled stay as they are until their class is edited; climbing to the
ancestors of a class edits none. -/

namespace JarRepair.Repair

open JarRepair.Task

variable {σ : Type}

/-! ## Caches -/

namespace Cache

variable {P : Bytes → Option ClassFile → Prop} {cache cache' : Cache}

/-- Every slot has the property. -/
def Holds (P : Bytes → Option ClassFile → Prop) (cache : Cache) : Prop :=
  ∀ name slot, cache.slots[name]? = some slot → P name slot

/-- All slots are also in the other cache. -/
def Within (cache cache' : Cache) : Prop :=
  ∀ (name : Bytes) (slot : Option ClassFile), cache.slots[name]? = some slot →
    cache'.slots[name]? = some slot

theorem Within.refl (cache : Cache) : cache.Within cache := fun _ _ => id

theorem Within.trans {cache'' : Cache} (h : cache.Within cache') (h' : cache'.Within cache'') :
    cache.Within cache'' := fun name slot hslot => h' name slot (h name slot hslot)

theorem Within.of_slots_eq (h : cache'.slots = cache.slots) : cache.Within cache' := by
  intro name slot hslot
  rwa [h]

theorem Holds.of_slots_eq (h : cache.Holds P) (hslots : cache'.slots = cache.slots) :
    cache'.Holds P := by
  intro name slot hslot
  rw [hslots] at hslot
  exact h name slot hslot

theorem getElem?_insert {slots : Std.TreeMap Bytes (Option ClassFile)} {name name' : Bytes}
    {slot : Option ClassFile} :
    (slots.insert name slot)[name']? = if name = name' then some slot else slots[name']? := by
  rw [Std.TreeMap.getElem?_insert]
  simp

theorem Holds.insert (h : cache.Holds P) {name : Bytes} {slot : Option ClassFile}
    (hslot : P name slot) (hslots : cache'.slots = cache.slots.insert name slot) :
    cache'.Holds P := by
  intro name' slot' h'
  rw [hslots, getElem?_insert] at h'
  split at h'
  · rename_i heq
    rw [← heq, ← Option.some.inj h']
    exact hslot
  · exact h name' slot' h'

theorem Within.insert {name : Bytes} {slot : Option ClassFile} (hnew : cache.slots[name]? = none)
    (hslots : cache'.slots = cache.slots.insert name slot) : cache.Within cache' := by
  intro name' slot' h'
  rw [hslots, getElem?_insert, if_neg]
  · exact h'
  · rintro rfl
    rw [hnew] at h'
    simp at h'

theorem holds_empty : ({} : Cache).Holds P := by
  intro name slot h
  simp at h

end Cache

/-! ## Benches -/

namespace Bench

variable {α : Type} {b : Bench σ} {name : Bytes} {c : ClassFile}

/-- A bench on which the class of a name has become another. -/
def remember (b : Bench σ) (name : Bytes) (c : ClassFile) : Bench σ :=
  { b with cache.slots := b.cache.slots.insert name (some c) }

theorem class?_eq_some_iff : b.class? name = some c ↔ b.cache.slots[name]? = some (some c) := by
  rw [class?, Option.join_eq_some_iff]

@[simp] theorem class?_remember : (b.remember name c).class? name = some c := by
  rw [class?_eq_some_iff, remember, Cache.getElem?_insert, if_pos rfl]

theorem ensures_inWorld {t : Task σ α} {Q : α → Bench σ → Prop} {E : Error → Bench σ → Prop}
    (h : t.Ensures b.world (fun a w => Q a { b with world := w })
      (fun e w => E e { b with world := w })) :
    (inWorld t).Ensures b Q E := ensures_focus.mpr h

theorem ensures_modifyCache {f : Cache → Cache} {Q : Unit → Bench σ → Prop}
    {E : Error → Bench σ → Prop} (h : Q () { b with cache := f b.cache }) :
    (modifyCache f).Ensures b Q E := ensures_modifyState.mpr h

theorem ensures_edit {t : Task ClassFile α} {Q : α → Bench σ → Prop} {E : Error → Bench σ → Prop}
    (hc : b.class? name = some c)
    (h : t.Ensures c (fun a c' => Q a (b.remember name c'))
      (fun e c' => E e (b.remember name c'))) :
    (edit name t).Ensures b Q E := by
  refine ensures_focus.mpr ?_
  rw [hc]
  exact h

/-- The world and all slots are as they should be. -/
structure Sound (I : σ → Prop) (P : Bytes → Option ClassFile → Prop) (b : Bench σ) : Prop where
  world : I b.world
  cache : b.cache.Holds P

/-- The bench is sound, and nothing has been forgotten since the other one. -/
structure After (I : σ → Prop) (P : Bytes → Option ClassFile → Prop) (b b' : Bench σ) : Prop
    extends Sound I P b' where
  within : b.cache.Within b'.cache

variable {I : σ → Prop} {P : Bytes → Option ClassFile → Prop}

theorem Sound.after (h : b.Sound I P) : After I P b b := ⟨h, .refl _⟩

theorem After.trans {b₁ b₂ : Bench σ} (h : After I P b b₁) (h' : After I P b₁ b₂) :
    After I P b b₂ :=
  ⟨h'.toSound, h.within.trans h'.within⟩

theorem Sound.remember (h : b.Sound I P) (hc : P name (some c)) : (b.remember name c).Sound I P :=
  ⟨h.world, h.cache.insert hc rfl⟩

theorem After.class? {b' : Bench σ} (h : After I P b b') (hc : b.class? name = some c) :
    b'.class? name = some c :=
  class?_eq_some_iff.mpr (h.within _ _ (class?_eq_some_iff.mp hc))

end Bench

/-! ## Looking up -/

variable {src : Sources σ} {I : σ → Prop} {A : Bytes → Except Error (Option ClassFile) → Prop}
  {P : Bytes → Option ClassFile → Prop} {b : Bench σ}

/-- What is loaded for a name is one of the answers for it; the cache gets nothing yet. -/
def Sources.Loads (src : Sources σ) (I : σ → Prop)
    (A : Bytes → Except Error (Option ClassFile) → Prop) :
    Prop :=
  ∀ name b, I b.world → (src.load name).Ensures b
    (fun found b' => A name (.ok found) ∧ I b'.world ∧ b'.cache.slots = b.cache.slots)
    (fun e b' => A name (.error e) ∧ I b'.world ∧ b'.cache.slots = b.cache.slots)

/-- A lookup fills the slot of its name. It fails only if loading fails. -/
theorem Sources.Loads.ensures_find (h : src.Loads I A)
    (hA : ∀ name found, A name (.ok found) → P name found) (hb : b.Sound I P) (name : Bytes) :
    (src.find name).Ensures b
      (fun found b' => Bench.After I P b b' ∧ b'.cache.slots[name]? = some found)
      (fun e b' => Bench.After I P b b' ∧ A name (.error e)) := by
  refine Ensures.bind (ensures_state.mpr ?_)
  split
  · rename_i slot hslot
    refine Ensures.bind (Bench.ensures_modifyCache (ensures_pure.mpr ⟨?_, hslot⟩))
    exact ⟨⟨hb.world, hb.cache.of_slots_eq rfl⟩, .of_slots_eq rfl⟩
  · rename_i hnone
    have hfill {found : Option ClassFile} (hfound : A name (.ok found)) {b₁ : Bench σ}
        (hworld : I b₁.world) (hslots : b₁.cache.slots = b.cache.slots) :
        (do Bench.modifyCache fun cache => { cache with slots := cache.slots.insert name found }
            return found : Task (Bench σ) (Option ClassFile)).Ensures b₁
          (fun found b' => Bench.After I P b b' ∧ b'.cache.slots[name]? = some found)
          (fun e b' => Bench.After I P b b' ∧ A name (.error e)) := by
      refine Ensures.bind (Bench.ensures_modifyCache (ensures_pure.mpr ⟨⟨⟨hworld, ?_⟩, ?_⟩, ?_⟩))
      · exact (hb.cache.of_slots_eq hslots).insert (hA name found hfound) rfl
      · exact .insert hnone (by rw [hslots])
      · rw [Cache.getElem?_insert, if_pos rfl]
    refine Ensures.bind (Bench.ensures_modifyCache ?_)
    refine Ensures.bind ((h name { b with cache.misses := b.cache.misses + 1 } hb.world).mono ?_ ?_)
    · rintro found b₁ ⟨hfound, hworld, hslots⟩
      dsimp only
      split
      · refine Ensures.bind (Bench.ensures_modifyCache (Ensures.bind (ensures_note.mpr ?_)))
        exact hfill hfound hworld hslots
      · exact hfill hfound hworld hslots
    · rintro e b' ⟨herror, hworld, hslots⟩
      exact ⟨⟨⟨hworld, hb.cache.of_slots_eq hslots⟩, .of_slots_eq hslots⟩, herror⟩

/-! ## Climbing -/

namespace Survey

variable {τ : Type} {find : Bytes → Task τ (Option ClassFile)} {E : Error → τ → Prop}

/-- An invariant of the fuel left, the classes to go through, what is known and the state holds at
the end of a climb, when there is no fuel or no class left. -/
theorem ensures_climb {J : Nat → List ClassFile → Survey → τ → Prop}
    (hstep : ∀ fuel node nodes s w, J (fuel + 1) (node :: nodes) s w →
      (visitParents find node s).Ensures w (fun s' => J fuel (s'.found.reverse ++ nodes) s') E)
    {fuel : Nat} {nodes : List ClassFile} {s : Survey} {w : τ} (h : J fuel nodes s w) :
    (climb find fuel nodes s).Ensures w
      (fun s' w' => (∃ nodes', J 0 nodes' s' w') ∨ ∃ fuel', J fuel' [] s' w') E := by
  induction fuel generalizing nodes s w with
  | zero =>
    rw [climb]
    exact ensures_pure.mpr (.inl ⟨nodes, h⟩)
  | succ fuel ih =>
    cases nodes with
    | nil =>
      rw [climb]
      · exact ensures_pure.mpr (.inr ⟨_, h⟩)
      · simp
    | cons node nodes =>
      rw [climb]
      exact Ensures.bind ((hstep fuel node nodes s w h).mono (fun _ _ => ih) fun _ _ => id)

/-- What is known after a parent was visited for the first time. -/
def learn (s : Survey) (name : Bytes) : Option ClassFile → Survey
  | some c =>
    { { s with visited := s.visited.insert name }.addMethods c with found := c :: s.found }
  | none => { s with visited := s.visited.insert name }

/-- A parent is looked up unless it has been visited. -/
theorem ensures_visit {node : ClassFile} {s : Survey} {name : Bytes} {w : τ} {Q : Survey → τ → Prop}
    (hseen : name ∈ s.visited → Q s w)
    (hnew : name ∉ s.visited → (find name).Ensures w (fun found => Q (s.learn name found)) E) :
    (visit find node s name).Ensures w Q E := by
  rw [visit]
  split
  · rename_i hvisited
    exact ensures_pure.mpr (hseen (Std.TreeSet.mem_iff_contains.mpr hvisited))
  · rename_i hvisited
    refine Ensures.bind ((hnew (hvisited ∘ Std.TreeSet.mem_iff_contains.mp)).mono ?_ fun _ _ => id)
    intro found w' hQ
    cases found with
    | some c => exact ensures_pure.mpr hQ
    | none => exact Ensures.bind (ensures_note.mpr (ensures_pure.mpr hQ))

theorem after_visitParents (h : src.Loads I A)
    (hA : ∀ name found, A name (.ok found) → P name found) (hb : b.Sound I P) (node : ClassFile)
    (s : Survey) :
    (visitParents src.find node s).Ensures b (fun _ => Bench.After I P b)
      (fun _ => Bench.After I P b) := by
  refine Ensures.foldlM (I := fun _ _ => Bench.After I P b) (fun _ name _ s b₁ _ hb₁ => ?_) hb.after
  refine ensures_visit (fun _ => hb₁) fun _ => ?_
  exact (h.ensures_find hA hb₁.toSound name).mono (fun _ _ hb₂ => hb₁.trans hb₂.1)
    fun _ _ hb₂ => hb₁.trans hb₂.1

end Survey

/-- Collecting what is inherited edits no class. -/
theorem after_inheritedSignatures (h : src.Loads I A)
    (hA : ∀ name found, A name (.ok found) → P name found) (hb : b.Sound I P) (c : ClassFile) :
    (inheritedSignatures src c).Ensures b (fun _ => Bench.After I P b)
      (fun _ => Bench.After I P b) := by
  refine Ensures.bind
    ((Survey.ensures_climb (J := fun _ _ _ => Bench.After I P b) ?_ hb.after).mono ?_
    fun _ _ => id)
  · intro fuel node nodes s b₁ hb₁
    exact (Survey.after_visitParents h hA hb₁.toSound node s).mono (fun _ _ => hb₁.trans)
      fun _ _ => hb₁.trans
  · rintro s b' (⟨-, hb'⟩ | ⟨-, hb'⟩) <;> exact ensures_pure.mpr hb'

end JarRepair.Repair

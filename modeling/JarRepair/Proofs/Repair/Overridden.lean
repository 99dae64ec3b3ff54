import JarRepair.Proofs.Repair.Reachability

/-! # Every marker has a method above it

Where each method is its own target, a marker is added only to a method whose signature a class
above declares. A signature is a name and a descriptor with nothing between them, so two methods
with the same signature need not have the same name: a name may hold a parenthesis. Names that hold
none are told apart by the first parenthesis of the signature. -/

namespace JarRepair

namespace ClassFile

open JarRepair.Task

/-! ## Signatures -/

/-- The parenthesis that opens the parameters is the first one of the signature. -/
structure Method.Plain (m : Method) : Prop where
  name : Bytes.char '(' ∉ m.name
  descriptor : m.descriptor.head? = some (Bytes.char '(')

theorem Method.Plain.takeWhile_signature {m : Method} (hm : m.Plain) :
    m.signature.takeWhile (· != Bytes.char '(') = m.name := by
  obtain ⟨rest, hrest⟩ := List.head?_eq_some_iff.mp hm.descriptor
  have hname : ∀ x ∈ m.name, (x != Bytes.char '(') = true := by
    intro x hx
    rw [bne_iff_ne]
    rintro rfl
    exact hm.name hx
  rw [signature, hrest, List.takeWhile_append_of_pos hname, List.takeWhile_cons_of_neg (by simp),
    List.append_nil]

theorem Method.Plain.key_eq {m a : Method} (hm : m.Plain) (ha : a.Plain)
    (h : a.signature = m.signature) : a.key = m.key := by
  have hname : a.name = m.name := by rw [← ha.takeWhile_signature, h, hm.takeWhile_signature]
  rw [signature, signature, hname] at h
  rw [key, hname, List.append_cancel_left h, key]

/-! ## Marking the methods themselves -/

theorem Method.GainsMarker.key_eq {m m' : Method} (h : m.GainsMarker m') : m'.key = m.key := by
  rw [h.rest, key, key]

theorem Method.GainsMarker.isMarked {m m' : Method} (h : m.GainsMarker m') :
    m'.isMarked overrideType = true := by
  obtain ⟨i, hi⟩ := h.last
  exact isMarked_of_marker hi

/-- Methods have changed by a marker at most, and only where the signature is allowed. -/
def MarkedFrom (allowed : Bytes → Prop) (c c' : ClassFile) : Prop :=
  ∀ (k : Nat) (m m' : Method), c.methods[k]? = some m → c'.methods[k]? = some m' →
    m' = m ∨ m.GainsMarker m' ∧ allowed m.signature

section

variable {allowed : Bytes → Prop} {c c₁ c₂ : ClassFile} {k t : Nat} {m m' : Method}

theorem MarkedFrom.refl (allowed : Bytes → Prop) (c : ClassFile) : MarkedFrom allowed c c :=
  fun _ _ _ hm hm' => .inl (Option.some.inj (hm'.symm.trans hm))

theorem MarkedFrom.key_eq (h : MarkedFrom allowed c c₁) (hm : c.methods[k]? = some m)
    (hm' : c₁.methods[k]? = some m') : m'.key = m.key := by
  rcases h k m m' hm hm' with rfl | ⟨hgains, -⟩
  · rfl
  · exact hgains.key_eq

/-- Marking is tried on a method with an allowed signature, and it may fail. -/
theorem MarkedFrom.mark (h : MarkedFrom allowed c c₁)
    (ht : ∀ m₁, c₁.methods[t]? = some m₁ → allowed m₁.signature) {x : Except Error Bool}
    (hrun : ClassFile.mark t overrideType c₁ = (x, c₂)) : MarkedFrom allowed c c₂ := by
  cases x with
  | error e =>
    rcases mark_eq_error_cases hrun with rfl | ⟨i, pool, -, rfl⟩
    · exact h
    · exact h
  | ok added =>
    rcases mark_eq_ok_cases hrun with ⟨-, rfl, -⟩ | ⟨-, m₁, pool, m₂, hm₁, hnot, hmarks, rfl⟩
    · exact h
    · intro k m m' hm hm'
      dsimp only at hm'
      by_cases hk : t = k
      · subst hk
        rw [List.getElem?_set_self (List.getElem?_eq_some_iff.mp hm₁).1, Option.some.injEq] at hm'
        subst hm'
        rcases h t m m₁ hm hm₁ with rfl | ⟨hgains, -⟩
        · exact .inr ⟨hmarks.gainsMarker hnot, ht m₁ hm₁⟩
        · rw [hgains.isMarked] at hnot
          cases hnot
      · rw [List.getElem?_set_ne hk] at hm'
        exact h k m m' hm hm'

/-- The target of a method is one with the same key, or the method itself. -/
theorem key_of_markTarget {key : MethodKey} (hk : ∀ m', c.methods[k]? = some m' → m'.key = key)
    (hm : c.methods[c.markTarget key k]? = some m) : m.key = key := by
  rcases receives_iff.mpr rfl with ⟨⟨m', hm', hkey⟩, -⟩ | ⟨-, htarget⟩
  · rwa [Option.some.inj (hm.symm.trans hm')]
  · rw [htarget] at hm
    exact hk m hm

/-- Where each method is its own target, only methods with inherited signatures get markers. -/
theorem ensures_markOverrides_identity {inherited : Std.TreeSet Bytes}
    (hallowed : ∀ signature ∈ inherited, allowed signature) (c : ClassFile) :
    (markOverrides .identity inherited).Ensures c (fun _ => MarkedFrom allowed c)
      (fun _ => MarkedFrom allowed c) := by
  refine Ensures.bind (ensures_state.mpr ?_)
  refine Ensures.foldlM (I := fun _ _ => MarkedFrom allowed c) ?_ (.refl allowed c)
  rintro done ⟨m, k⟩ rest n c₁ hitems hmarked
  have hm : c.methods[k]? = some m :=
    List.mem_zipIdx_iff_getElem?.mp (hitems ▸ List.mem_append_right done List.mem_cons_self)
  have htarget (key : MethodKey) (hover : m.overrides inherited = true)
      (hkey : Resolver.identity.target c₁ (c₁.methods[k]?.getD m) = .ok key) (m₁ : Method)
      (hm₁ : c₁.methods[c₁.markTarget key k]? = some m₁) : allowed m₁.signature := by
    have hown : (c₁.methods[k]?.getD m).key = m.key := by
      cases hself : c₁.methods[k]? with
      | none => rfl
      | some m' => exact hmarked.key_eq hm hself
    obtain rfl : m.key = key := hown.symm.trans (Except.ok.inj hkey)
    have hsame : m₁.key = m.key := key_of_markTarget (fun m' => hmarked.key_eq hm) hm₁
    rw [Method.key, Method.key, MethodKey.mk.injEq] at hsame
    rw [Method.signature, hsame.1, hsame.2]
    exact hallowed _ (Method.overrides_iff.mp hover).2
  refine Ensures.bind (ensures_markOverride ?_ ?_ ?_ ?_)
  · exact fun _ => ensures_pure.mpr hmarked
  · exact fun key added c₂ hover hkey hrun =>
      ensures_pure.mpr (hmarked.mark (htarget key hover hkey) hrun)
  · exact fun _ _ _ => hmarked
  · exact fun key e c₂ hover hkey hrun => hmarked.mark (htarget key hover hkey) hrun

end

end ClassFile

/-! ## Visiting a class -/

namespace Task

theorem Mirrors.ensures {σ τ α : Type} {part : τ → σ} {t : Task τ α} {u : Task σ α} {w : τ}
    {Q : α → σ → Prop} {E : Error → σ → Prop} (h : Mirrors part t u)
    (ht : t.Ensures w (fun a w' => Q a (part w')) (fun e w' => E e (part w'))) :
    u.Ensures (part w) Q E := by
  intro notes
  have hends := ht notes
  rw [h w notes]
  generalize t { state := w, notes } = run at hends ⊢
  obtain ⟨e | a, s'⟩ := run
  · exact hends
  · exact hends

/-- A state that is as it should be however the task ends. -/
theorem Ensures.state {σ α : Type} {t : Task σ α} {s : σ} {P : σ → Prop}
    (h : t.Ensures s (fun _ => P) (fun _ => P)) (notes : Array Log.Note) :
    P (t { state := s, notes }).2.state := by
  have hends := h notes
  generalize t { state := s, notes } = run at hends ⊢
  obtain ⟨e | a, s'⟩ := run
  · exact hends
  · exact hends

end Task

namespace Repair

open JarRepair.Task
open Archive (Path)
open ClassFile (MarkedFrom Method decode)

variable {σ : Type} {src : Sources σ} {look : Path → Option (Option Bytes)} {name : Bytes}
  {c : ClassFile} {b : Bench σ}

theorem Sources.Shows.ensures_inheritedSignatures_kinIn (h : src.Shows look)
    (hcache : b.cache.Over look) (c : ClassFile) :
    (inheritedSignatures src c).Ensures b
      (fun inherited _ => ∀ signature, signature ∈ inherited ↔
        Inherits (kinIn look b.cache) c signature)
      (fun _ _ => True) := by
  have hask (asked : List Bytes) (name : Bytes) (q : Questioned σ) (hq : Consulted look b asked q)
      (hnew : name ∉ asked) (_ : Reaches (kinIn look b.cache) c name) : (src.ask name).Ensures q
        (fun found q' => found.map ClassFile.kin = kinIn look b.cache name ∧
          (found.isSome = true → name ∈ src.names) ∧ Consulted look b (asked ++ [name]) q')
        (fun _ _ => True) :=
    (h.ensures_ask hcache hq hnew).mono (fun _ _ => id) fun _ _ _ => trivial
  have hstart : Consulted look b [] { bench := b } := ⟨rfl, fun _ _ => rfl, by simp⟩
  refine (Survey.mirrors_signaturesAbove src.mirrors_ask _ c).ensures (w := { bench := b }) ?_
  exact (Survey.ensures_signaturesAbove (kinIn look b.cache) hask
    (Nat.lt_succ_of_lt src.card_names_lt) hstart).mono (fun _ _ hends => hends.1) fun _ _ => id

/-- A class that can be reached and is found declares the method, and it can be overridden. -/
def Above (look : Path → Option (Option Bytes)) (cache : Cache) (c : ClassFile) (a : Method) :
    Prop :=
  ∃ name d, Reaches (kinIn look cache) c name ∧ resolved look cache name = some (some d) ∧
    a ∈ d.methods ∧ a.Overridable

theorem Sources.Shows.ensures_markClass_identity (h : src.Shows look) (hcache : b.cache.Over look)
    (hslot : b.class? name = some c) :
    (markClass src .identity name c).Ensures b
      (fun _ b' => ∃ c', b'.class? name = some c' ∧
        MarkedFrom (Inherits (kinIn look b.cache) c) c c')
      (fun _ b' => ∃ c', b'.class? name = some c' ∧
        MarkedFrom (Inherits (kinIn look b.cache) c) c c') := by
  have hafter := after_inheritedSignatures (P := fun _ _ => True) src.loads (fun _ _ _ => trivial)
    (b := b) ⟨trivial, fun _ _ _ => trivial⟩ c
  refine Ensures.bind (ensures_mapError.mpr
    ((hafter.and (h.ensures_inheritedSignatures_kinIn hcache c)).mono ?_ ?_))
  · rintro inherited b₁ ⟨hb₁, hinherited⟩
    exact Bench.ensures_edit (hb₁.class? hslot)
      ((ClassFile.ensures_markOverrides_identity (fun s => (hinherited s).mp) c).mono
        (fun _ c' hc' => ⟨c', Bench.class?_remember, hc'⟩)
        fun _ c' hc' => ⟨c', Bench.class?_remember, hc'⟩)
  · rintro e b₁ ⟨hb₁, -⟩
    exact ⟨c, hb₁.class? hslot, .refl _ c⟩

/-- Where each method is its own target, visiting a class changes methods by their marker at most,
also if the visit fails. A method that gets one has the signature of a method above, and if neither
name holds a parenthesis, its name and its descriptor. The cache may hold any classes. -/
theorem above_of_markClass (h : src.Shows look) (hcache : b.cache.Over look)
    (hslot : b.class? name = some c) (notes : Array Log.Note) :
    ∃ c', (markClass src .identity name c { state := b, notes }).2.state.class? name = some c' ∧
      ∀ (k : Nat) (m m' : Method), c.methods[k]? = some m → c'.methods[k]? = some m' → m' ≠ m →
        m.GainsMarker m' ∧ ∃ a, Above look b.cache c a ∧ a.signature = m.signature ∧
          (m.Plain → a.Plain → a.key = m.key) := by
  obtain ⟨c', hc', hmarked⟩ := (h.ensures_markClass_identity hcache hslot).state notes
  refine ⟨c', hc', fun k m m' hm hm' hne => ?_⟩
  obtain ⟨hgains, hinherits⟩ := (hmarked k m m' hm hm').resolve_left hne
  obtain ⟨ancestor, d, a, hreaches, hd, ha, hover, hsame⟩ := inherits_kinIn_iff.mp hinherits
  exact ⟨hgains, a, ⟨ancestor, d, hreaches, hd, ha, hover⟩, hsame,
    fun hplain haplain => hplain.key_eq haplain hsame⟩

/-! ## Names with a parenthesis -/

/-- A class with a superclass and one public method. -/
def declaring (name parent method descriptor : Bytes) : Bytes :=
  Bytes.dword ClassFile.magic ++ [0, 0, 0, 52] ++
    ClassFile.Pool.encode ⟨#[.unusable, ClassFile.Pool.textSlot name,
      .entry ClassFile.Tag.classRef [0, 1], ClassFile.Pool.textSlot parent,
      .entry ClassFile.Tag.classRef [0, 3], ClassFile.Pool.textSlot method,
      ClassFile.Pool.textSlot descriptor]⟩ ++
    [0, 33, 0, 2, 0, 4, 0, 0, 0, 0] ++ [0, 1, 0, 1, 0, 5, 0, 6, 0, 0] ++ [0, 0]

/-- A class `A` that extends `B`, each with one method. -/
def parentAndChild (parent child : ClassFile.MethodKey) : Archive.Memory where
  files := ((∅ : Std.TreeMap Path Bytes).insert "A.class"
    (declaring "A" "B" child.name child.descriptor)).insert "B.class"
    (declaring "B" "java/lang/Object" parent.name parent.descriptor)

def inMemory (m : Archive.Memory) : Sources Unit where
  primary := m.reader []

/-- What there is for each path in memory. -/
def lookIn (m : Archive.Memory) (p : Path) : Option (Option Bytes) := (m.files[p]?.map some).or none

theorem shows_inMemory (m : Archive.Memory) : (inMemory m).Shows (lookIn m) :=
  Sources.shows (Archive.Reader.shows_of_gives (fun p => by
      rw [Archive.Memory.contains_reader, Std.TreeMap.contains_eq_isSome_getElem?])
    fun _ _ => Archive.Memory.gives_reader) (by simp) fun _ _ => rfl

/-- The class `A` is in the cache, and nothing else. -/
def alone (c : ClassFile) : Bench Unit := Bench.remember { world := () } "A" c

section

variable {m : Archive.Memory}

theorem resolved_alone (c : ClassFile) (hne : name ≠ "A") :
    resolved (lookIn m) (alone c).cache name = answer (lookIn m) name := by
  have hslot : (alone c).cache.slots[name]? = none := by
    rw [alone, Bench.remember, Cache.getElem?_insert, if_neg (Ne.symm hne)]
    rfl
  rw [resolved, hslot]

theorem over_alone (hc : answer (lookIn m) "A" = some (some c)) :
    (alone c).cache.Over (lookIn m) := by
  intro name slot hslot
  rw [alone, Bench.remember, Cache.getElem?_insert] at hslot
  split at hslot
  · rename_i hname
    subst hname
    obtain rfl := Option.some.inj hslot
    exact ⟨some c, hc, rfl⟩
  · simp at hslot

/-- Which methods of `A` have markers before and after a visit. -/
def marksOf (m : Archive.Memory) : Option (List Bool × Option (List Bool)) :=
  (answer (lookIn m) "A").join.map fun c => (c.methods.map (·.isMarked ClassFile.overrideType),
    ((markClass (inMemory m) .identity "A" c { state := alone c }).2.state.class? "A").map
      fun c' => c'.methods.map (·.isMarked ClassFile.overrideType))

theorem exists_of_marksOf (h : marksOf m = some ([false], some [true])) :
    ∃ c c' x x', answer (lookIn m) "A" = some (some c) ∧
      (markClass (inMemory m) .identity "A" c { state := alone c }).2.state.class? "A" = some c' ∧
      c.methods[0]? = some x ∧ c'.methods[0]? = some x' ∧ x' ≠ x := by
  obtain ⟨c, hc, hmarks⟩ := Option.map_eq_some_iff.mp h
  obtain ⟨hbefore, hafter⟩ := Prod.mk.inj hmarks
  obtain ⟨c', hc', hafter⟩ := Option.map_eq_some_iff.mp hafter
  obtain ⟨x, hx, hxfalse⟩ := List.map_eq_singleton_iff.mp hbefore
  obtain ⟨x', hx', hxtrue⟩ := List.map_eq_singleton_iff.mp hafter
  refine ⟨c, c', x, x', Option.join_eq_some_iff.mp hc, hc', by rw [hx]; rfl, by rw [hx']; rfl, ?_⟩
  rintro rfl
  rw [hxfalse] at hxtrue
  cases hxtrue

/-- Only the parent is above the child. -/
theorem mem_of_above {d : ClassFile} {a : Method} (hchild : c.parents = [("B" : Bytes)])
    (hd : answer (lookIn m) "B" = some (some d))
    (hparent : d.parents = [("java/lang/Object" : Bytes)])
    (hnone : answer (lookIn m) "java/lang/Object" = some none)
    (h : Above (lookIn m) (alone c).cache c a) : a ∈ d.methods := by
  have hB : resolved (lookIn m) (alone c).cache "B" = some (some d) := by
    rw [resolved_alone c (by decide), hd]
  have hObject : resolved (lookIn m) (alone c).cache "java/lang/Object" = some none := by
    rw [resolved_alone c (by decide), hnone]
  have hreached {name : Bytes} (hreaches : Reaches (kinIn (lookIn m) (alone c).cache) c name) :
      name = "B" ∨ name = "java/lang/Object" := by
    induction hreaches with
    | parent hmem =>
      rw [show c.kin.parents = _ from hchild, List.mem_singleton] at hmem
      exact .inl hmem
    | next _ hk hmem _ ih =>
      rcases ih with rfl | rfl
      · rw [kinIn, hB, Option.join_some, Option.map_some, Option.some.injEq] at hk
        rw [← hk, show d.kin.parents = _ from hparent, List.mem_singleton] at hmem
        exact .inr hmem
      · rw [kinIn, hObject] at hk
        cases hk
  obtain ⟨ancestor, d', hreaches, hd', ha, -⟩ := h
  rcases hreached hreaches with rfl | rfl
  · obtain rfl := Option.some.inj (Option.some.inj (hB.symm.trans hd'))
    exact ha
  · rw [hObject] at hd'
    cases hd'

end

/-- Parent and child declare the same method. -/
def namesakes : Archive.Memory := parentAndChild ⟨"m", "()V"⟩ ⟨"m", "()V"⟩

theorem above_of_markClass_namesakes : ∃ c c' m m', answer (lookIn namesakes) "A" = some (some c) ∧
    (markClass (inMemory namesakes) .identity "A" c { state := alone c }).2.state.class? "A" =
      some c' ∧
    c.methods[0]? = some m ∧ c'.methods[0]? = some m' ∧ m' ≠ m ∧ m.GainsMarker m' ∧
      ∃ a, Above (lookIn namesakes) (alone c).cache c a ∧ a.signature = m.signature ∧
        (m.Plain → a.Plain → a.key = m.key) := by
  obtain ⟨c, c', m, m', hc, hc', hm, hm', hne⟩ :=
    exists_of_marksOf (m := namesakes) (by decide +kernel)
  obtain ⟨c'', hc'', habove⟩ :=
    above_of_markClass (shows_inMemory namesakes) (over_alone hc) Bench.class?_remember #[]
  obtain rfl := Option.some.inj (hc''.symm.trans hc')
  exact ⟨c, c'', m, m', hc, hc', hm, hm', hne, habove 0 m m' hm hm' hne⟩

/-- The method of the parent is called `f(La`, the method of the child `f`. -/
def strangers : Archive.Memory := parentAndChild ⟨"f(La", "(Lb;)V"⟩ ⟨"f", "(La(Lb;)V"⟩

theorem markClass_marks_strangers : ∃ c c' m m', answer (lookIn strangers) "A" = some (some c) ∧
    (markClass (inMemory strangers) .identity "A" c { state := alone c }).2.state.class? "A" =
      some c' ∧
    c.methods[0]? = some m ∧ c'.methods[0]? = some m' ∧ m' ≠ m ∧
      ¬ ∃ a, Above (lookIn strangers) (alone c).cache c a ∧ a.key = m.key := by
  obtain ⟨c, c', m, m', hc, hc', hm, hm', hne⟩ :=
    exists_of_marksOf (m := strangers) (by decide +kernel)
  have hchild : (answer (lookIn strangers) "A").map
      (Option.map fun c => (c.parents, c.methods.map Method.key)) =
        some (some ([("B" : Bytes)], [⟨"f", "(La(Lb;)V"⟩])) := by
    decide +kernel
  have hparent : (answer (lookIn strangers) "B").map
      (Option.map fun d => (d.parents, d.methods.map Method.key)) =
        some (some ([("java/lang/Object" : Bytes)], [⟨"f(La", "(Lb;)V"⟩])) := by
    decide +kernel
  simp only [hc, Option.map_some, Option.some.injEq, Prod.mk.injEq] at hchild
  simp only [Option.map_eq_some_iff, Prod.mk.injEq] at hparent
  obtain ⟨_, hd, d, rfl, hparents, hkeys⟩ := hparent
  refine ⟨c, c', m, m', hc, hc', hm, hm', hne, ?_⟩
  rintro ⟨a, habove, hkey⟩
  have ha := List.mem_map_of_mem (f := Method.key)
    (mem_of_above hchild.1 hd hparents (by decide +kernel) habove)
  have hm := List.mem_map_of_mem (f := Method.key) (List.mem_of_getElem? hm)
  rw [hkeys, List.mem_singleton] at ha
  rw [hchild.2, List.mem_singleton, ← hkey, ha] at hm
  exact absurd hm (by decide)

end Repair

end JarRepair

import JarRepair.Proofs.Repair.Order
import JarRepair.Proofs.Repair.Targets

/-! # A fallback takes no marker away

With a fallback more names can be told, and each name that could be told before is told as before:
so more classes are reached and more signatures are inherited. Each method that overrides without
the fallback does so with it, and sends its marker to the same target, although the two runs meet
the methods with different constants already added. The pools of the two runs can be compared,
because the texts that markers need are always added in one order. -/

namespace JarRepair.ClassFile

open JarRepair.Task

/-! ## The order of the texts in a pool -/

namespace Pool

/-- The texts that markers need and that the pool has no slot for, in the order in which they are
added. -/
def lacking (p : Pool) : List Bytes :=
  [overrideType, invisibleName].filter fun t => (p.findUtf8? t).isNone

/-- The pool has got the first of the texts that it was lacking. -/
def Supplied (p p' : Pool) : Prop :=
  ∃ texts, texts <+: p.lacking ∧ p'.slots.toList = p.slots.toList ++ texts.map textSlot

variable {p p₁ p₂ : Pool}

theorem supplied_refl (p : Pool) : p.Supplied p := ⟨[], List.nil_prefix, by simp⟩

/-- Of two pools that were supplied alike one is the start of the other. -/
theorem Supplied.le_or_le (h₁ : p.Supplied p₁) (h₂ : p.Supplied p₂) : p₁ ≤ p₂ ∨ p₂ ≤ p₁ := by
  obtain ⟨texts₁, hprefix₁, hslots₁⟩ := h₁
  obtain ⟨texts₂, hprefix₂, hslots₂⟩ := h₂
  simp only [le_def, hslots₁, hslots₂, List.prefix_append_right_inj]
  exact (List.prefix_or_prefix_of_prefix hprefix₁ hprefix₂).imp (fun h => h.map textSlot)
    fun h => h.map textSlot

theorem findUtf8?_append_eq_none_iff (hp : 0 < p.slots.size) {texts : List Bytes}
    (hslots : p₁.slots.toList = p.slots.toList ++ texts.map textSlot) {text : Bytes} :
    p₁.findUtf8? text = none ↔ p.findUtf8? text = none ∧ text ∉ texts := by
  have hdrop : p₁.slots.toList.drop 1 = p.slots.toList.drop 1 ++ texts.map textSlot := by
    rw [hslots, List.drop_append_of_le_length (by rwa [Array.length_toList])]
  have htext (t : Bytes) : Slot.isText text (textSlot t) = false ↔ t ≠ text := by
    show (Tag.utf8 == Tag.utf8 && t == text) = false ↔ t ≠ text
    simp
  simp only [findUtf8?_eq_none_iff, hdrop, List.mem_append, or_imp, forall_and, List.mem_map,
    forall_exists_index, and_imp, forall_apply_eq_imp_iff₂, htext]
  refine and_congr_right fun _ => ⟨fun h hmem => h text hmem rfl, ?_⟩
  rintro h t ht rfl
  exact h ht

theorem findUtf8?_of_addUtf8 (hp : 0 < p.slots.size) {text : Bytes} {i : UInt16}
    (hadd : p.addUtf8 text = .ok (i, p₁)) : p₁.findUtf8? text ≠ none := by
  rcases addUtf8_cases hadd with ⟨rfl, hfound⟩ | ⟨-, -, -, -, hslots⟩
  · simp [hfound]
  · rw [Ne, findUtf8?_append_eq_none_iff hp (show _ = _ ++ [text].map textSlot from hslots)]
    simp

/-- The type of the marker is the first of the texts. -/
theorem Supplied.addType (h : p.Supplied p₁) (hp : 0 < p.slots.size) {i : UInt16}
    (hadd : p₁.addUtf8 overrideType = .ok (i, p₂)) : p.Supplied p₂ := by
  obtain ⟨texts, hprefix, hslots⟩ := h
  rcases addUtf8_cases hadd with ⟨rfl, -⟩ | ⟨hnone, -, -, -, hslots₂⟩
  · exact ⟨texts, hprefix, hslots⟩
  · obtain ⟨hlacking, hnot⟩ := (findUtf8?_append_eq_none_iff hp hslots).mp hnone
    have hfirst : p.lacking = overrideType :: [invisibleName].filter fun t =>
      (p.findUtf8? t).isNone :=
      List.filter_cons_of_pos (by rw [hlacking]; rfl)
    rw [hfirst] at hprefix
    rcases List.prefix_cons_iff.mp hprefix with rfl | ⟨rest, rfl, -⟩
    · refine ⟨[overrideType], ?_, ?_⟩
      · rw [hfirst]
        exact List.prefix_append [overrideType] _
      · rw [hslots₂, hslots]
        simp
    · simp at hnot

/-- The name of the channel is added once the type is there. -/
theorem Supplied.addName (h : p.Supplied p₁) (hp : 0 < p.slots.size)
    (htype : p₁.findUtf8? overrideType ≠ none) {i : UInt16}
    (hadd : p₁.addUtf8 invisibleName = .ok (i, p₂)) : p.Supplied p₂ := by
  obtain ⟨texts, hprefix, hslots⟩ := h
  rcases addUtf8_cases hadd with ⟨rfl, -⟩ | ⟨hnone, -, -, -, hslots₂⟩
  · exact ⟨texts, hprefix, hslots⟩
  · obtain ⟨hlacking, hnot⟩ := (findUtf8?_append_eq_none_iff hp hslots).mp hnone
    rw [Ne, findUtf8?_append_eq_none_iff hp hslots, not_and, not_not] at htype
    have hlast :
        p.lacking = [overrideType].filter (fun t => (p.findUtf8? t).isNone) ++ [invisibleName] := by
      rw [lacking, ← List.singleton_append, List.filter_append,
        List.filter_cons_of_pos (a := invisibleName) (by rw [hlacking]; rfl), List.filter_nil]
    rw [hlast] at hprefix
    have hall : p.lacking = texts ++ [invisibleName] := by
      rw [hlast]
      rcases List.prefix_concat_iff.mp hprefix with rfl | hbefore
      · simp at hnot
      · congr 1
        cases hfound : p.findUtf8? overrideType with
        | none =>
          rw [List.filter_cons_of_pos (by rw [hfound]; rfl), List.filter_nil] at hbefore ⊢
          rcases List.prefix_cons_iff.mp hbefore with rfl | ⟨rest, rfl, hrest⟩
          · exact absurd (htype hfound) List.not_mem_nil
          · rw [List.prefix_nil.mp hrest]
        | some j =>
          rw [List.filter_cons_of_neg (by rw [hfound]; simp), List.filter_nil] at hbefore ⊢
          exact (List.prefix_nil.mp hbefore).symm
    refine ⟨texts ++ [invisibleName], by rw [hall], ?_⟩
    rw [hslots₂, hslots]
    simp

end Pool

/-! ## Marking in two runs -/

variable {r : Resolver} {inherited inherited' : Std.TreeSet Bytes} {c c' c₁ : ClassFile} {k : Nat}
  {type : Bytes}

theorem supplied_of_mark (hc : c.WellFormed) (hsupplied : c₁.pool.Supplied c.pool)
    (hc₁ : 0 < c₁.pool.slots.size) {added : Bool} (hrun : mark k overrideType c = (.ok added, c')) :
    c₁.pool.Supplied c'.pool := by
  rcases mark_eq_ok_cases hrun with ⟨-, rfl, -⟩ | ⟨-, m, pool, m', -, -, hmarks, rfl⟩
  · exact hsupplied
  · cases hmarks with
    | annotate _ htype => exact hsupplied.addType hc₁ htype
    | openInvisible _ htype hname =>
      have hfound := Pool.findUtf8?_of_addUtf8 hc.pool.size_pos htype
      exact (hsupplied.addType hc₁ htype).addName hc₁ hfound hname

theorem ensures_markOverrides_supplied (hc : c.WellFormed) :
    (markOverrides r inherited).Ensures c (fun _ c' => c.pool.Supplied c'.pool) (fun _ _ => True) :=
  (ensures_markOverrides (I := fun c' => c'.WellFormed ∧ c.pool.Supplied c'.pool)
    ⟨hc, Pool.supplied_refl _⟩
    (fun _ _ _ _ hc' hrun =>
      ⟨hc'.1.of_mark hrun, supplied_of_mark hc'.1 hc'.2 hc.pool.size_pos hrun⟩)
    (fun _ _ _ => trivial) fun _ _ _ _ _ _ _ => trivial).mono (fun _ _ h => h.2) fun _ _ => id

/-- What a resolver names for a method of a repaired class it names also after another repair of it
that leaves a larger pool. -/
theorem Resolver.target_of_pool_le (hr : r = .bridge ∨ r = .identity) (h : c₁.Repaired c)
    (h' : c₁.Repaired c') (hpool : c.pool ≤ c'.pool) {m₁ m m' : Method} (hm : m₁.Repaired m)
    (hm' : m₁.Repaired m') {key : MethodKey} (hkey : r.target c m = .ok key) :
    r.target c' m' = .ok key := by
  have hsame : m'.key = m.key := hm'.key_eq.trans hm.key_eq.symm
  rcases hr with rfl | rfl
  · simp only [bridge, Outcome.mapError_eq_ok_iff] at hkey ⊢
    exact bridgeTarget_mono hpool (h'.name_eq.trans h.name_eq.symm)
      (hm'.forwards?_eq.trans hm.forwards?_eq.symm) hsame hkey
  · show Except.ok m'.key = _
    rw [hsame]
    exact hkey

/-- After two runs a method sends its marker to the same target. -/
theorem Sends.unique_across (hr : r = .bridge ∨ r = .identity) (h : c₁.Repaired c)
    (h' : c₁.Repaired c') (hpool : c.pool ≤ c'.pool ∨ c'.pool ≤ c.pool) {x : Method × Nat}
    {t t' : Nat} (hsends : c₁.Sends r inherited c x t) (hsends' : c₁.Sends r inherited' c' x t') :
    t = t' := by
  obtain ⟨-, m, key, hm, hkey, rfl⟩ := hsends
  obtain ⟨-, m', key', hm', hkey', rfl⟩ := hsends'
  obtain ⟨m₁, hm₁, hrepaired⟩ := h.exists_before hm
  obtain ⟨m₂, hm₂, hrepaired'⟩ := h'.exists_before hm'
  obtain rfl := Option.some.inj (hm₁.symm.trans hm₂)
  have hsame : key = key' := by
    rcases hpool with hle | hle
    · exact Except.ok.inj
        ((Resolver.target_of_pool_le hr h h' hle hrepaired hrepaired' hkey).symm.trans hkey')
    · exact Except.ok.inj
        (hkey.symm.trans (Resolver.target_of_pool_le hr h' h hle hrepaired' hrepaired hkey'))
  rw [hsame]

theorem MarkedOn.rest {T : Set Nat} {n t : Nat} (h : MarkedOn T n c c') {m m' : Method}
    (hm : c.methods[t]? = some m) (hm' : c'.methods[t]? = some m') :
    m' = { m with attributes := m'.attributes, invisible := m'.invisible } := by
  by_cases hgains : t ∈ T ∧ m.isMarked overrideType = false
  · exact (h.gains t m m' hm hm' hgains.1 hgains.2).rest
  · obtain rfl := h.keeps t m m' hm hm' fun hT => by simpa [hT] using hgains
    rfl

/-- Where more is inherited, a method that is marked is marked too. -/
theorem Sent.isMarked_of_subset (hr : r = .bridge ∨ r = .identity) {n n' t : Nat}
    (h : Sent r inherited c₁ c₁.methods.zipIdx n c)
    (h' : Sent r inherited' c₁ c₁.methods.zipIdx n' c') (hpool : c.pool ≤ c'.pool ∨
      c'.pool ≤ c.pool) (hsub : ∀ signature ∈ inherited, signature ∈ inherited')
    {m₁ m m' : Method} (hm₁ : c₁.methods[t]? = some m₁) (hm : c.methods[t]? = some m)
    (hm' : c'.methods[t]? = some m') (hmarked : m.isMarked overrideType = true) :
    m'.isMarked overrideType = true := by
  cases hbefore : m₁.isMarked overrideType with
  | true => rwa [h'.marked.keeps t m₁ m' hm₁ hm' fun _ => hbefore]
  | false =>
    have hsent : t ∈ {t | ∃ x ∈ c₁.methods.zipIdx, c₁.Sends r inherited c x t} := by
      by_contra hnot
      rw [h.marked.keeps t m₁ m hm₁ hm fun hT => absurd hT hnot, hbefore] at hmarked
      simp at hmarked
    obtain ⟨x, hx, hsends⟩ := hsent
    have hover : x.1.overrides inherited' = true := by
      rw [Method.overrides_iff]
      exact ⟨(Method.overrides_iff.mp hsends.1).1, hsub _ (Method.overrides_iff.mp hsends.1).2⟩
    obtain ⟨t', hsends'⟩ := h'.sends x hx hover
    obtain rfl := hsends.unique_across hr h.repaired h'.repaired hpool hsends'
    obtain ⟨i, hlast⟩ := (h'.marked.gains t m₁ m' hm₁ hm' ⟨x, hx, hsends'⟩ hbefore).last
    exact Method.isMarked_of_marker hlast

/-- A method has the marker in one of its sets. -/
def Method.Carries (m : Method) : Prop :=
  ∃ v, AnnotationSet.has ((m.declared v).getD []) overrideType = true

/-- Where more is inherited, methods that get markers get them too, and no parameter channel
changes. -/
theorem Sent.carries_of_subset (hr : r = .bridge ∨ r = .identity) {n n' : Nat}
    (h : Sent r inherited c₁ c₁.methods.zipIdx n c)
    (h' : Sent r inherited' c₁ c₁.methods.zipIdx n' c') (hpool : c₁.pool.Supplied c.pool)
    (hpool' : c₁.pool.Supplied c'.pool) (hsub : ∀ signature ∈ inherited, signature ∈ inherited') :
    List.Forall₂ (fun m m' => (m.Carries → m'.Carries) ∧ ∀ v, m'.parameters v = m.parameters v)
      c.methods c'.methods := by
  refine List.forall₂_iff_get.mpr ⟨h.marked.length.trans h'.marked.length.symm, fun t ht ht' => ?_⟩
  have hm : c.methods[t]? = some c.methods[t] := List.getElem?_eq_getElem ht
  have hm' : c'.methods[t]? = some c'.methods[t] := List.getElem?_eq_getElem ht'
  obtain ⟨m₁, hm₁, -⟩ := h.repaired.exists_before hm
  simp only [List.get_eq_getElem]
  generalize c.methods[t] = m, c'.methods[t] = m' at hm hm'
  have hrest := h.marked.rest hm₁ hm
  have hrest' := h'.marked.rest hm₁ hm'
  constructor
  · rintro ⟨v, hv⟩
    cases v with
    | visible =>
      refine ⟨.visible, ?_⟩
      rw [hrest']
      rwa [hrest] at hv
    | invisible =>
      exact ⟨.invisible, h.isMarked_of_subset hr h' (hpool.le_or_le hpool') hsub hm₁ hm hm' hv⟩
  · intro v
    rw [hrest, hrest']
    cases v <;> rfl

end JarRepair.ClassFile

/-! ## More classes -/

namespace JarRepair.Repair

open JarRepair.Task
open Archive (Collected Entry Memory Path Reader)
open ClassFile (Kin Resolver decode decode_eq_ok_iff)

section

variable {kin kin' : Bytes → Option Kin} {c : ClassFile} {name signature : Bytes}

/-- Where more classes are told, more names are reached. -/
theorem Reaches.mono (h : ∀ name k, kin name = some k → kin' name = some k)
    (hname : Reaches kin c name) :
    Reaches kin' c name := by
  induction hname with
  | parent hparent hne => exact .parent hparent hne
  | next _ hk hparent hne ih => exact .next ih (h _ _ hk) hparent hne

theorem Inherits.mono (h : ∀ name k, kin name = some k → kin' name = some k)
    (hsignature : Inherits kin c signature) : Inherits kin' c signature := by
  obtain ⟨name, k, hreaches, hk, hmem⟩ := hsignature
  exact ⟨name, k, hreaches.mono h, h name k hk, hmem⟩

end

variable {look look' : Path → Option (Option Bytes)} {fetch : Path → Except Error Bytes}
  {r : Resolver}

/-- A name that has a class file is answered alike where that file is in front. -/
theorem answer_of_shadowed (h : ∀ p x, look p = some x → look' p = some x) {name : Bytes}
    {c : ClassFile} (hc : answer look name = some (some c)) :
    answer look' name = some (some c) := by
  cases hlook : look (Path.ofClass name) with
  | none => simp [answer, hlook] at hc
  | some x =>
    rw [answer, h _ x hlook, ← hc, answer, hlook]

theorem kinOf_of_shadowed (h : ∀ p x, look p = some x → look' p = some x) (name : Bytes) (k : Kin)
    (hk : kinOf look name = some k) : kinOf look' name = some k := by
  rw [kinOf, Option.map_eq_some_iff] at hk
  obtain ⟨c, hc, rfl⟩ := hk
  rw [Option.join_eq_some_iff] at hc
  rw [kinOf, answer_of_shadowed h hc]
  rfl

/-- What is written for a class with and without the files behind. -/
theorem Content.carries_of_shadowed (hr : r = .bridge ∨ r = .identity)
    (h : ∀ p x, look p = some x → look' p = some x) {p : Path} (hpath : p.isClass = true)
    {data data' : Bytes} (hdata : Content look fetch r p data)
    (hdata' : Content look' fetch r p data') :
    ∃ c c', decode data = .ok c ∧ decode data' = .ok c' ∧
      List.Forall₂ (fun m m' => (m.Carries → m'.Carries) ∧ ∀ v, m'.parameters v = m.parameters v)
        c.methods c'.methods := by
  obtain ⟨_, hshare, hwritten⟩ := hdata
  obtain ⟨_, hshare', hwritten'⟩ := hdata'
  cases hshare with
  | resource hresource =>
    rw [hpath] at hresource
    simp at hresource
  | @repaired _ c₀ c₁ c realigned _ inherited _ _ _ hanswer hrealign _ hinherited hmark hwrite =>
    cases hshare' with
    | resource hresource =>
      rw [hpath] at hresource
      simp at hresource
    | @repaired _ c₀' c₁' c' realigned' _ inherited' _ _ _ hanswer' hrealign' _ hinherited'
        hmark' hwrite' =>
      obtain rfl :=
        Option.some.inj (Option.some.inj ((answer_of_shadowed h hanswer).symm.trans hanswer'))
      obtain ⟨rfl, rfl⟩ := Prod.mk.inj (Option.some.inj (hrealign.unique hrealign'))
      have hc₀ : c₀.WellFormed := Answered.wellFormed hanswer.symm
      obtain ⟨-, hc₁, -⟩ := hrealign.of_ensures hc₀.ensures_realign_repaired
      have hr' : r.Stable := Resolver.Stable.of_eq hr
      have hsent := hmark.of_ensures (ClassFile.ensures_markOverrides_sent hr' hc₁)
      have hsent' := hmark'.of_ensures (ClassFile.ensures_markOverrides_sent hr' hc₁)
      obtain rfl := Option.some.inj hwritten
      obtain rfl := Option.some.inj hwritten'
      refine ⟨c, c', decode_eq_ok_iff.mpr ⟨hsent.wellFormed, hwrite⟩,
        decode_eq_ok_iff.mpr ⟨hsent'.wellFormed, hwrite'⟩, ?_⟩
      refine hsent.carries_of_subset hr hsent'
        (hmark.of_ensures (ClassFile.ensures_markOverrides_supplied hc₁))
        (hmark'.of_ensures (ClassFile.ensures_markOverrides_supplied hc₁)) fun signature hmem => ?_
      rw [hinherited']
      exact ((hinherited signature).mp hmem).mono (kinOf_of_shadowed h)

/-- With a fallback each method has the marker that has it without, and all parameter channels are
the same. -/
theorem repair_fallback_carries {primary fallback : Reader Collected} (hprimary : primary.Steady)
    (hfallback : fallback.Steady) (hr : r = .bridge ∨ r = .identity) {notes notes' : Array Log.Note}
    {report report' : Report} {s s' : Traced (Bench Collected)}
    (hrun : repair { primary } r Collected.writer { state := { world := {} }, notes } =
      (.ok report, s))
    (hrun' : repair { primary, fallback := some fallback } r Collected.writer
      { state := { world := {} }, notes := notes' } = (.ok report', s')) :
    ∀ e ∈ primary.entries, e.kind = .file → e.path.isClass = true →
      ∃ data data' c c', s.state.world.files[e.path]? = some data ∧
        s'.state.world.files[e.path]? = some data' ∧ decode data = .ok c ∧ decode data' = .ok c' ∧
        List.Forall₂ (fun m m' => (m.Carries → m'.Carries) ∧ ∀ v, m'.parameters v = m.parameters v)
          c.methods c'.methods := by
  obtain ⟨first, hfirst⟩ := hprimary.exists_shows
  obtain ⟨second, hsecond⟩ := hfallback.exists_shows
  choose fetch hfetch using hprimary
  have halone : Sources.Shows { primary } fun p => (first p).or none :=
    Sources.shows hfirst (by simp) fun _ _ => rfl
  have hboth : Sources.Shows { primary, fallback := some fallback } fun p =>
    (first p).or (second p) := by
    refine Sources.shows hfirst ?_ (by simp)
    rintro _ ⟨⟩
    exact hsecond
  obtain ⟨-, -, -, -, hcopies⟩ := (ensures_repair_shares halone hfetch).of_ok hrun
  obtain ⟨-, -, -, -, hcopies'⟩ := (ensures_repair_shares hboth hfetch).of_ok hrun'
  rintro ⟨p, kind⟩ he ⟨⟩ hpath
  have hfile := (hcopies.listed p).mpr he
  have hfile' := (hcopies'.listed p).mpr he
  rw [Std.TreeMap.contains_eq_isSome_getElem?, Option.isSome_iff_exists] at hfile hfile'
  obtain ⟨data, hdata⟩ := hfile
  obtain ⟨data', hdata'⟩ := hfile'
  have hshadowed (p : Path) (x : Option Bytes) (hx : (first p).or none = some x) :
      (first p).or (second p) = some x := by
    rw [Option.or_none] at hx
    rw [hx, Option.some_or]
  obtain ⟨c, c', hread, hread', hmethods⟩ := Content.carries_of_shadowed hr hshadowed hpath
    (hcopies.content p data hdata) (hcopies'.content p data' hdata')
  exact ⟨data, data', c, c', hdata, hdata', hread, hread', hmethods⟩

/-- A class whose superclass is missing, and a subclass of it. -/
def orphan : Memory where
  files := ((∅ : Std.TreeMap Path Bytes).insert "A.class" (oneMethod "A" "B")).insert "C.class"
    (oneMethod "C" "A")

/-- The superclass that is missing. -/
def orphanParent : Memory where
  files := (∅ : Std.TreeMap Path Bytes).insert "B.class" (oneMethod "B" "Z")

theorem reader_orphan : (orphan.reader [] : Reader Collected) =
    { (orphan.reader [] : Reader Collected) with
      entries := orphan.files.keys.map (fun path => { path, kind := .file }) } := by
  have hentries : orphan.entries = _ := List.mergeSort_of_pairwise (by decide +kernel)
  rw [Memory.reader, hentries]
  rfl

theorem repair_fallback_carries_orphan : ∃ report report' s s',
    repair { primary := orphan.reader [] } .bridge Collected.writer { state := { world := {} } } =
      (.ok report, s) ∧ report.summary.marked = 1 ∧
    repair { primary := orphan.reader [], fallback := some (orphanParent.reader []) } .bridge
      Collected.writer { state := { world := {} } } = (.ok report', s') ∧
      report'.summary.marked = 2 ∧
    ∃ data data' c c', s.state.world.files[("C.class" : Path)]? = some data ∧
      s'.state.world.files[("C.class" : Path)]? = some data' ∧ decode data = .ok c ∧
      decode data' = .ok c' ∧
      List.Forall₂ (fun m m' => (m.Carries → m'.Carries) ∧ ∀ v, m'.parameters v = m.parameters v)
        c.methods c'.methods := by
  have hmarked : (repair { primary := orphan.reader [] } .bridge Collected.writer
      { state := { world := {} } }).1.toOption.map (·.summary.marked) = some 1 := by
    rw [reader_orphan]
    decide +kernel
  have hmarked' :
      (repair { primary := orphan.reader [], fallback := some (orphanParent.reader []) } .bridge
        Collected.writer { state := { world := {} } }).1.toOption.map (·.summary.marked) =
          some 2 := by
    rw [reader_orphan]
    decide +kernel
  rcases hrun : repair { primary := orphan.reader [] } .bridge Collected.writer
    { state := { world := {} } } with ⟨e | report, s⟩
  · simp [hrun, Except.toOption] at hmarked
  · rcases hrun' : repair { primary := orphan.reader [], fallback := some (orphanParent.reader []) }
      .bridge Collected.writer { state := { world := {} } } with ⟨e | report', s'⟩
    · simp [hrun', Except.toOption] at hmarked'
    · have hclass : { path := "C.class", kind := .file } ∈ orphan.entries :=
        Memory.mem_entries_iff.mpr (by decide +kernel)
      have hcarries := repair_fallback_carries Memory.steady_reader Memory.steady_reader
        (.inl rfl) hrun hrun'
        _ hclass rfl (by decide +kernel)
      exact ⟨report, report', s, s', rfl, by simpa [hrun, Except.toOption] using hmarked, rfl,
        by simpa [hrun', Except.toOption] using hmarked', hcarries⟩

end JarRepair.Repair

import JarRepair.Proofs.Repair.Answers
import JarRepair.Proofs.Repair.Frame
import JarRepair.Proofs.Repair.Targets

/-! # Collecting what is inherited asks for what can be reached

To see which names a climb asks the cache for, it is run with lookups that write down the name they
are asked for. Apart from this it does the same. It asks for each name that can be reached from its
class once, and for no other, and it fails just if one of them has a class file that cannot be read.
The hierarchy may have any shape, and the cache may hold any classes already. -/

namespace JarRepair.Repair

open JarRepair.Task
open Archive (Collected Path)
open ClassFile (Kin Method decode)

/-! ## Lookups that are written down -/

/-- A bench with the names that its cache has been asked for. -/
structure Questioned (σ : Type) where
  bench : Bench σ
  asked : List Bytes := []

variable {σ : Type} {src : Sources σ} {look : Path → Option (Option Bytes)} {name : Bytes}

/-- Looks up a class and writes down its name. -/
def Sources.ask (src : Sources σ) (name : Bytes) : Task (Questioned σ) (Option ClassFile) := do
  Task.modifyState fun q => { q with asked := q.asked ++ [name] }
  (src.find name).focus Questioned.bench fun bench q => { q with bench }

theorem Sources.mirrors_ask (src : Sources σ) (name : Bytes) :
    Mirrors Questioned.bench (src.ask name) (src.find name) :=
  (mirrors_focus fun _ _ => rfl).after_modifyState fun _ => rfl

theorem Sources.ensures_ask {q : Questioned σ} {Q : Option ClassFile → Questioned σ → Prop}
    {E : Error → Questioned σ → Prop}
    (h : (src.find name).Ensures q.bench
      (fun found b => Q found { bench := b, asked := q.asked ++ [name] })
      (fun e b => E e { bench := b, asked := q.asked ++ [name] })) :
    (src.ask name).Ensures q Q E :=
  Ensures.bind (ensures_modifyState.mpr (ensures_focus.mpr h))

namespace Survey

variable {τ : Type} {part : τ → σ} {find : Bytes → Task σ (Option ClassFile)}
  {find' : Bytes → Task τ (Option ClassFile)}

theorem mirrors_visit (h : ∀ name, Mirrors part (find' name) (find name)) (node : ClassFile)
    (s : Survey) (name : Bytes) :
    Mirrors part (visit find' node s name) (visit find node s name) := by
  unfold visit
  split
  · exact mirrors_pure
  · refine (h name).bind fun found => ?_
    cases found with
    | some c => exact mirrors_pure
    | none => exact mirrors_note.bind fun _ => mirrors_pure

theorem mirrors_climb (h : ∀ name, Mirrors part (find' name) (find name)) (fuel : Nat)
    (nodes : List ClassFile) (s : Survey) :
    Mirrors part (climb find' fuel nodes s) (climb find fuel nodes s) := by
  induction fuel generalizing nodes s with
  | zero => exact mirrors_pure
  | succ fuel ih =>
    cases nodes with
    | nil => exact mirrors_pure
    | cons node nodes =>
      exact (mirrors_foldlM (mirrors_visit h node) node.parents _).bind fun s => ih _ s

theorem mirrors_signaturesAbove (h : ∀ name, Mirrors part (find' name) (find name)) (fuel : Nat)
    (c : ClassFile) : Mirrors part (signaturesAbove find' fuel c) (signaturesAbove find fuel c) :=
  (mirrors_climb h fuel [c] _).bind fun _ => mirrors_pure

end Survey

/-! ## What a cache answers -/

/-- A cache has been filled from the containers. Its classes may have been edited since. -/
def Cache.Over (look : Path → Option (Option Bytes)) (cache : Cache) : Prop :=
  ∀ (name : Bytes) (slot : Option ClassFile), cache.slots[name]? = some slot →
    ∃ found, answer look name = some found ∧ found.isSome = slot.isSome

/-- The class of a name or that there is none, from the cache or else from the containers. -/
def resolved (look : Path → Option (Option Bytes)) (cache : Cache) (name : Bytes) :
    Option (Option ClassFile) :=
  match cache.slots[name]? with
  | some slot => some slot
  | none => answer look name

/-- There is a class file for the name that cannot be fetched or decoded. -/
def Unreadable (look : Path → Option (Option Bytes)) (name : Bytes) : Prop :=
  ∃ x, look (Path.ofClass name) = some x ∧ ∀ data c, x = some data → decode data ≠ .ok c

theorem answer_eq_none_iff : answer look name = none ↔ Unreadable look name := by
  rw [answer, Unreadable]
  split
  · rename_i h
    simp [h]
  · rename_i h
    simp [h]
  · rename_i data h
    cases hread : decode data with
    | ok c => simp [h, hread, Except.toOption]
    | error failure =>
      simp only [Except.toOption, Option.map_none, h, true_iff]
      refine ⟨some data, rfl, ?_⟩
      rintro _ c ⟨⟩
      simp [hread]

theorem Cache.Over.resolved_eq_none_iff {cache : Cache} (h : cache.Over look) :
    resolved look cache name = none ↔ Unreadable look name := by
  rw [← answer_eq_none_iff, resolved]
  split
  · rename_i slot hslot
    obtain ⟨found, hfound, -⟩ := h name slot hslot
    simp [hfound]
  · exact Iff.rfl

/-- What the classes are for their heirs. -/
def kinIn (look : Path → Option (Option Bytes)) (cache : Cache) (name : Bytes) : Option Kin :=
  (resolved look cache name).join.map ClassFile.kin

/-! ## Asking -/

/-- A cache that has been asked for some names gives for all others what it gave at first. -/
structure Consulted (look : Path → Option (Option Bytes)) (b : Bench σ) (asked : List Bytes)
    (q : Questioned σ) : Prop where
  written : q.asked = asked
  slots : ∀ name, name ∉ asked → q.bench.cache.slots[name]? = b.cache.slots[name]?
  told : ∀ name ∈ asked, (resolved look b.cache name).isSome = true

theorem Consulted.add {b b' : Bench σ} {asked : List Bytes} {q : Questioned σ}
    (h : Consulted look b asked q) (htold : (resolved look b.cache name).isSome = true)
    (hslots : ∀ name' : Bytes, name' ≠ name →
      b'.cache.slots[name']? = q.bench.cache.slots[name']?) :
    Consulted look b (asked ++ [name]) { bench := b', asked := q.asked ++ [name] } where
  written := by rw [h.written]
  slots name' hname' := by
    rw [List.mem_append, List.mem_singleton, not_or] at hname'
    rw [hslots name' hname'.2, h.slots name' hname'.1]
  told name' hname' := by
    rcases List.mem_append.mp hname' with hname' | hname'
    · exact h.told name' hname'
    · rwa [List.mem_singleton.mp hname']

theorem Sources.Shows.ensures_ask (h : src.Shows look) {b : Bench σ} (hcache : b.cache.Over look)
    {asked : List Bytes} {q : Questioned σ} (hq : Consulted look b asked q) (hnew : name ∉ asked) :
    (src.ask name).Ensures q
      (fun found q' => found.map ClassFile.kin = kinIn look b.cache name ∧
        (found.isSome = true → name ∈ src.names) ∧ Consulted look b (asked ++ [name]) q')
      (fun _ _ => Unreadable look name) := by
  have hslots := hq.slots name hnew
  refine Sources.ensures_ask (h.ensures_find ?_ ?_ ?_)
  · intro slot hslot
    rw [hslots] at hslot
    have hresolved : resolved look b.cache name = some slot := by rw [resolved, hslot]
    refine ⟨by rw [kinIn, hresolved, Option.join_some], ?_,
      hq.add (by rw [hresolved]; rfl) fun _ _ => rfl⟩
    intro hsome
    obtain ⟨found, hfound, hboth⟩ := hcache name slot hslot
    rw [hsome] at hboth
    obtain ⟨d, rfl⟩ := Option.isSome_iff_exists.mp hboth
    exact h.mem_names hfound
  · intro found hslot hfound
    rw [hslots] at hslot
    have hresolved : resolved look b.cache name = some found := by rw [resolved, hslot, hfound]
    refine ⟨by rw [kinIn, hresolved, Option.join_some], ?_, hq.add (by rw [hresolved]; rfl) ?_⟩
    · intro hsome
      obtain ⟨d, rfl⟩ := Option.isSome_iff_exists.mp hsome
      exact h.mem_names hfound
    · intro name' hne
      show (Cache.learn _ _ _).slots[name']? = _
      rw [Cache.learn, Cache.getElem?_insert, if_neg (Ne.symm hne)]
  · exact fun _ _ _ hnone => answer_eq_none_iff.mp hnone

/-- Some class that is reached has a method with the signature that can be overridden. -/
theorem inherits_kinIn_iff {cache : Cache} {c : ClassFile} {signature : Bytes} :
    Inherits (kinIn look cache) c signature ↔ ∃ name d m, Reaches (kinIn look cache) c name ∧
      resolved look cache name = some (some d) ∧ m ∈ d.methods ∧ m.Overridable ∧
      m.signature = signature := by
  constructor
  · rintro ⟨name, k, hreaches, hk, hmem⟩
    obtain ⟨d, hd, rfl⟩ := Option.map_eq_some_iff.mp hk
    obtain ⟨m, hm, hsignature⟩ := List.mem_map.mp hmem
    obtain ⟨hm, heligible⟩ := List.mem_filter.mp hm
    exact ⟨name, d, m, hreaches, Option.join_eq_some_iff.mp hd, hm,
      Method.isEligible_iff.mp heligible, hsignature⟩
  · rintro ⟨name, d, m, hreaches, hd, hm, hoverridable, hsignature⟩
    refine ⟨name, d.kin, hreaches, by rw [kinIn, hd, Option.join_some, Option.map_some], ?_⟩
    exact List.mem_map.mpr
      ⟨m, List.mem_filter.mpr ⟨hm, Method.isEligible_iff.mpr hoverridable⟩, hsignature⟩

/-- Collecting what a class inherits ends. It fails just if a name that can be reached has a class
file that cannot be read. Else it gives the signatures of all methods of the classes that can be
reached which can be overridden, and has asked once for each name that can be reached and for no
other. -/
theorem inheritedSignatures_reaches (h : src.Shows look) {b : Bench σ} (hcache : b.cache.Over look)
    (c : ClassFile) (notes : Array Log.Note) :
    let kin := kinIn look b.cache
    let run := Survey.signaturesAbove src.ask (src.bound + 1) c { state := { bench := b }, notes }
    inheritedSignatures src c { state := b, notes } =
        (run.1, { state := run.2.state.bench, notes := run.2.notes }) ∧
      ((∃ e, run.1 = .error e) ↔ ∃ name, Reaches kin c name ∧ Unreadable look name) ∧
      ∀ inherited, run.1 = .ok inherited →
        (∀ signature, signature ∈ inherited ↔ ∃ name d m, Reaches kin c name ∧
          resolved look b.cache name = some (some d) ∧ m ∈ d.methods ∧ m.Overridable ∧
          m.signature = signature) ∧
        run.2.state.asked.Nodup ∧ ∀ name, name ∈ run.2.state.asked ↔ Reaches kin c name := by
  intro kin run
  have hstart : Consulted look b [] { bench := b } := ⟨rfl, fun _ _ => rfl, by simp⟩
  have hask (asked : List Bytes) (name : Bytes) (q : Questioned σ) (hq : Consulted look b asked q)
      (hnew : name ∉ asked) (hreaches : Reaches kin c name) : (src.ask name).Ensures q
        (fun found q' => found.map ClassFile.kin = kin name ∧
          (found.isSome = true → name ∈ src.names) ∧ Consulted look b (asked ++ [name]) q')
        (fun _ _ => ∃ name, Reaches kin c name ∧ Unreadable look name) :=
    (h.ensures_ask hcache hq hnew).mono (fun _ _ => id) fun _ _ hunreadable =>
      ⟨name, hreaches, hunreadable⟩
  have hends :=
    Survey.ensures_signaturesAbove kin hask (Nat.lt_succ_of_lt src.card_names_lt) hstart notes
  refine ⟨Survey.mirrors_signaturesAbove src.mirrors_ask _ c { bench := b } notes, ?_⟩
  have hrun :
      Survey.signaturesAbove src.ask (src.bound + 1) c { state := { bench := b }, notes } = run :=
    rfl
  rw [hrun] at hends
  obtain ⟨x, q, notes'⟩ := run
  cases x with
  | error e => exact ⟨⟨fun _ => hends, fun _ => ⟨e, rfl⟩⟩, nofun⟩
  | ok inherited =>
    obtain ⟨hinherited, asked, hnodup, hasked, hq⟩ := hends
    refine ⟨⟨nofun, ?_⟩, ?_⟩
    · rintro ⟨name, hreaches, hunreadable⟩
      have htold := hq.told name ((hasked name).mpr hreaches)
      rw [hcache.resolved_eq_none_iff.mpr hunreadable] at htold
      simp at htold
    · rintro _ ⟨⟩
      refine ⟨fun signature => (hinherited signature).trans inherits_kinIn_iff, ?_⟩
      show q.asked.Nodup ∧ ∀ name, name ∈ q.asked ↔ Reaches kin c name
      rw [hq.written]
      exact ⟨hnodup, hasked⟩

/-- Two classes that extend each other. -/
def cyclicSources : Sources Unit where
  primary := twoClasses.reader []

theorem shows_cyclicSources :
    cyclicSources.Shows fun p => (twoClasses.files[p]?.map some).or none :=
  Sources.shows (Archive.Reader.shows_of_gives (fun p => by
      rw [Archive.Memory.contains_reader, Std.TreeMap.contains_eq_isSome_getElem?])
    fun _ _ => Archive.Memory.gives_reader) (by simp) fun _ _ => rfl

/-- Climbing from the one class asks for the other only, and not again for itself. -/
theorem inheritedSignatures_reaches_twoClasses :
    ∃ c inherited s', decode (oneMethod "A" "B") = .ok c ∧
      inheritedSignatures cyclicSources c { state := { world := () } } = (.ok inherited, s') ∧
    ("m()V" : Bytes) ∈ inherited ∧
    ∀ name, Reaches (kinIn (fun p => (twoClasses.files[p]?.map some).or none) {}) c name ↔
    name = "B" := by
  have hasks : ((decode (oneMethod "A" "B")).toOption.bind fun c =>
      let run := Survey.signaturesAbove cyclicSources.ask (cyclicSources.bound + 1) c
        { state := { bench := { world := () } } }
      run.1.toOption.map fun inherited => (inherited.contains "m()V", run.2.state.asked)) =
        some (true, [("B" : Bytes)]) := by
    decide +kernel
  cases hread : decode (oneMethod "A" "B") with
  | error failure => simp [hread, Except.toOption] at hasks
  | ok c =>
    have hover : ({} : Cache).Over fun p => (twoClasses.files[p]?.map some).or none := by
      intro name slot hslot
      simp at hslot
    obtain ⟨hsame, -, hfound⟩ := inheritedSignatures_reaches shows_cyclicSources
      (b := { world := () }) hover c #[]
    rw [hread] at hasks
    dsimp only [Except.toOption, Option.bind_some] at hasks
    generalize Survey.signaturesAbove cyclicSources.ask (cyclicSources.bound + 1) c
      { state := { bench := { world := () } } } = run at hsame hfound hasks
    obtain ⟨e | inherited, q, notes⟩ := run
    · simp at hasks
    · obtain ⟨-, -, hasked⟩ := hfound inherited rfl
      simp only [Option.map_some, Option.some.injEq, Prod.mk.injEq] at hasks
      refine ⟨c, inherited, _, rfl, hsame, Std.TreeSet.mem_iff_contains.mpr hasks.1, fun name => ?_⟩
      rw [← hasked]
      show name ∈ q.asked ↔ _
      rw [hasks.2, List.mem_singleton]

end JarRepair.Repair

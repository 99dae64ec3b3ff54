import JarRepair.Proofs.Archive.Contents
import JarRepair.Proofs.Repair.Ancestors
import JarRepair.Proofs.Repair.Entries
import JarRepair.Proofs.Repair.Settled

/-! # What containers answer for a name

Containers whose content does not change answer each name in one way, whenever it is looked up. Two
lots of containers whose classes are repairs of one another agree on what classes inherit. -/

namespace JarRepair.Repair

open JarRepair.Task
open Archive (Path Reader)
open ClassFile (Kin decode decode_eq_ok_iff)

variable {σ : Type} {src : Sources σ} {look look' : Path → Option (Option Bytes)} {name : Bytes}

/-! ## Looking at files -/

/-- What there is for each path in the container to take it from. -/
structure Sources.Shows (src : Sources σ) (look : Path → Option (Option Bytes)) : Prop where
  missing : ∀ p, src.holder? p = none → look p = none
  held : ∀ p reader, src.holder? p = some reader → ∃ x, look p = some x ∧ ∀ w,
    (reader.read p).Ensures w (fun data w' => x = some data ∧ w' = w)
    (fun _ w' => x = none ∧ w' = w)

/-- The primary container comes first. -/
theorem Sources.shows {primary : Reader σ} {fallback : Option (Reader σ)}
    {first second : Path → Option (Option Bytes)} (hfirst : primary.Shows first)
    (hsecond : ∀ reader ∈ fallback, reader.Shows second)
    (hnone : fallback = none → ∀ p, second p = none) :
    Sources.Shows { primary, fallback } fun p => (first p).or (second p) := by
  have hsplit (p : Path) :
      (∃ x, first p = some x ∧ Sources.holder? { primary, fallback } p = primary) ∨
        first p = none ∧
          Sources.holder? { primary, fallback } p = fallback.filter (·.contains p) := by
    rw [Sources.holder?, hfirst.contains]
    cases first p with
    | some x => exact .inl ⟨x, rfl, rfl⟩
    | none => exact .inr ⟨rfl, rfl⟩
  constructor
  · intro p hp
    rcases hsplit p with ⟨x, -, hholder⟩ | ⟨hx, hholder⟩
    · simp [hholder] at hp
    · rw [hx, Option.none_or]
      cases hfallback : fallback with
      | none => exact hnone hfallback p
      | some reader =>
        rw [hholder, hfallback, Option.filter_eq_none_iff] at hp
        have hcontains := hp reader rfl
        rwa [(hsecond reader hfallback).contains, Option.not_isSome_iff_eq_none] at hcontains
  · intro p reader hp
    rcases hsplit p with ⟨x, hx, hholder⟩ | ⟨hx, hholder⟩
    · obtain rfl := Option.some.inj (hholder.symm.trans hp)
      exact ⟨x, by rw [hx, Option.some_or], hfirst.read p x hx⟩
    · rw [hholder, Option.filter_eq_some_iff] at hp
      have hreader := hsecond reader hp.1
      have hcontains := hp.2
      rw [hreader.contains, Option.isSome_iff_exists] at hcontains
      obtain ⟨x, hx'⟩ := hcontains
      exact ⟨x, by rw [hx, Option.none_or, hx'], hreader.read p x hx'⟩

/-! ## Looking at classes -/

/-- The class of a name or that there is none, if this can be told. -/
def answer (look : Path → Option (Option Bytes)) (name : Bytes) : Option (Option ClassFile) :=
  match look (Path.ofClass name) with
  | none => some none
  | some none => none
  | some (some data) => (decode data).toOption.map some

/-- Loading a name ends as it was answered. -/
def Answered (look : Path → Option (Option Bytes)) (name : Bytes)
    (x : Except Error (Option ClassFile)) : Prop :=
  x.toOption = answer look name

theorem Answered.wellFormed {c : ClassFile} (h : Answered look name (.ok (some c))) :
    c.WellFormed := by
  rw [Answered, answer] at h
  split at h
  · simp [Except.toOption] at h
  · simp [Except.toOption] at h
  · rename_i data _
    cases hread : decode data with
    | error failure => simp [hread, Except.toOption] at h
    | ok c' =>
      have hc : c = c' := by simpa [hread, Except.toOption] using h
      rw [hc]
      exact (decode_eq_ok_iff.mp hread).1

/-- Loading ends as was answered, and only a class that was decoded is counted. -/
theorem Sources.Shows.ensures_load (h : src.Shows look) (name : Bytes) (b : Bench σ) :
    (src.load name).Ensures b
      (fun found b' => answer look name = some found ∧
        b' = { b with cache.decoded := b.cache.decoded + found.isSome.toNat })
      (fun _ b' => answer look name = none ∧ b' = b) := by
  refine Sources.ensures_load ?_ ?_
  · intro hnone
    rw [answer, h.missing _ hnone]
    exact ⟨rfl, rfl⟩
  · intro reader hholder
    obtain ⟨x, hx, hread⟩ := h.held _ _ hholder
    refine (hread b.world).mono ?_ ?_
    · rintro data w ⟨rfl, rfl⟩
      cases hc : decode data with
      | ok c =>
        refine ⟨?_, rfl⟩
        simp only [answer, hx, hc, Except.toOption, Option.map_some]
      | error failure =>
        refine ⟨?_, rfl⟩
        simp only [answer, hx, hc, Except.toOption, Option.map_none]
    · rintro e w ⟨rfl, rfl⟩
      rw [answer, hx]
      exact ⟨rfl, rfl⟩

theorem Sources.Shows.loads (h : src.Shows look) (w : σ) : src.Loads (· = w) (Answered look) := by
  rintro name b rfl
  refine (h.ensures_load name b).mono ?_ ?_
  · rintro found b' ⟨hfound, rfl⟩
    exact ⟨hfound.symm, rfl, rfl⟩
  · rintro e b' ⟨hnone, rfl⟩
    exact ⟨hnone.symm, rfl, rfl⟩

/-- A cache that has been asked again for what it holds. -/
def Cache.hit (cache : Cache) : Cache := { cache with hits := cache.hits + 1 }

/-- A cache that has been asked for a name for the first time. -/
def Cache.learn (cache : Cache) (name : Bytes) (found : Option ClassFile) : Cache where
  slots := cache.slots.insert name found
  hits := cache.hits
  misses := cache.misses + 1
  decoded := cache.decoded + found.isSome.toNat
  unresolved := cache.unresolved + found.isNone.toNat

/-- A lookup is answered from the cache or, for the first time, as the containers answer. -/
theorem Sources.Shows.ensures_find (h : src.Shows look) {name : Bytes} {b : Bench σ}
    {Q : Option ClassFile → Bench σ → Prop} {E : Error → Bench σ → Prop}
    (hhit : ∀ slot, b.cache.slots[name]? = some slot → Q slot { b with cache := b.cache.hit })
    (hmiss : ∀ found, b.cache.slots[name]? = none → answer look name = some found →
      Q found { b with cache := b.cache.learn name found })
    (herror : ∀ e b', b.cache.slots[name]? = none → answer look name = none → E e b') :
    (src.find name).Ensures b Q E := by
  refine Ensures.bind (ensures_state.mpr ?_)
  split
  · rename_i slot hslot
    exact Ensures.bind (Bench.ensures_modifyCache (ensures_pure.mpr (hhit slot hslot)))
  · rename_i hnone
    refine Ensures.bind
      (Bench.ensures_modifyCache (Ensures.bind ((h.ensures_load name _).mono ?_ ?_)))
    · rintro found b₁ ⟨hfound, rfl⟩
      have hQ := hmiss found hnone hfound
      cases found with
      | none =>
        refine Ensures.bind (Bench.ensures_modifyCache (Ensures.bind (ensures_note.mpr ?_)))
        exact Ensures.bind (Bench.ensures_modifyCache (ensures_pure.mpr hQ))
      | some c => exact Ensures.bind (Bench.ensures_modifyCache (ensures_pure.mpr hQ))
    · rintro e b' ⟨hanswer, -⟩
      exact herror e b' hnone hanswer

/-! ## Names -/

/-- The names of the class files. -/
def Sources.names (src : Sources σ) : Finset Bytes :=
  ((src.primary.files.toList ++ (src.fallback.map (·.files.toList)).getD []).filterMap
    fun p => Bytes.dropTail? p ClassFile.suffix).toFinset

theorem Sources.card_names_lt (src : Sources σ) : src.names.card < src.bound := by
  have hlength :
      (src.primary.files.toList ++ (src.fallback.map (·.files.toList)).getD []).length + 1 =
      src.bound := by
    rw [List.length_append, Std.TreeSet.length_toList, bound]
    cases src.fallback with
    | none => rfl
    | some reader =>
      rw [Option.map_some, Option.map_some, Option.getD_some, Option.getD_some,
        Std.TreeSet.length_toList]
  rw [← hlength, Nat.lt_succ_iff]
  exact (List.toFinset_card_le _).trans (List.length_filterMap_le _ _)

theorem Sources.mem_names {reader : Reader σ} (h : src.holder? (Path.ofClass name) = some reader) :
    name ∈ src.names := by
  have hmem : Path.ofClass name ∈
      src.primary.files.toList ++ (src.fallback.map (·.files.toList)).getD [] := by
    rw [holder?] at h
    rw [List.mem_append]
    split at h
    · rename_i hcontains
      exact .inl (Std.TreeSet.mem_toList.mpr (Std.TreeSet.mem_iff_contains.mpr hcontains))
    · obtain ⟨hfallback, hcontains⟩ := Option.filter_eq_some_iff.mp h
      right
      rw [hfallback, Option.map_some, Option.getD_some]
      exact Std.TreeSet.mem_toList.mpr (Std.TreeSet.mem_iff_contains.mpr hcontains)
  rw [names, List.mem_toFinset, List.mem_filterMap]
  exact ⟨_, hmem, Archive.Path.dropTail?_append name ClassFile.suffix⟩

theorem Sources.Shows.mem_names (h : src.Shows look) {c : ClassFile}
    (hanswer : answer look name = some (some c)) : name ∈ src.names := by
  cases hholder : src.holder? (Path.ofClass name) with
  | some reader => exact Sources.mem_names hholder
  | none =>
    rw [answer, h.missing _ hholder] at hanswer
    simp at hanswer

/-! ## Kinship -/

/-- What the class of a name is for its heirs. -/
def kinOf (look : Path → Option (Option Bytes)) (name : Bytes) : Option Kin :=
  (answer look name).join.map ClassFile.kin

/-- A repaired class is for its heirs what it was. -/
theorem map_kin_eq_kinOf {found₀ found : Option ClassFile}
    (hanswer : answer look name = some found₀) (hrel : Option.Rel ClassFile.Repaired found₀ found) :
    found.map ClassFile.kin = kinOf look name := by
  rw [kinOf, hanswer, Option.join_some]
  cases hrel with
  | none => rfl
  | some hc => rw [Option.map_some, Option.map_some, hc.kin_eq]

theorem Sources.Shows.mem_names_of_rel (h : src.Shows look) {found₀ found : Option ClassFile}
    (hanswer : answer look name = some found₀) (hrel : Option.Rel ClassFile.Repaired found₀ found)
    (hsome : found.isSome = true) : name ∈ src.names := by
  cases hrel with
  | none => simp at hsome
  | some hc => exact h.mem_names hanswer

/-- The same names can be told in both, and classes have become repairs of what they were. -/
def Agree (look look' : Path → Option (Option Bytes)) : Prop :=
  ∀ name, Option.Rel (Option.Rel ClassFile.Repaired) (answer look name) (answer look' name)

theorem Agree.kinOf_eq (h : Agree look look') : kinOf look' = kinOf look := by
  funext name
  rw [kinOf, kinOf]
  generalize answer look name = x, answer look' name = x', h name = hrel
  cases hrel with
  | none => rfl
  | some hslot =>
    cases hslot with
    | none => rfl
    | some hc =>
      rw [Option.join_some, Option.join_some, Option.map_some, Option.map_some, hc.kin_eq]

theorem Agree.isSome_eq (h : Agree look look') (name : Bytes) :
    (answer look' name).isSome = (answer look name).isSome := by
  generalize answer look name = x, answer look' name = x', h name = hrel
  cases hrel <;> rfl

/-- The names reached from a class can all be told. -/
def Told (look : Path → Option (Option Bytes)) (c : ClassFile) : Prop :=
  ∀ name, Reaches (kinOf look) c name → (answer look name).isSome = true

/-- What a class inherits once the names it reaches have been told, whatever was repaired before. -/
theorem Sources.Shows.ensures_inheritedSignatures (h : src.Shows look)
    {P : Bytes → Option ClassFile → Prop}
    (hP : ∀ name found, Answered look name (.ok found) → P name found)
    (hrepairs : ∀ name found, P name found → ∃ found₀, answer look name = some found₀ ∧
      Option.Rel ClassFile.Repaired found₀ found)
    {b : Bench σ} (hb : b.Sound (· = b.world) P) (c : ClassFile) :
    (inheritedSignatures src c).Ensures b
      (fun inherited b' => Bench.After (· = b.world) P b b' ∧
        (∀ signature, signature ∈ inherited ↔ Inherits (kinOf look) c signature) ∧ Told look c)
      (fun _ _ => ¬ Told look c) := by
  have hkin (name : Bytes) (found : Option ClassFile) (hfound : P name found) :
      found.map ClassFile.kin = kinOf look name := by
    obtain ⟨found₀, hanswer, hrel⟩ := hrepairs name found hfound
    exact map_kin_eq_kinOf hanswer hrel
  have hnames (name : Bytes) (d : ClassFile) (hd : P name (some d)) : name ∈ src.names := by
    obtain ⟨found₀, hanswer, hrel⟩ := hrepairs name (some d) hd
    exact h.mem_names_of_rel hanswer hrel rfl
  refine (Repair.ensures_inheritedSignatures
    (h.loads b.world) hP hkin hnames src.card_names_lt hb c).mono
    ?_ ?_
  · rintro inherited b' ⟨hb', hinherited, hslots⟩
    refine ⟨hb', hinherited, fun name hname => ?_⟩
    obtain ⟨slot, hslot⟩ := hslots name hname
    obtain ⟨found₀, hanswer, -⟩ := hrepairs name slot (hb'.cache name slot hslot)
    rw [hanswer, Option.isSome_some]
  · rintro e b' ⟨name, hname, herror⟩ htold
    have hsome := htold name hname
    rw [← show _ = answer look name from herror] at hsome
    simp [Except.toOption] at hsome

end JarRepair.Repair

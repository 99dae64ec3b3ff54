import JarRepair.Archive.Container
import JarRepair.Proofs.Repair.Copying
import JarRepair.Proofs.Repair.Reachability
import JarRepair.Proofs.Repair.Shares

/-! # Where an error is found

An error gets its entry and its class from the innermost step that knows them: reading a class file
names the file and the class, the repairs of a class name the class. A class is blamed for an error
of the kind `internal` just if no container has its file. Readers and resolvers are taken to blame
nothing but what they were asked for; those of the program are such. -/

namespace JarRepair

open JarRepair.Task

/-! ## Places -/

namespace Error

@[simp] theorem entry_withClass (n : Bytes) (e : Error) : (e.withClass n).entry = e.entry := by
  unfold withClass; split <;> rfl

@[simp] theorem className_withEntry (p : Bytes) (e : Error) :
    (e.withEntry p).className = e.className := by
  unfold withEntry; split <;> rfl

theorem entry_withEntry {e : Error} {p : Bytes} (h : e.entry = [] ∨ e.entry = p) :
    (e.withEntry p).entry = p := by
  unfold withEntry
  split
  · rfl
  · rename_i hne
    exact h.resolve_left hne

theorem entry_withEntry_of_ne {e : Error} {p : Bytes} (h : e.entry ≠ []) :
    (e.withEntry p).entry = e.entry := by
  rw [withEntry, if_neg h]

theorem className_withClass_ne {e : Error} {n : Bytes} (h : e.className ≠ [] ∨ n ≠ []) :
    (e.withClass n).className ≠ [] := by
  unfold withClass
  split
  · rename_i hnone
    exact h.resolve_left (not_not.mpr hnone)
  · rename_i hne
    exact hne

/-- An error in the class of a name, that tells of no entry. -/
structure InClass (name : Bytes) (e : Error) : Prop where
  kind : e.kind ≠ .internal
  entry : e.entry = []
  className : name ≠ [] → e.className ≠ []

theorem InClass.withClass {e : Error} (name : Bytes) (hkind : e.kind ≠ .internal)
    (hentry : e.entry = []) :
    (e.withClass name).InClass name where
  kind := by rwa [kind_withClass]
  entry := by rwa [entry_withClass]
  className hname := className_withClass_ne (.inr hname)

end Error

namespace Archive.Path

theorem ofClass_ne_nil (name : Bytes) : ofClass name ≠ [] := by
  rw [ofClass]
  exact List.append_ne_nil_of_right_ne_nil name (by decide)

theorem className_ne_nil {p : Path} (h : p.isClass = true) : p.className ≠ [] := by
  obtain ⟨name, hname⟩ := Option.isSome_iff_exists.mp h
  rw [className, hname, Option.getD_some]
  rw [className?] at hname
  split at hname
  · split at hname
    · simp at hname
    · rename_i hne
      rwa [← Option.some.inj hname]
  · simp at hname

end Archive.Path

/-! ## Repairs of a class -/

namespace ClassFile

/-- The resolver's errors tell of the class, and of no entry. -/
def Resolver.Blames (r : Resolver) : Prop :=
  ∀ c m e, r.target c m = .error e → e.kind ≠ .internal ∧ e.entry = []

theorem Resolver.blames_identity : identity.Blames := nofun

theorem Resolver.blames_bridge : bridge.Blames := by
  intro c m e h
  obtain ⟨fault, -, rfl⟩ := Outcome.mapError_eq_error_iff.mp h
  exact ⟨by simp, Error.entry_withClass _ _⟩

theorem inClass_fault (fault : Fault) (name : Bytes) : (fault.error.withClass name).InClass name :=
  .withClass name (by simp) rfl

theorem inClass_of_encode {c : ClassFile} {e : Error} (h : c.encode = .error e) :
    e.InClass c.name := by
  obtain ⟨fault, -, rfl⟩ := Outcome.mapError_eq_error_iff.mp h
  exact inClass_fault fault c.name

theorem ensures_realign_inClass (c : ClassFile) :
    realign.Ensures c (fun _ _ => True) (fun e _ => e.InClass c.name) :=
  ensures_realign (fun _ => trivial) (fun _ _ _ _ => trivial) fun _ _ _ _ _ _ fault _ =>
    inClass_fault fault c.name

theorem exists_fault_of_mark {k : Nat} {type : Bytes} {c c' : ClassFile} {e : Error}
    (h : mark k type c = (.error e, c')) : ∃ fault : Fault, e = fault.error := by
  rw [mark] at h
  split at h
  · simp at h
  · split at h
    · simp at h
    · split at h
      · exact ⟨_, (Except.error.inj (Prod.mk.inj h).1).symm⟩
      · dsimp only at h
        split at h
        · simp at h
        · split at h
          · exact ⟨_, (Except.error.inj (Prod.mk.inj h).1).symm⟩
          · simp at h

/-- Marking keeps the name of the class, so each error tells of the class that was to be marked. -/
theorem WellFormed.ensures_markOverrides_inClass {c : ClassFile} (hc : c.WellFormed) {r : Resolver}
    (hr : r.Blames) (inherited : Std.TreeSet Bytes) :
    (markOverrides r inherited).Ensures c (fun _ _ => True) (fun e _ => e.InClass c.name) := by
  refine Ensures.bind (ensures_state.mpr ?_)
  refine (Ensures.foldlM (I := fun _ _ c' => c.Repaired c' ∧ c'.WellFormed) ?_ ⟨.refl c, hc⟩).mono
    (fun _ _ _ => trivial) fun _ _ => id
  rintro _ ⟨m, k⟩ _ n c₁ - ⟨hrepaired, hc₁⟩
  rw [← hrepaired.name_eq]
  refine Ensures.bind (ensures_markOverride (fun _ => ensures_pure.mpr ⟨hrepaired, hc₁⟩) ?_ ?_ ?_)
  · intro key added c₂ _ _ hrun
    exact ensures_pure.mpr ⟨hrepaired.trans (.of_mark hc₁ hrun), hc₁.of_mark hrun⟩
  · intro e _ he
    exact .withClass _ (hr _ _ e he).1 (hr _ _ e he).2
  · intro key e c₂ _ _ hrun
    obtain ⟨fault, rfl⟩ := exists_fault_of_mark hrun
    exact inClass_fault fault _

end ClassFile

/-! ## Readers -/

namespace Archive

variable {σ : Type}

/-- The errors of fetching a file tell of the container, and of no other entry. -/
def Reader.Blames (reader : Reader σ) : Prop :=
  ∀ p w, (reader.read p).Ensures w (fun _ _ => True)
    fun e _ => e.kind ≠ .internal ∧ (e.entry = [] ∨ e.entry = p)

theorem blames_withEntry {e : Error} {p : Path} (hkind : e.kind ≠ .internal)
    (hentry : e.entry = []) :
    (e.withEntry p).kind ≠ .internal ∧ ((e.withEntry p).entry = [] ∨ (e.withEntry p).entry = p) :=
  ⟨by rwa [Error.kind_withEntry], .inr (Error.entry_withEntry (.inl hentry))⟩

theorem blames_notListed (location : Bytes) (p : Path) : (notListed location p).kind ≠ .internal ∧
    ((notListed location p).entry = [] ∨ (notListed location p).entry = p) :=
  blames_withEntry (by simp [Error.io]) rfl

theorem Memory.blames_reader {m : Memory} {location : Bytes} :
    (m.reader location : Reader σ).Blames := by
  intro p w
  simp only [reader]
  split
  · exact ensures_pure.mpr trivial
  · exact ensures_throw.mpr (blames_notListed location p)

end Archive

open Archive (Path Reader)

theorem Zip.Archive.blames_reader {σ : Type} {a : Zip.Archive} : (a.reader : Reader σ).Blames := by
  intro p w
  refine ensures_ofExcept.mpr ?_
  rw [Zip.Archive.read]
  cases a.records[p]? with
  | none => exact Archive.blames_notListed _ p
  | some record =>
    dsimp only
    cases a.content record with
    | ok data => trivial
    | error fault => exact Archive.blames_withEntry (by simp [Error.format]) rfl

theorem Directory.Tree.blames_reader {t : Directory.Tree} : t.reader.Blames := by
  intro p v
  show (t.read p).Ensures v _ _
  rw [Directory.Tree.read]
  split
  · exact Ensures.bind (ensures_throw.mpr (Archive.blames_notListed _ p))
  · refine Ensures.bind (ensures_state.mpr ?_)
    split
    · exact ensures_pure.mpr trivial
    · exact ensures_throw.mpr (Archive.blames_withEntry (by simp [Error.io]) rfl)

/-- Zip files and directory trees are blamed only for the file that is fetched. -/
theorem Archive.Container.blames_reader (c : Archive.Container) : c.reader.Blames := by
  cases c with
  | zip a => exact Zip.Archive.blames_reader
  | directory t => exact Directory.Tree.blames_reader

namespace Repair

open ClassFile (Resolver decode)

variable {σ : Type} {src : Sources σ} {look : Path → Option (Option Bytes)} {r : Resolver}
  {name : Bytes}
  {b : Bench σ}

/-! ## Lookups -/

theorem Sources.holder?_eq_none_iff {p : Path} : src.holder? p = none ↔
    src.primary.contains p = false ∧ ∀ reader ∈ src.fallback, reader.contains p = false := by
  rw [holder?]
  split
  · rename_i hp
    simp [hp]
  · rename_i hp
    simp [Option.filter_eq_none_iff, hp]

def Sources.Blames (src : Sources σ) : Prop :=
  ∀ reader, reader = src.primary ∨ src.fallback = some reader → reader.Blames

/-- Loading ends as was answered, and an error names the class file and the class. -/
def Blamed (look : Path → Option (Option Bytes)) (name : Bytes)
    (x : Except Error (Option ClassFile)) :
    Prop :=
  Answered look name x ∧ ∀ e, x = .error e →
    e.kind ≠ .internal ∧ e.entry = Path.ofClass name ∧ (name ≠ [] → e.className ≠ [])

theorem Sources.Shows.loads_blamed (h : src.Shows look) (hsrc : src.Blames) (w : σ) :
    src.Loads (· = w) (Blamed look) := by
  intro name b hb
  have herror : (src.load name).Ensures b (fun _ _ => True) (fun e _ => e.kind ≠ .internal ∧
      e.entry = Path.ofClass name ∧ (name ≠ [] → e.className ≠ [])) := by
    have hplaces {e : Error} (hkind : e.kind ≠ .internal)
        (hentry : e.entry = [] ∨ e.entry = Path.ofClass name) :
        ((e.withEntry (Path.ofClass name)).withClass name).kind ≠ .internal ∧
          ((e.withEntry (Path.ofClass name)).withClass name).entry = Path.ofClass name ∧
          (name ≠ [] → ((e.withEntry (Path.ofClass name)).withClass name).className ≠ []) :=
      ⟨by simpa, by rw [Error.entry_withClass, Error.entry_withEntry hentry],
        fun hname => Error.className_withClass_ne (.inr hname)⟩
    refine Sources.ensures_load (fun _ => trivial) fun reader hreader => ?_
    refine (hsrc reader (eq_of_holder? hreader) _ b.world).mono ?_ fun e _ he => hplaces he.1 he.2
    intro data w _
    split
    · trivial
    · exact hplaces (by simp) (.inl (Error.entry_withClass _ _))
  refine ((h.loads w name b hb).and herror).mono ?_ ?_
  · rintro found b' ⟨⟨hfound, hb'⟩, -⟩
    exact ⟨⟨hfound, nofun⟩, hb'⟩
  · rintro e b' ⟨⟨hnone, hb'⟩, he⟩
    refine ⟨⟨hnone, ?_⟩, hb'⟩
    rintro _ ⟨⟩
    exact he

/-! ## Entries -/

/-- The error of repairing the class of a name. It tells of the entry of the class, or of the class
file of an ancestor that cannot be read. -/
structure Faults (src : Sources σ) (look : Path → Option (Option Bytes)) (name : Bytes)
    (e : Error) :
    Prop where
  kind : e.kind = .internal ↔ src.holder? (Path.ofClass name) = none
  entry : e.entry = [] ∨ e.entry = Path.ofClass name ∨
    ∃ c ancestor, answer look name = some (some c) ∧ Reaches (kinOf look) c ancestor ∧
      Unreadable look ancestor ∧ e.entry = Path.ofClass ancestor
  className : (∀ c, answer look name = some (some c) → c.name ≠ []) → e.className ≠ []

theorem Sources.Shows.answer_eq_absent_iff (h : src.Shows look) :
    answer look name = some none ↔ src.holder? (Path.ofClass name) = none := by
  rw [answer]
  cases hholder : src.holder? (Path.ofClass name) with
  | none => simp [h.missing _ hholder]
  | some reader =>
    obtain ⟨x, hx, -⟩ := h.held _ _ hholder
    cases x with
    | none => simp [hx]
    | some data => simp [hx]

section

variable {c₀ c : ClassFile} {e : Error}

theorem Sources.Shows.faults_absent (h : src.Shows look) (hname : name ≠ [])
    (hanswer : answer look name = some none) (reason : Bytes) :
    Faults src look name ((Error.internal reason).withClass name) where
  kind := iff_of_true (by simp [Error.internal]) (h.answer_eq_absent_iff.mp hanswer)
  entry := .inl (Error.entry_withClass _ _)
  className _ := Error.className_withClass_ne (.inr hname)

/-- A name with a class file has its container. -/
theorem Sources.Shows.kind_iff (h : src.Shows look) (hkind : e.kind ≠ .internal)
    (hanswer : answer look name ≠ some none) :
    e.kind = .internal ↔ src.holder? (Path.ofClass name) = none :=
  iff_of_false hkind fun hnone => hanswer (h.answer_eq_absent_iff.mpr hnone)

theorem Sources.Shows.faults_unreadable (h : src.Shows look) (hname : name ≠ [])
    (he : Blamed look name (.error e)) : Faults src look name e where
  kind :=
    h.kind_iff (he.2 e rfl).1
      (by rw [← show _ = answer look name from he.1]; simp [Except.toOption])
  entry := .inr (.inl (he.2 e rfl).2.1)
  className _ := (he.2 e rfl).2.2 hname

theorem Sources.Shows.faults_inClass (h : src.Shows look)
    (hanswer : answer look name = some (some c₀)) (hrepaired : c₀.Repaired c)
    (he : e.InClass c.name) : Faults src look name e where
  kind := h.kind_iff he.kind (by simp [hanswer])
  entry := .inl he.entry
  className hnamed := he.className (hrepaired.name_eq ▸ hnamed c₀ hanswer)

theorem Sources.Shows.faults_ancestor (h : src.Shows look)
    (hanswer : answer look name = some (some c₀)) (hrepaired : c₀.Repaired c) {ancestor : Bytes}
    (hreaches : Reaches (kinOf look) c ancestor) (he : Blamed look ancestor (.error e)) :
    Faults src look name (e.withClass c.name) where
  kind := h.kind_iff (by rw [Error.kind_withClass]; exact (he.2 e rfl).1) (by simp [hanswer])
  entry := by
    refine .inr
      (.inr ⟨c₀, ancestor, hanswer, hreaches.congr hrepaired.kin_eq.symm hrepaired.name_eq.symm,
      answer_eq_none_iff.mp he.1.symm, ?_⟩)
    rw [Error.entry_withClass, (he.2 e rfl).2.1]
  className hnamed :=
    Error.className_withClass_ne (.inr (hrepaired.name_eq ▸ hnamed c₀ hanswer))

end

/-- Repairing a class fails with the error that is due to it, and nothing is written before that. -/
theorem Sources.Shows.ensures_repairClass_faults (h : src.Shows look) (hsrc : src.Blames)
    (hr : r.Blames) (hname : name ≠ []) (hb : b.cache.Holds (Mended (Answered look)))
    (s : Summary) :
    (repairClass src r name s).Ensures b (fun _ _ => True)
      (fun e b' => b'.world = b.world ∧ Faults src look name e) := by
  have hloads := h.loads_blamed hsrc b.world
  have hP (name : Bytes) (found : Option ClassFile) (hfound : Blamed look name (.ok found)) :
      Mended (Answered look) name found :=
    mended_of_answer (fun _ _ => Answered.wellFormed) name found hfound.1
  refine ensures_repairClass ((hloads.ensures_find hP ⟨rfl, hb⟩ name).mono ?_ ?_)
  · rintro found b₁ ⟨hb₁, hslot⟩
    have hmended := hb₁.cache name found hslot
    cases found with
    | none =>
      obtain ⟨_, hanswer, hrel⟩ := hmended.exists_answer
      cases hrel
      exact ⟨hb₁.world, h.faults_absent hname hanswer _⟩
    | some c =>
      obtain ⟨c₀, hanswer, hrepaired, hc⟩ := hmended.exists_some
      replace hanswer : answer look name = some (some c₀) := hanswer.symm
      refine ⟨Bench.class?_eq_some_iff.mpr hslot, ?_⟩
      refine (hc.ensures_realign_repaired.and (ClassFile.ensures_realign_inClass c)).mono ?_ ?_
      · rintro n c₁ ⟨⟨hrepaired₁, hc₁, -⟩, -⟩
        replace hrepaired₁ := hrepaired.trans hrepaired₁
        have hb₁' : (b₁.remember name c₁).Sound (· = b.world) (Mended (Answered look)) :=
          hb₁.toSound.remember ⟨some c₀, hanswer.symm, .some ⟨hrepaired₁, hc₁⟩⟩
        refine ((after_inheritedSignatures hloads hP hb₁' c₁).and
          (Repair.ensures_inheritedSignatures hloads hP (fun _ _ => Mended.map_kin_eq)
            (fun _ _ hd => hd.mem_names h rfl) src.card_names_lt hb₁' c₁)).mono ?_ ?_
        · rintro inherited b₂ ⟨hb₂, -⟩
          refine ⟨hb₂.class? Bench.class?_remember, ?_⟩
          refine (hc₁.ensures_markOverrides_repaired.and
            (hc₁.ensures_markOverrides_inClass hr inherited)).mono ?_ ?_
          · rintro k c₂ ⟨⟨hrepaired₂, -⟩, -⟩
            cases hwrite : c₂.encode with
            | ok data => trivial
            | error e =>
              exact ⟨hb₂.world, h.faults_inClass hanswer (hrepaired₁.trans hrepaired₂)
                (ClassFile.inClass_of_encode hwrite)⟩
          · rintro e c₂ ⟨-, he⟩
            exact ⟨hb₂.world, h.faults_inClass hanswer hrepaired₁ he⟩
        · rintro e b₂ ⟨hb₂, ancestor, hreaches, he⟩
          exact ⟨hb₂.world, h.faults_ancestor hanswer hrepaired₁ hreaches he⟩
      · rintro e c₁ ⟨-, he⟩
        exact ⟨hb₁.world, h.faults_inClass hanswer hrepaired he⟩
  · rintro e b₁ ⟨hb₁, he⟩
    exact ⟨hb₁.world, h.faults_unreadable hname he⟩

end Repair

end JarRepair

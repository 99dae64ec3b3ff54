import JarRepair.Proofs.Archive.Contents
import JarRepair.Proofs.Repair.Keeping
import JarRepair.Proofs.Repair.Settled

/-! # What a run leaves alone

A class in the cache is always a repair of the class that was loaded for its name, whoever looked it
up, and in whatever order the classes are repaired. So every class that a run writes is a repair of
the one that it read, and has the same bytes if no method was changed. -/

namespace JarRepair

open JarRepair.Task

namespace ClassFile

/-- Realigning leaves a repaired class with its constructors aligned. -/
theorem WellFormed.ensures_realign_repaired {c : ClassFile} (hc : c.WellFormed) :
    realign.Ensures c (fun _ c' => c.Repaired c' ∧ c'.WellFormed ∧ c'.Aligned)
      (fun _ _ => True) := by
  have hrepaired : realign.Ensures c (fun _ c' => c.Repaired c') (fun _ _ => True) :=
    ClassFile.ensures_realign (fun _ => .refl c)
      (fun _ _ hleading hms => .of_realign hc hleading hms) fun _ _ _ _ _ _ _ _ => trivial
  exact (hrepaired.and (hc.ensures_realign.and ensures_realign_aligned)).mono
    (fun _ _ => id) fun _ _ _ => trivial

/-- Marking the overriding methods leaves a repaired class. -/
theorem WellFormed.ensures_markOverrides_repaired {c : ClassFile} (hc : c.WellFormed) {r : Resolver}
    {inherited : Std.TreeSet Bytes} :
    (markOverrides r inherited).Ensures c (fun _ c' => c.Repaired c' ∧ c'.WellFormed)
      (fun _ _ => True) := by
  refine ClassFile.ensures_markOverrides ⟨.refl c, hc⟩ ?_ (fun _ _ _ => trivial)
    fun _ _ _ _ _ _ _ => trivial
  rintro c₁ k added c₂ ⟨hrepaired, hc₁⟩ hmark
  exact ⟨hrepaired.trans (.of_mark hc₁ hmark), hc₁.of_mark hmark⟩

end ClassFile

namespace Repair

open Archive (Collected Entry Memory Path Reader Writer)
open ClassFile (Pool decode decode_eq_ok_iff)

variable {σ : Type} {src : Sources σ} {r : ClassFile.Resolver}

/-! ## Repaired slots -/

section

variable {I : σ → Prop} {A : Bytes → Except Error (Option ClassFile) → Prop}

/-- A slot holds a repair of what was loaded for its name. -/
def Mended (A : Bytes → Except Error (Option ClassFile) → Prop) (name : Bytes)
    (slot : Option ClassFile) : Prop :=
  ∃ found, A name (.ok found) ∧ Option.Rel (fun c₀ c => c₀.Repaired c ∧ c.WellFormed) found slot

theorem mended_of_answer (hwell : ∀ name c, A name (.ok (some c)) → c.WellFormed) (name : Bytes)
    (found : Option ClassFile) (h : A name (.ok found)) : Mended A name found := by
  refine ⟨found, h, ?_⟩
  cases found with
  | none => exact .none
  | some c => exact .some ⟨.refl c, hwell name c h⟩

theorem Mended.exists_some {name : Bytes} {c : ClassFile} (h : Mended A name (some c)) :
    ∃ c₀, A name (.ok (some c₀)) ∧ c₀.Repaired c ∧ c.WellFormed := by
  obtain ⟨_, hfound, hrel⟩ := h
  cases hrel with
  | some hc => exact ⟨_, hfound, hc⟩

theorem Mended.exists_rel {name : Bytes} {slot : Option ClassFile} (h : Mended A name slot) :
    ∃ found, A name (.ok found) ∧ Option.Rel ClassFile.Repaired found slot := by
  obtain ⟨found, hfound, hrel⟩ := h
  cases hrel with
  | none => exact ⟨none, hfound, .none⟩
  | some hc => exact ⟨_, hfound, .some hc.1⟩

/-- A class is written as a repair of what was loaded for its name. What collecting the inherited
signatures ensures, and what marking ensures from it, holds too. -/
theorem ensures_repairClass_mended {H : ClassFile → Std.TreeSet Bytes → Prop} {G : ClassFile → Prop}
    (hloads : src.Loads I A) (hwell : ∀ name c, A name (.ok (some c)) → c.WellFormed)
    (hclimb : ∀ c (b : Bench σ), b.Sound I (Mended A) → (inheritedSignatures src c).Ensures b
      (fun inherited b' => Bench.After I (Mended A) b b' ∧ H c inherited) (fun _ _ => True))
    (hmarks : ∀ c inherited, c.WellFormed → c.Aligned → H c inherited →
      (ClassFile.markOverrides r inherited).Ensures c (fun _ => G) (fun _ _ => True))
    {b : Bench σ} (hb : b.Sound I (Mended A)) (name : Bytes) (s : Summary) :
    (repairClass src r name s).Ensures b
      (fun x b' => b'.Sound I (Mended A) ∧ ∃ c₀ c, A name (.ok (some c₀)) ∧ c₀.Repaired c ∧
        c.WellFormed ∧ c.encode = .ok x.1 ∧ G c)
      (fun _ _ => True) := by
  refine ensures_repairClass
    ((hloads.ensures_find (mended_of_answer hwell) hb name).mono ?_ fun _ _ _ => trivial)
  rintro found b₁ ⟨hb₁, hslot⟩
  cases found with
  | none => trivial
  | some c =>
    obtain ⟨c₀, hanswer, hrepaired, hc⟩ := (hb₁.cache name _ hslot).exists_some
    refine ⟨Bench.class?_eq_some_iff.mpr hslot, hc.ensures_realign_repaired.mono ?_
      fun _ _ _ => trivial⟩
    rintro n c₁ ⟨hrepaired₁, hc₁, haligned⟩
    have hslot₁ : Mended A name (some c₁) :=
      ⟨some c₀, hanswer, .some ⟨hrepaired.trans hrepaired₁, hc₁⟩⟩
    refine (hclimb c₁ _ (hb₁.toSound.remember hslot₁)).mono ?_ fun _ _ _ => trivial
    rintro inherited b₂ ⟨hb₂, hH⟩
    refine ⟨hb₂.class? Bench.class?_remember, ?_⟩
    refine (hc₁.ensures_markOverrides_repaired.and (hmarks c₁ inherited hc₁ haligned hH)).mono ?_
      fun _ _ _ => trivial
    rintro k c₂ ⟨⟨hrepaired₂, hc₂⟩, hG⟩
    have hall := (hrepaired.trans hrepaired₁).trans hrepaired₂
    have hslot₂ : Mended A name (some c₂) := ⟨some c₀, hanswer, .some ⟨hall, hc₂⟩⟩
    cases hwrite : c₂.encode with
    | error e => trivial
    | ok data => exact ⟨hb₂.toSound.remember hslot₂, c₀, c₂, hanswer, hall, hc₂, hwrite, hG⟩

/-- Whatever is inherited, a class is written as a repair of what was loaded for its name. -/
theorem ensures_repairClass_repaired (hloads : src.Loads I A)
    (hwell : ∀ name c, A name (.ok (some c)) → c.WellFormed) {b : Bench σ}
    (hb : b.Sound I (Mended A)) (name : Bytes) (s : Summary) :
    (repairClass src r name s).Ensures b
      (fun x b' => b'.Sound I (Mended A) ∧ ∃ c₀ c, A name (.ok (some c₀)) ∧ c₀.Repaired c ∧
        c.WellFormed ∧ c.encode = .ok x.1)
      (fun _ _ => True) := by
  refine (ensures_repairClass_mended (H := fun _ _ => True)
    (G := fun _ => True) hloads hwell ?_ ?_ hb name s).mono ?_ fun _ _ => id
  · intro c b₁ hb₁
    exact (after_inheritedSignatures hloads (mended_of_answer hwell) hb₁ c).mono
      (fun _ _ h => ⟨h, trivial⟩) fun _ _ _ => trivial
  · exact fun c _ hc _ _ => hc.ensures_markOverrides_repaired.mono (fun _ _ _ => trivial)
      fun _ _ => id
  · rintro x b' ⟨hb', c₀, c, hanswer, hrepaired, hc, hwrite, -⟩
    exact ⟨hb', c₀, c, hanswer, hrepaired, hc, hwrite⟩

end

/-! ## The frame -/

/-- The bytes of a class and of a repair of it. At most two constants are new, and without a change
of the methods the bytes are the same. -/
def Frame (data data' : Bytes) : Prop :=
  ∃ c c', decode data = .ok c ∧ decode data' = .ok c' ∧ c.Repaired c' ∧
    c'.pool.slots.size ≤ c.pool.slots.size + 2 ∧ (c'.methods = c.methods → data' = data)

theorem frame_of_repaired {data data' : Bytes} {c c' : ClassFile} (hread : decode data = .ok c)
    (hrepaired : c.Repaired c') (hc' : c'.WellFormed) (hwrite : c'.encode = .ok data') :
    Frame data data' := by
  refine ⟨c, c', hread, decode_eq_ok_iff.mpr ⟨hc', hwrite⟩, hrepaired, hrepaired.pool.size_le, ?_⟩
  intro hmethods
  rw [hrepaired.eq_of_methods_eq hmethods] at hwrite
  exact Except.ok.inj (hwrite.symm.trans (decode_eq_ok_iff.mp hread).2)

variable {content : Path → Bytes} {written : σ → Path → Option Bytes}

/-- The answers for a name: if its file is listed, the class in the file. -/
def Listed (src : Sources σ) (content : Path → Bytes) (name : Bytes)
    (answer : Except Error (Option ClassFile)) : Prop :=
  ∀ found, answer = .ok found → (∀ c, found = some c → c.WellFormed) ∧
    ({ path := Path.ofClass name, kind := .file } ∈ src.primary.entries →
      ∃ c, decode (content (Path.ofClass name)) = .ok c ∧ found = some c)

/-- Whatever container a class is loaded from, a name that is listed gets the class in its file. -/
theorem loads_listed {I : σ → Prop} (hserves : src.primary.Serves content) (hkeep : src.Keep I I) :
    src.Loads I (Listed src content) := by
  intro name b hb
  have hcontains (hlisted : { path := Path.ofClass name, kind := .file } ∈ src.primary.entries) :
      src.holder? (Path.ofClass name) = some src.primary := by
    rw [Sources.holder?, if_pos (hserves.contains _ hlisted rfl)]
  refine Sources.ensures_load ?_ ?_
  · intro hnone
    refine ⟨?_, hb, rfl⟩
    rintro _ ⟨⟩
    refine ⟨by simp, fun hlisted => ?_⟩
    rw [hcontains hlisted] at hnone
    simp at hnone
  · intro reader hholder
    have hread : (reader.read (Path.ofClass name)).Ensures b.world
        (fun data w => I w ∧ ({ path := Path.ofClass name, kind := .file } ∈ src.primary.entries →
          data = content (Path.ofClass name)))
        (fun _ w => I w) := by
      have hkeeps := hkeep reader (Sources.eq_of_holder? hholder) (Path.ofClass name) b.world hb
      by_cases hlisted : { path := Path.ofClass name, kind := .file } ∈ src.primary.entries
      · obtain rfl := Option.some.inj ((hcontains hlisted).symm.trans hholder)
        exact (hkeeps.and (hserves.read _ hlisted rfl b.world)).mono
          (fun _ _ h => ⟨h.1, fun _ => h.2⟩) fun _ _ h => h.1
      · exact hkeeps.mono (fun _ _ h => ⟨h, fun h' => absurd h' hlisted⟩) fun _ _ => id
    refine hread.mono ?_ ?_
    · rintro data w ⟨hw, hdata⟩
      cases hc : decode data with
      | ok c =>
        refine ⟨?_, hw, rfl⟩
        rintro _ ⟨⟩
        refine ⟨?_, fun hlisted => ⟨c, hdata hlisted ▸ hc, rfl⟩⟩
        rintro _ ⟨⟩
        exact (decode_eq_ok_iff.mp hc).1
      | error failure => exact ⟨fun _ h => by simp at h, hw, rfl⟩
    · exact fun _ _ hw => ⟨fun _ h => by simp at h, hw, rfl⟩

theorem Listed.wellFormed {name : Bytes} {c : ClassFile}
    (h : Listed src content name (.ok (some c))) :
    c.WellFormed := (h _ rfl).1 c rfl

/-- A class entry is written with a repair of the class that it holds. -/
theorem ensures_repairClass_frame {I : σ → Prop} (hserves : src.primary.Serves content)
    (hkeep : src.Keep I I) {name : Bytes}
    (hlisted : { path := Path.ofClass name, kind := .file } ∈ src.primary.entries)
    {b : Bench σ} (hb : b.Sound I (Mended (Listed src content))) (s : Summary) :
    (repairClass src r name s).Ensures b
      (fun x b' => b'.Sound I (Mended (Listed src content)) ∧
        Frame (content (Path.ofClass name)) x.1)
      (fun _ _ => True) := by
  refine (ensures_repairClass_repaired (loads_listed hserves hkeep)
    (fun _ _ => Listed.wellFormed) hb name s).mono ?_ fun _ _ => id
  rintro x b' ⟨hb', c₀, c, hanswer, hrepaired, hc, hwrite⟩
  obtain ⟨c', hread, hfound⟩ := (hanswer _ rfl).2 hlisted
  obtain rfl := Option.some.inj hfound
  exact ⟨hb', frame_of_repaired hread hrepaired hc hwrite⟩

theorem keep_of_spares (hprimary : src.primary.Spares written)
    (hfallback : ∀ reader ∈ src.fallback, reader.Spares written) (v : Path → Option Bytes) :
    src.Keep (fun w => written w = v) (fun w => written w = v) := by
  rintro reader hreader p w rfl
  rcases hreader with rfl | hreader
  · exact hprimary p w
  · exact hfallback reader hreader p w

/-- Each class entry has been written with a repair of the class that it holds. -/
def Framed (content : Path → Bytes) (v : Path → Option Bytes) (entries : List Entry) : Prop :=
  ∀ e ∈ entries, e.kind = .file → e.path.isClass = true →
    ∃ data, v e.path = some data ∧ Frame (content e.path) data

section

variable {v v' : Path → Option Bytes} {done : List Entry} {e : Entry}

/-- An entry that is no class leaves the classes before it as they were written. -/
theorem Framed.add_other (h : Framed content v done) (he : e.kind = .file → e.path.isClass = false)
    (hv : ∀ p : Path, p.isClass = true → v' p = v p) : Framed content v' (done ++ [e]) := by
  intro e' he' hkind hclass
  rcases List.mem_append.mp he' with he' | he'
  · rw [hv _ hclass]
    exact h e' he' hkind hclass
  · rw [List.mem_singleton.mp he'] at hkind hclass
    rw [he hkind] at hclass
    simp at hclass

/-- A class may be written twice, but only as a repair of itself. -/
theorem Framed.add_class (h : Framed content v done) {data : Bytes}
    (hframe : Frame (content e.path) data)
    (hv : ∀ p, v' p = if e.path = p then some data else v p) :
    Framed content v' (done ++ [e]) := by
  intro e' he' hkind hclass
  by_cases hsame : e.path = e'.path
  · rw [hv, if_pos hsame]
    exact ⟨data, rfl, hsame ▸ hframe⟩
  · rw [hv, if_neg hsame]
    rcases List.mem_append.mp he' with he' | he'
    · exact h e' he' hkind hclass
    · exact absurd (congrArg Entry.path (List.mem_singleton.mp he').symm) hsame

end

/-- Nothing but the two repairs changes: each class entry of the input is written with a repair of
the class that it holds. -/
theorem frame_of_repair {output : Writer σ} (hserves : src.primary.Serves content)
    (hprimary : src.primary.Spares written)
    (hfallback : ∀ reader ∈ src.fallback, reader.Spares written)
    (hrecords : output.Records written) {w : σ} {notes : Array Log.Note} {report : Report}
    {s' : Traced (Bench σ)}
    (hrun : repair src r output { state := { world := w }, notes } = (.ok report, s')) :
    ∀ e ∈ src.primary.entries, e.kind = .file → e.path.isClass = true →
      ∃ data, written s'.state.world e.path = some data ∧ Frame (content e.path) data := by
  suffices h : (repair src r output).Ensures { world := w }
      (fun _ b => b.cache.Holds (Mended (Listed src content)) ∧
        Framed content (written b.world) src.primary.entries)
      fun _ _ => True from (h.of_ok hrun).2
  refine ensures_repair (I := fun done _ b => b.cache.Holds (Mended (Listed src content)) ∧
    Framed content (written b.world) done) ?_ ⟨Cache.holds_empty, fun _ he => by simp at he⟩
  rintro done e rest s b hentries ⟨hcache, hdone⟩
  refine ensures_repairEntry ?_ ?_ ?_
  · intro hkind
    refine (hrecords.addDirectory e.path b.world).mono ?_ fun _ _ _ => trivial
    intro _ w hw
    exact ⟨hcache, hdone.add_other (by simp [hkind]) fun p _ => congrFun hw p⟩
  · intro hkind hclass
    have hname := Path.ofClass_className hclass
    have hlisted :
        { path := Path.ofClass e.path.className, kind := .file } ∈ src.primary.entries := by
      rw [hname, ← hkind, hentries]
      exact List.mem_append_right done List.mem_cons_self
    have hkeep := keep_of_spares hprimary hfallback (written b.world)
    refine (ensures_repairClass_frame hserves hkeep hlisted ⟨rfl, hcache⟩ s).mono ?_ fun _ _ => id
    rintro ⟨data, s'⟩ b' ⟨hb', hframe⟩
    rw [hname] at hframe
    rw [← hb'.world] at hdone
    refine (hrecords.addFile e.path data b'.world).mono ?_ fun _ _ _ => trivial
    exact fun _ w hw => ⟨hb'.cache, hdone.add_class hframe hw⟩
  · intro hkind hclass
    refine (hprimary e.path b.world).mono ?_ fun _ _ _ => trivial
    intro data w hwritten
    rw [← hwritten] at hdone
    refine (hrecords.addFile e.path data w).mono ?_ fun _ _ _ => trivial
    refine fun _ w' hw => ⟨hcache, hdone.add_other (fun _ => hclass) fun p hp => ?_⟩
    rw [hw, if_neg]
    rintro rfl
    rw [hclass] at hp
    simp at hp

/-- A class that declares a method, and its superclass. -/
def oneMethod (name parent : Bytes) : Bytes :=
  Bytes.dword ClassFile.magic ++ [0, 0, 0, 52] ++
    Pool.encode ⟨#[.unusable, Pool.textSlot name, .entry ClassFile.Tag.classRef [0, 1],
      Pool.textSlot parent, .entry ClassFile.Tag.classRef [0, 3], Pool.textSlot "m",
      Pool.textSlot "()V"]⟩ ++
    [0, 33, 0, 2, 0, 4, 0, 0, 0, 0] ++ [0, 1, 0, 1, 0, 5, 0, 6, 0, 0] ++ [0, 0]

/-- Two classes that extend each other, a file that is no class, and a directory. -/
def twoClasses : Memory where
  files := (((∅ : Std.TreeMap Path Bytes).insert "A.class" (oneMethod "A" "B")).insert "B.class"
    (oneMethod "B" "A")).insert "n" "text"
  directories := ["z"]

theorem reader_twoClasses : (twoClasses.reader [] : Reader Collected) =
    { (twoClasses.reader [] : Reader Collected) with
      entries := twoClasses.files.keys.map (fun path => { path, kind := .file }) ++
        [{ path := "z", kind := .directory }] } := by
  have hentries : twoClasses.entries = _ := List.mergeSort_of_pairwise (by decide +kernel)
  rw [Memory.reader, hentries]
  rfl

theorem frame_of_repair_twoClasses : ∃ report s',
    repair { primary := twoClasses.reader [] } .bridge Collected.writer
      { state := { world := {} } } = (.ok report, s') ∧ report.summary.marked = 2 ∧
    ∃ data, s'.state.world.files[("A.class" : Path)]? = some data ∧
    Frame (oneMethod "A" "B") data := by
  have hmarked : (repair { primary := twoClasses.reader [] } .bridge Collected.writer
      { state := { world := {} } }).1.toOption.map (·.summary.marked) = some 2 := by
    rw [reader_twoClasses]
    decide +kernel
  rcases hrun : repair { primary := twoClasses.reader [] } .bridge Collected.writer
    { state := { world := {} } } with ⟨e | report, s'⟩
  · simp [hrun, Except.toOption] at hmarked
  · have hframe := frame_of_repair Memory.serves_reader (Memory.spares_reader _) (by simp)
      Collected.records_writer hrun { path := "A.class", kind := .file }
      (Memory.mem_entries_iff.mpr (by decide +kernel)) rfl (by decide +kernel)
    exact ⟨report, s', rfl, by simpa [hrun, Except.toOption] using hmarked, hframe⟩

end Repair

end JarRepair

import JarRepair.Proofs.Repair.Projection
import JarRepair.Proofs.Zip.Calls

/-! # A repair copies all entries

A repair calls its writer once for each entry of the input, in the order in which they are listed.
To say so of any writer, its calls are written down. Files that are no classes are handed on as they
were fetched, classes as bytes that can be read again. A repair blames itself, by an error of the
kind `internal`, only if a class that is listed is not served; the containers and the resolver are
taken to raise no such error themselves. -/

namespace JarRepair

open JarRepair.Task

/-! ## Errors of the other kinds -/

namespace Task

variable {σ τ α β : Type} {t : Task σ α}

/-- The errors of the task tell of the data or of the system. -/
def Consistent (t : Task σ α) : Prop :=
  ∀ s, t.Ensures s (fun _ _ => True) fun e _ => e.kind ≠ .internal

theorem consistent_pure {a : α} : (pure a : Task σ α).Consistent :=
  fun _ => ensures_pure.mpr trivial

theorem consistent_state : (state : Task σ σ).Consistent := fun _ => ensures_state.mpr trivial

theorem consistent_note {level : Log.Level} {module message : Bytes} :
    (note level module message : Task σ Unit).Consistent := fun _ => ensures_note.mpr trivial

theorem consistent_throw {e : Error} (h : e.kind ≠ .internal) : (throw e : Task σ α).Consistent :=
  fun _ => ensures_throw.mpr h

theorem Consistent.bind (h : t.Consistent) {f : α → Task σ β} (hf : ∀ a, (f a).Consistent) :
    (t >>= f).Consistent := fun s =>
  Ensures.bind ((h s).mono (fun a s' _ => hf a s') fun _ _ => id)

theorem Consistent.mapError (h : t.Consistent) {f : Error → Error} (hf : ∀ e, (f e).kind = e.kind) :
    (Task.mapError f t).Consistent := fun s =>
  ensures_mapError.mpr ((h s).mono (fun _ _ => id) fun e _ he => by rwa [hf])

theorem Consistent.focus {t : Task τ α} (h : t.Consistent) {part : σ → τ} {put : τ → σ → σ} :
    (Task.focus part put t).Consistent := fun s => ensures_focus.mpr (h (part s))

theorem Consistent.foldlM {ι : Type} {f : β → ι → Task σ β} (hf : ∀ b x, (f b x).Consistent)
    (items : List ι) (b : β) : (items.foldlM f b).Consistent := by
  induction items generalizing b with
  | nil => exact consistent_pure
  | cons x items ih => exact (hf b x).bind ih

end Task

namespace ClassFile

variable {σ : Type}

theorem kind_of_encode {c : ClassFile} {e : Error} (h : c.encode = .error e) :
    e.kind = .format := by
  obtain ⟨fault, -, rfl⟩ := Outcome.mapError_eq_error_iff.mp h
  rw [Error.kind_withClass, Fault.kind_error]

theorem consistent_store (c : ClassFile) : (store c : Task σ Bytes).Consistent := fun _ =>
  ensures_store (fun _ _ => trivial) fun e he => by simp [kind_of_encode he]

theorem consistent_realign : realign.Consistent := fun _ =>
  ensures_realign (fun _ => trivial) (fun _ _ _ _ => trivial)
    fun _ _ _ _ _ _ fault _ => by simp [Fault.kind_error]

theorem kind_of_mark {k : Nat} {type : Bytes} {c c' : ClassFile} {e : Error}
    (h : mark k type c = (.error e, c')) : e.kind = .format := by
  rw [mark] at h
  split at h
  · simp at h
  · split at h
    · simp at h
    · split at h
      · rw [← Except.error.inj (Prod.mk.inj h).1, Fault.kind_error]
      · dsimp only at h
        split at h
        · simp at h
        · split at h
          · rw [← Except.error.inj (Prod.mk.inj h).1, Fault.kind_error]
          · simp at h

/-- The resolver's errors tell of the class. -/
def Resolver.Consistent (r : Resolver) : Prop :=
  ∀ c m e, r.target c m = .error e → e.kind ≠ .internal

theorem Resolver.consistent_bridge : bridge.Consistent := by
  intro c m e h
  obtain ⟨fault, -, rfl⟩ := Outcome.mapError_eq_error_iff.mp h
  simp [Fault.kind_error]

theorem consistent_markOverrides {r : Resolver} (hr : r.Consistent)
    (inherited : Std.TreeSet Bytes) :
    (markOverrides r inherited).Consistent := by
  refine consistent_state.bind fun c => Consistent.foldlM (fun n x => ?_) _ _
  refine Consistent.bind (fun c => ?_) fun _ => consistent_pure
  refine ensures_markOverride (fun _ => trivial) (fun _ _ _ _ _ _ => trivial) ?_ ?_
  · intro e _ he
    rw [Error.kind_withClass]
    exact hr _ _ e he
  · intro key e c' _ _ he
    rw [Error.kind_withClass, kind_of_mark he]
    simp

end ClassFile

namespace Archive

variable {σ : Type}

/-- The errors of fetching a file tell of the container. -/
def Reader.Consistent (reader : Reader σ) : Prop := ∀ p, (reader.read p).Consistent

/-- The errors of adding an entry tell of the container. -/
structure Writer.Consistent (output : Writer σ) : Prop where
  addDirectory : ∀ p, (output.addDirectory p).Consistent
  addFile : ∀ p data, (output.addFile p data).Consistent

theorem Memory.consistent_reader {m : Memory} {location : Bytes} :
    (m.reader location : Reader σ).Consistent := by
  intro p
  rw [reader]
  dsimp only
  split
  · exact consistent_pure
  · exact consistent_throw (by simp [notListed, Error.io])

theorem Collected.consistent_writer : writer.Consistent where
  addDirectory _ _ :=
    ensures_addDirectory (fun _ => by simp [alreadyFinished, Error.io]) fun _ => trivial
  addFile _ _ _ := ensures_addFile (fun _ => by simp [alreadyFinished, Error.io])
    (fun _ _ => by simp [writtenTwice, Error.io]) fun _ _ => trivial

end Archive

namespace Repair

open Archive (Entry Path Reader Writer)
open ClassFile (decode)

variable {σ : Type} {src : Sources σ} {output : Writer σ} {r : ClassFile.Resolver}
  {content : Path → Bytes}

def Sources.Consistent (src : Sources σ) : Prop :=
  ∀ reader, reader = src.primary ∨ src.fallback = some reader → reader.Consistent

theorem consistent_modifyCache {f : Cache → Cache} :
    (Bench.modifyCache f : Task (Bench σ) Unit).Consistent :=
      fun _ => Bench.ensures_modifyCache trivial

theorem Sources.Consistent.load (h : src.Consistent) (name : Bytes) :
    (src.load name).Consistent := by
  refine fun b => ensures_load (fun _ => trivial) fun reader hreader => ?_
  refine (h reader (eq_of_holder? hreader) (Path.ofClass name) b.world).mono ?_ fun e _ he => by
    simpa
  intro data w _
  split
  · trivial
  · simp [ClassFile.Failure.kind_error]

theorem Sources.Consistent.find (h : src.Consistent) (name : Bytes) :
    (src.find name).Consistent := by
  refine consistent_state.bind fun b => ?_
  split
  · exact consistent_modifyCache.bind fun _ => consistent_pure
  · refine consistent_modifyCache.bind fun _ => (h.load name).bind fun found => ?_
    split
    · exact consistent_modifyCache.bind fun _ => consistent_note.bind fun _ =>
        consistent_modifyCache.bind fun _ => consistent_pure
    · exact consistent_modifyCache.bind fun _ => consistent_pure

theorem Sources.Consistent.inheritedSignatures (h : src.Consistent) (c : ClassFile) :
    (inheritedSignatures src c).Consistent := by
  refine Task.Consistent.bind (fun b => ?_) fun s => consistent_pure
  refine (Survey.ensures_climb (J := fun _ _ _ _ => True) ?_ trivial).mono (fun _ _ _ => trivial)
    fun _ _ => id
  intro fuel node nodes s b _
  refine Task.Consistent.foldlM (fun s name b => ?_) node.parents _ b
  exact Survey.ensures_visit (fun _ => trivial) fun _ => h.find name b

/-- A name that is listed is found, if its class can be read at all. -/
theorem ensures_repairClass_consistent (hserves : src.primary.Serves content)
    (hsrc : src.Consistent) (hr : r.Consistent) {name : Bytes}
    (hlisted : { path := Path.ofClass name, kind := .file } ∈ src.primary.entries) {b : Bench σ}
    (hb : b.cache.Holds (Mended (Listed src content))) (s : Summary) :
    (repairClass src r name s).Ensures b (fun _ _ => True) (fun e _ => e.kind ≠ .internal) := by
  have hloads : src.Loads (fun _ => True) (Listed src content) :=
    loads_listed hserves fun _ _ _ _ _ => ensures_any _ _
  have hfind :=
    hloads.ensures_find (mended_of_answer fun _ _ => Listed.wellFormed) ⟨trivial, hb⟩ name
  refine Ensures.bind ((hfind.and (hsrc.find name b)).mono ?_ fun _ _ h => h.2)
  rintro found b₁ ⟨⟨hb₁, hslot⟩, -⟩
  cases found with
  | none =>
    obtain ⟨found, hanswer, hrel⟩ := hb₁.cache name none hslot
    cases hrel with
    | none =>
      obtain ⟨c, -, hfound⟩ := (hanswer none rfl).2 hlisted
      simp at hfound
  | some c =>
    refine (ClassFile.consistent_realign.focus.bind fun n => consistent_state.bind fun b => ?_ :
      Task.Consistent _) b₁
    refine Task.Consistent.bind ?_ fun marked => consistent_state.bind fun b =>
      (ClassFile.consistent_store _).bind fun data => consistent_pure
    refine Task.Consistent.bind
      ((hsrc.inheritedSignatures _).mapError fun e => Error.kind_withClass _ e)
      fun inherited => (ClassFile.consistent_markOverrides hr inherited).focus

/-- A container that serves all that it lists is never blamed for an entry without a class. -/
theorem ensures_repair_consistent (hserves : src.primary.Serves content) (hsrc : src.Consistent)
    (hr : r.Consistent) (houtput : output.Consistent) (w : σ) :
    (repair src r output).Ensures { world := w } (fun _ _ => True)
      (fun e _ => e.kind ≠ .internal) := by
  refine (ensures_repair (I := fun _ _ b => b.cache.Holds (Mended (Listed src content))) ?_
    Cache.holds_empty).mono (fun _ _ _ => trivial) fun _ _ => id
  intro done e rest s b hentries hb
  have hkeep : src.Keep (fun _ => True) (fun _ => True) := fun _ _ _ _ _ => ensures_any _ _
  refine ensures_repairEntry ?_ ?_ ?_
  · intro _
    exact (houtput.addDirectory e.path b.world).mono (fun _ _ _ => hb) fun _ _ he => by simpa
  · intro hkind hclass
    have hlisted :
        { path := Path.ofClass e.path.className, kind := .file } ∈ src.primary.entries := by
      rw [Path.ofClass_className hclass, ← hkind, hentries]
      exact List.mem_append_right done List.mem_cons_self
    refine ((ensures_repairClass_frame hserves hkeep hlisted ⟨trivial, hb⟩ s).and
      (ensures_repairClass_consistent hserves hsrc hr hlisted hb s)).mono ?_ fun _ _ he => by
        simpa using he.2
    rintro x b' ⟨⟨hb', -⟩, -⟩
    exact (houtput.addFile e.path x.1 b'.world).mono (fun _ _ _ => hb'.cache) fun _ _ he => by simpa
  · intro _ _
    refine (hsrc src.primary (.inl rfl) e.path b.world).mono ?_ fun _ _ he => by simpa
    intro data w _
    exact (houtput.addFile e.path data w).mono (fun _ _ _ => hb) fun _ _ he => by simpa

/-! ## Calls that are written down -/

open Zip (Call)

/-- A world with the calls that a writer got. -/
structure Recorded (σ : Type) where
  world : σ
  calls : List Call := []

namespace Recorded

variable {α : Type} {s : Recorded σ}

def inWorld (t : Task σ α) : Task (Recorded σ) α := t.focus world fun world s => { s with world }

/-- A writer that writes down its calls. -/
def writer (output : Writer σ) : Writer (Recorded σ) where
  addDirectory p := do
    Task.modifyState fun s => { s with calls := s.calls ++ [.directory p] }
    inWorld (output.addDirectory p)
  addFile p data := do
    Task.modifyState fun s => { s with calls := s.calls ++ [.file p data] }
    inWorld (output.addFile p data)

def sources (src : Sources σ) : Sources (Recorded σ) where
  primary := src.primary.through inWorld
  fallback := src.fallback.map (·.through inWorld)

theorem ensures_inWorld {t : Task σ α} {Q : α → Recorded σ → Prop} {E : Error → Recorded σ → Prop}
    (h : t.Ensures s.world (fun a world => Q a { s with world })
      (fun e world => E e { s with world })) :
    (inWorld t).Ensures s Q E := ensures_focus.mpr h

theorem ensures_addDirectory (output : Writer σ) (p : Path) (s : Recorded σ) :
    ((writer output).addDirectory p).Ensures s (fun _ s' => s'.calls = s.calls ++ [.directory p])
      fun _ _ => True :=
  Ensures.bind (ensures_modifyState.mpr (ensures_inWorld
    ((ensures_any _ _).mono (fun _ _ _ => rfl) fun _ _ => id)))

theorem ensures_addFile (output : Writer σ) (p : Path) (data : Bytes) (s : Recorded σ) :
    ((writer output).addFile p data).Ensures s (fun _ s' => s'.calls = s.calls ++ [.file p data])
      fun _ _ => True :=
  Ensures.bind (ensures_modifyState.mpr (ensures_inWorld
    ((ensures_any _ _).mono (fun _ _ _ => rfl) fun _ _ => id)))

theorem mirrors_inWorld (t : Task σ α) : Mirrors world (inWorld t) t := mirrors_focus fun _ _ => rfl

theorem mirrors_writer (output : Writer σ) : (writer output).Mirrors world output where
  addDirectory _ := (mirrors_inWorld _).after_modifyState fun _ => rfl
  addFile _ _ := (mirrors_inWorld _).after_modifyState fun _ => rfl

theorem mirrors_through (reader : Reader σ) : (reader.through inWorld).Mirrors world reader where
  location := rfl
  entries := rfl
  files := rfl
  read _ := mirrors_inWorld _

theorem mirrors_sources (src : Sources σ) : (sources src).Mirrors world src where
  primary := mirrors_through src.primary
  fallback := by
    rw [sources]
    cases src.fallback with
    | none => exact .none
    | some reader => exact .some (mirrors_through reader)

theorem serves_sources (hserves : src.primary.Serves content) :
    (sources src).primary.Serves content where
  contains := hserves.contains
  read e he hkind s := ensures_inWorld (hserves.read e he hkind s.world)

/-- Fetching calls no writer. -/
theorem keep_sources (calls : List Call) :
    (sources src).Keep (fun s => s.calls = calls) (fun s => s.calls = calls) := by
  rintro reader hreader p s hs
  have hthrough : ∃ reader' : Reader σ, reader = reader'.through inWorld := by
    rcases hreader with rfl | hreader
    · exact ⟨_, rfl⟩
    · obtain ⟨reader', -, rfl⟩ := Option.map_eq_some_iff.mp hreader
      exact ⟨reader', rfl⟩
  obtain ⟨reader', rfl⟩ := hthrough
  exact ensures_inWorld ((ensures_any _ _).mono (fun _ _ _ => hs) fun _ _ _ => hs)

end Recorded

/-- What is written for a file: for a class, bytes that can be read as one; else what the file
holds. -/
def Handed (content : Path → Bytes) (p : Path) (data : Bytes) : Prop :=
  if p.isClass then ∃ c, decode data = .ok c else data = content p

/-- Calls that copy entries: there is one for each, in their order. -/
structure Copies (content : Path → Bytes) (entries : List Entry) (calls : List Call) : Prop where
  entries : calls.map Call.entry = entries
  handed : ∀ p data, .file p data ∈ calls → Handed content p data

theorem Copies.concat {entries : List Entry} {calls : List Call} (h : Copies content entries calls)
    {c : Call} (hcall : ∀ p data, c = .file p data → Handed content p data) :
    Copies content (entries ++ [c.entry]) (calls ++ [c]) where
  entries := by rw [List.map_append, h.entries, List.map_singleton]
  handed p data hmem := by
    rcases List.mem_append.mp hmem with hmem | hmem
    · exact h.handed p data hmem
    · exact hcall p data (List.mem_singleton.mp hmem).symm

def Summary.entries (s : Summary) : Nat := s.directories + s.resources + s.classes

/-- Repairing a class counts no entry. -/
theorem ensures_repairClass_entries (name : Bytes) (s : Summary) (b : Bench σ) :
    (repairClass src r name s).Ensures b (fun x _ => x.2.entries = s.entries)
      (fun _ _ => True) := by
  have hany {α β : Type} {t : Task (Bench σ) α} {f : α → Task (Bench σ) β} {Q : β → Bench σ → Prop}
      {b : Bench σ} (h : ∀ a b', (f a).Ensures b' Q fun _ _ => True) :
      (t >>= f).Ensures b Q fun _ _ => True :=
    Ensures.bind ((ensures_any t b).mono (fun a b' _ => h a b') fun _ _ _ => trivial)
  refine hany fun found b₁ => ?_
  cases found with
  | none => exact ensures_throw.mpr trivial
  | some c => exact hany fun _ _ => hany fun _ _ => hany fun _ _ => hany fun _ _ => hany fun _ _ =>
      ensures_pure.mpr rfl

/-- The entries done so far have been copied and counted. -/
structure Transcribed (src : Sources σ) (content : Path → Bytes) (done : List Entry) (s : Summary)
    (b : Bench (Recorded σ)) : Prop where
  cache : b.cache.Holds (Mended (Listed (Recorded.sources src) content))
  calls : Copies content done b.world.calls
  count : s.entries = done.length

namespace Transcribed

variable {done rest : List Entry} {s s' : Summary} {b b' : Bench (Recorded σ)} {p : Path}

theorem concat (h : Transcribed src content done s b) {c : Call}
    (hcache : b'.cache.Holds (Mended (Listed (Recorded.sources src) content)))
    (hcalls : b'.world.calls = b.world.calls ++ [c])
    (hcall : ∀ p data, c = .file p data → Handed content p data)
    (hcount : s'.entries = s.entries + 1) :
    Transcribed src content (done ++ [c.entry]) s' b' where
  cache := hcache
  calls := hcalls ▸ h.calls.concat hcall
  count := by rw [hcount, h.count, List.length_append, List.length_singleton]

theorem ensures_class (hserves : src.primary.Serves content) (h : Transcribed src content done s b)
    (hlisted : { path := p, kind := .file } ∈ src.primary.entries) (hclass : p.isClass = true) :
    (repairClass (Recorded.sources src) r p.className s).Ensures b
      (fun x b' => b'.world.calls = b.world.calls ∧ x.2.entries = s.entries ∧ Handed content p x.1 ∧
        b'.cache.Holds (Mended (Listed (Recorded.sources src) content)))
      (fun _ _ => True) := by
  have hname : { path := Path.ofClass p.className, kind := .file } ∈
      (Recorded.sources src).primary.entries := by
    rw [Path.ofClass_className hclass]
    exact hlisted
  refine ((ensures_repairClass_frame (Recorded.serves_sources hserves)
    (Recorded.keep_sources b.world.calls) hname ⟨rfl, h.cache⟩ s).and
      (ensures_repairClass_entries _ s b)).mono ?_ fun _ _ _ => trivial
  rintro x b' ⟨⟨hb', c, c', -, hread, -⟩, hcount⟩
  refine ⟨hb'.world, hcount, ?_, hb'.cache⟩
  rw [Handed, if_pos hclass]
  exact ⟨c', hread⟩

theorem ensures_repairEntry (hserves : src.primary.Serves content)
    (h : Transcribed src content done s b) {e : Entry} (hlisted : e ∈ src.primary.entries) :
    (repairEntry (Recorded.sources src) r (Recorded.writer output) s e).Ensures b
      (Transcribed src content (done ++ [e])) fun _ _ => True := by
  obtain ⟨p, kind⟩ := e
  have hentries : ({ s with directories := s.directories + 1 } : Summary).entries = s.entries + 1 ∧
      ({ s with resources := s.resources + 1 } : Summary).entries = s.entries + 1 := by
    simp only [Summary.entries]
    omega
  refine Repair.ensures_repairEntry ?_ ?_ ?_
  · rintro ⟨⟩
    refine (Recorded.ensures_addDirectory output p b.world).mono (fun _ w hcalls => ?_)
      fun _ _ => id
    exact h.concat (c := .directory p) h.cache hcalls (by simp) hentries.1
  · rintro ⟨⟩ hclass
    refine (h.ensures_class hserves hlisted hclass).mono ?_ fun _ _ => id
    rintro ⟨data, s'⟩ b' ⟨hkept, hcount, hhanded, hcache⟩
    refine (Recorded.ensures_addFile output p data b'.world).mono (fun _ w hcalls => ?_)
      fun _ _ => id
    refine h.concat (c := .file p data) hcache (hkept ▸ hcalls) ?_ ?_
    · rintro _ _ ⟨⟩
      exact hhanded
    · rw [← hcount]
      simp only [Summary.entries]
      omega
  · rintro ⟨⟩ hclass
    have hread := (Recorded.keep_sources b.world.calls _ (.inl rfl) p b.world rfl).and
      ((Recorded.serves_sources hserves).read _ hlisted rfl b.world)
    refine hread.mono ?_ fun _ _ _ => trivial
    rintro data w' ⟨hkept, rfl⟩
    refine (Recorded.ensures_addFile output p (content p) w').mono (fun _ w hcalls => ?_)
      fun _ _ => id
    refine h.concat (c := .file p (content p)) h.cache (hkept ▸ hcalls) ?_ hentries.2
    rintro _ _ ⟨⟩
    rw [Handed, if_neg (by simp [hclass])]

end Transcribed

/-- A repair that ends well has made the calls that copy the input. -/
theorem ensures_repair_copies (hserves : src.primary.Serves content) (w : σ) :
    (repair (Recorded.sources src) r (Recorded.writer output)).Ensures { world := { world := w } }
      (fun report b => Copies content src.primary.entries b.world.calls ∧
        report.summary.entries = src.primary.entries.length)
      (fun _ _ => True) := by
  refine (ensures_repair (I := Transcribed src content) ?_
    ⟨Cache.holds_empty, ⟨rfl, fun _ _ h => by simp at h⟩, rfl⟩).mono (fun _ _ h =>
      ⟨h.calls, h.count⟩)
    fun _ _ => id
  intro done e rest s b hentries h
  refine h.ensures_repairEntry hserves ?_
  rw [show src.primary.entries = done ++ e :: rest from hentries]
  exact List.mem_append_right done List.mem_cons_self

/-- A repair of what serves all its files calls the writer, if it ends well, once for each entry and
in their order: so with nothing that only the fallback lists. Files that are no classes are handed
on unchanged, and classes as bytes that can be read. If it fails, it is not because it lost a
class. -/
theorem repair_copies {primary : Reader σ} {fallback : Option (Reader σ)}
    (hserves : primary.Serves content) (r : ClassFile.Resolver) (output : Writer σ) (w : σ)
    (notes : Array Log.Note) :
    let src : Sources σ := { primary, fallback }
    let run := repair (Recorded.sources src) r (Recorded.writer output)
      { state := { world := { world := w } }, notes }
    let calls := run.2.state.world.calls
    repair src r output { state := { world := w }, notes } =
        (run.1, { state := run.2.state.map Recorded.world, notes := run.2.notes }) ∧
      (∀ report, run.1 = .ok report →
        calls.map Call.entry = primary.entries ∧
        (∀ p data, .file p data ∈ calls → p.isClass = false → data = content p) ∧
        (∀ p data, .file p data ∈ calls → p.isClass = true → ∃ c, decode data = .ok c) ∧
        report.summary.directories + report.summary.resources + report.summary.classes =
          primary.entries.length) ∧
      (primary.Consistent → (∀ reader ∈ fallback, reader.Consistent) → output.Consistent →
        r.Consistent → ∀ e, run.1 = .error e → e.kind ≠ .internal) := by
  intro src run calls
  have hmirrors : repair src r output { state := { world := w }, notes } =
      (run.1, { state := run.2.state.map Recorded.world, notes := run.2.notes }) :=
    mirrors_repair (Recorded.mirrors_sources src) (Recorded.mirrors_writer output) r
      { world := { world := w } } notes
  refine ⟨hmirrors, ?_, ?_⟩
  · intro report hreport
    have hrun : repair (Recorded.sources src) r (Recorded.writer output)
        { state := { world := { world := w } }, notes } = (.ok report, run.2) :=
          Prod.ext hreport rfl
    obtain ⟨⟨hentries, hhanded⟩, hcount⟩ := (ensures_repair_copies hserves w).of_ok hrun
    refine ⟨hentries, fun p data hcall hp => ?_, fun p data hcall hp => ?_, hcount⟩
    · have hdata := hhanded p data hcall
      rwa [Handed, hp] at hdata
    · have hdata := hhanded p data hcall
      rwa [Handed, if_pos hp] at hdata
  · intro hprimary hfallback houtput hr e he
    have hsrc : src.Consistent := by
      rintro reader (rfl | hreader)
      · exact hprimary
      · exact hfallback reader hreader
    have hends := ensures_repair_consistent hserves hsrc hr houtput w notes
    rw [hmirrors, he] at hends
    exact hends

/-- A class whose file is cut short. -/
def brokenClass : Archive.Memory where
  files := (∅ : Std.TreeMap Path Bytes).insert "A.class" [0xca, 0xfe]

theorem repair_copies_twoClasses :
    (∃ report s', repair (Recorded.sources { primary := twoClasses.reader [] }) .bridge
        (Recorded.writer Archive.Collected.writer) { state := { world := { world := {} } } } =
          (.ok report, s') ∧
      s'.state.world.calls.map Call.entry = twoClasses.entries ∧
      .file "n" "text" ∈ s'.state.world.calls) ∧
    ∃ e s', repair { primary := brokenClass.reader [] } .bridge Archive.Collected.writer
      { state := { world := {} } } = (.error e, s') ∧ e.kind ≠ .internal := by
  constructor
  · have hrun : ((repair (Recorded.sources { primary := twoClasses.reader [] }) .bridge
          (Recorded.writer Archive.Collected.writer)
          { state := { world := { world := {} } } }).1.toOption.isSome,
        (repair (Recorded.sources { primary := twoClasses.reader [] }) .bridge
          (Recorded.writer Archive.Collected.writer)
          { state := { world := { world := {} } } }).2.state.world.calls.contains
            (.file "n" "text")) = (true, true) := by
      rw [reader_twoClasses]
      decide +kernel
    obtain ⟨-, hok, -⟩ := @repair_copies _ _ (twoClasses.reader []) none
      Archive.Memory.serves_reader .bridge Archive.Collected.writer {} #[]
    generalize repair (Recorded.sources { primary := twoClasses.reader [] }) .bridge
      (Recorded.writer Archive.Collected.writer) { state := { world := { world := {} } } } = run
      at hrun hok
    obtain ⟨e | report, s'⟩ := run
    · simp [Except.toOption] at hrun
    · exact ⟨report, s', rfl, (hok report rfl).1, List.contains_iff_mem.mp (Prod.mk.inj hrun).2⟩
  · have hrun : (repair { primary := brokenClass.reader [] } .bridge Archive.Collected.writer
        { state := { world := {} } }).1.toOption.isSome = false := by
      decide +kernel
    obtain ⟨hsame, -, herror⟩ := @repair_copies _ _ (brokenClass.reader []) none
      Archive.Memory.serves_reader .bridge Archive.Collected.writer {} #[]
    have hkind := herror Archive.Memory.consistent_reader
      (by simp) Archive.Collected.consistent_writer
      ClassFile.Resolver.consistent_bridge
    rw [hsame] at hrun ⊢
    cases hx : (repair (Recorded.sources { primary := brokenClass.reader [] }) .bridge
      (Recorded.writer Archive.Collected.writer) { state := { world := { world := {} } } }).1 with
    | ok report => simp [hx, Except.toOption] at hrun
    | error e => exact ⟨e, _, rfl, hkind e hx⟩

end Repair

end JarRepair

import Mathlib.Data.List.Nodup
import Mathlib.Tactic.Choose
import JarRepair.Archive.Memory
import JarRepair.Proofs.Task

/-! # What containers hold

Readers and writers are described by what they serve and by what they have taken. The containers in
memory are as described. -/

namespace JarRepair.Archive

open JarRepair.Task

variable {σ : Type}

/-! ## Entries -/

/-- A file that is listed once has not been gone through before. -/
theorem Entry.not_mem_of_listed_once {done rest : List Entry} {e : Entry}
    (h : ((done ++ e :: rest).filter (!·.isDirectory)).Nodup) (hkind : e.kind = .file) :
    e ∉ done := by
  intro hmem
  have he : (!e.isDirectory) = true := by simp [Entry.isDirectory, hkind]
  rw [List.filter_append, List.filter_cons, if_pos he, List.nodup_append] at h
  exact h.2.2 e (List.mem_filter.mpr ⟨hmem, he⟩) e List.mem_cons_self rfl

/-! ## Readers -/

namespace Reader

/-- A container has every file that it lists, always with the same content. -/
structure Serves (reader : Reader σ) (content : Path → Bytes) : Prop where
  contains : ∀ e ∈ reader.entries, e.kind = .file → reader.contains e.path = true
  read : ∀ e ∈ reader.entries, e.kind = .file → ∀ w,
    (reader.read e.path).Ensures w (fun data _ => data = content e.path) (fun _ _ => False)

/-- Fetching a file changes nothing that has been written. -/
def Spares (reader : Reader σ) (written : σ → Path → Option Bytes) : Prop :=
  ∀ p w, (reader.read p).Ensures w (fun _ w' => written w' = written w)
    (fun _ w' => written w' = written w)

/-- Fetching a file gives this content and changes nothing. -/
def Gives (reader : Reader σ) (p : Path) (data : Bytes) : Prop :=
  ∀ w, (reader.read p).Ensures w (fun data' w' => data' = data ∧ w' = w) (fun _ _ => False)

/-- A container has exactly the files that it lists, and serves them. -/
structure Exact (reader : Reader σ) : Prop where
  contains_iff : ∀ p, reader.contains p = true ↔ { path := p, kind := .file } ∈ reader.entries
  gives : ∀ p, reader.contains p = true → ∃ data, reader.Gives p data

/-- Each fetch has one outcome, whenever it is made, and changes nothing. -/
def Steady (reader : Reader σ) : Prop :=
  ∀ p, ∃ answer : Except Error Bytes, ∀ w, (reader.read p).Ensures w
    (fun data w' => answer = .ok data ∧ w' = w) (fun e w' => answer = .error e ∧ w' = w)

/-- A container lists and serves these files and directories, each once and no others. -/
structure MadeOf (reader : Reader σ) (files : Std.TreeMap Path Bytes) (directories : List Path) :
    Prop where
  entries : reader.entries.Perm (files.keys.map (fun path => { path, kind := .file }) ++
    directories.map fun path => { path, kind := .directory })
  contains : ∀ p, reader.contains p = files.contains p
  gives : ∀ p data, files[p]? = some data → reader.Gives p data

/-- What a container has for each path: nothing, a file that cannot be fetched, or its content. -/
structure Shows (reader : Reader σ) (look : Path → Option (Option Bytes)) : Prop where
  contains : ∀ p, reader.contains p = (look p).isSome
  read : ∀ p x, look p = some x → ∀ w, (reader.read p).Ensures w
    (fun data w' => x = some data ∧ w' = w) (fun _ w' => x = none ∧ w' = w)

variable {reader : Reader σ}

theorem shows_of_gives {content : Path → Option Bytes}
    (hcontains : ∀ p, reader.contains p = (content p).isSome)
    (hgives : ∀ p data, content p = some data → reader.Gives p data) :
    reader.Shows fun p => (content p).map some where
  contains p := by rw [hcontains, Option.isSome_map]
  read p x hx w := by
    obtain ⟨data, hdata, rfl⟩ := Option.map_eq_some_iff.mp hx
    refine (hgives p data hdata w).mono ?_ fun _ _ => False.elim
    rintro _ _ ⟨rfl, rfl⟩
    exact ⟨rfl, rfl⟩

theorem Exact.exists_shows (h : reader.Exact) :
    ∃ content : Path → Option Bytes, reader.Shows fun p => (content p).map some := by
  have hcontent (p : Path) : ∃ x : Option Bytes, reader.contains p = x.isSome ∧
      ∀ data, x = some data → reader.Gives p data := by
    cases hp : reader.contains p with
    | false => exact ⟨none, rfl, by simp⟩
    | true =>
      obtain ⟨data, hdata⟩ := h.gives p hp
      refine ⟨some data, rfl, ?_⟩
      rintro _ ⟨⟩
      exact hdata
  choose content hcontains hgives using hcontent
  exact ⟨content, shows_of_gives hcontains hgives⟩

theorem Steady.exists_shows (h : reader.Steady) :
    ∃ look : Path → Option (Option Bytes), reader.Shows look := by
  choose answer hanswer using h
  refine ⟨fun p => if reader.contains p then some (answer p).toOption else none, ?_, ?_⟩
  · intro p
    split
    · rename_i hp
      exact hp
    · rename_i hp
      exact eq_false_of_ne_true hp
  · intro p x hx w
    split at hx
    · obtain rfl := Option.some.inj hx
      refine (hanswer p w).mono ?_ ?_
      · rintro data w' ⟨hdata, rfl⟩
        rw [hdata]
        exact ⟨rfl, rfl⟩
      · rintro e w' ⟨herror, rfl⟩
        rw [herror]
        exact ⟨rfl, rfl⟩
    · simp at hx

theorem MadeOf.shows {files : Std.TreeMap Path Bytes} {directories : List Path}
    (h : reader.MadeOf files directories) : reader.Shows fun p => files[p]?.map some :=
  shows_of_gives (fun p => by rw [h.contains, Std.TreeMap.contains_eq_isSome_getElem?]) h.gives

namespace MadeOf

variable {files : Std.TreeMap Path Bytes} {directories : List Path}

theorem mem_entries_iff (h : reader.MadeOf files directories) {p : Path} :
    { path := p, kind := .file } ∈ reader.entries ↔ files.contains p = true := by
  rw [h.entries.mem_iff, ← Std.TreeMap.contains_keys, List.contains_iff_mem]
  simp

theorem directories_perm (h : reader.MadeOf files directories) :
    ((reader.entries.filter (·.isDirectory)).map (·.path)).Perm directories := by
  have hperm := (h.entries.filter (·.isDirectory)).map (·.path)
  have hfiles : (files.keys.map fun path => { path, kind := .file : Entry }).filter
      (·.isDirectory) = [] := by
    rw [List.filter_eq_nil_iff]
    simp [Entry.isDirectory]
  have hdirectories : ((directories.map fun path => { path, kind := .directory : Entry }).filter
      (·.isDirectory)).map (·.path) = directories := by
    rw [List.filter_map, List.map_map]
    simp [Function.comp_def, Entry.isDirectory]
  rwa [List.filter_append, hfiles, List.nil_append, hdirectories] at hperm

/-- No file is listed twice. -/
theorem not_mem_of_entries_eq (h : reader.MadeOf files directories) {p : Path}
    {done rest : List Entry}
    (hentries : reader.entries = done ++ { path := p, kind := .file } :: rest) :
    { path := p, kind := .file } ∉ done := by
  have hdirectories : (directories.map fun path => { path, kind := .directory : Entry }).filter
      (!·.isDirectory) = [] := by
    rw [List.filter_eq_nil_iff]
    simp [Entry.isDirectory]
  have hnodup : (reader.entries.filter (!·.isDirectory)).Nodup := by
    rw [(h.entries.filter _).nodup_iff, List.filter_append, hdirectories, List.append_nil]
    have hinjective : Function.Injective fun path => ({ path, kind := .file } : Entry) :=
      fun _ _ heq => congrArg Entry.path heq
    exact (List.Nodup.map hinjective Std.TreeMap.nodup_keys).filter _
  rw [hentries] at hnodup
  exact Entry.not_mem_of_listed_once hnodup rfl

end MadeOf

end Reader

/-! ## Writers -/

/-- What has been written for a path is what was last added for it. -/
structure Writer.Records (output : Writer σ) (written : σ → Path → Option Bytes) : Prop where
  addDirectory : ∀ p w, (output.addDirectory p).Ensures w
    (fun _ w' => written w' = written w) fun _ _ => True
  addFile : ∀ p data w, (output.addFile p data).Ensures w
    (fun _ w' => ∀ q, written w' q = if p = q then some data else written w q) fun _ _ => True

/-! ## Containers in memory -/

namespace Collected

variable {c : Collected} {p : Path} {data : Bytes}

theorem ensures_addDirectory {Q : Unit → Collected → Prop} {E : Error → Collected → Prop}
    (hfinished : c.finished = true → E alreadyFinished c)
    (hopen : c.finished = false →
      Q () { c with order := c.order.push p, directories := c.directories.push p }) :
    (writer.addDirectory p).Ensures c Q E := by
  show (ofStep (addDirectory p)).Ensures c Q E
  refine ensures_ofStep.mpr ?_
  rw [addDirectory]
  by_cases hc : c.finished = true
  · rw [if_pos hc]
    exact hfinished hc
  · rw [if_neg hc]
    exact hopen (eq_false_of_ne_true hc)

theorem ensures_addFile {Q : Unit → Collected → Prop} {E : Error → Collected → Prop}
    (hfinished : c.finished = true → E alreadyFinished c)
    (htwice : c.finished = false → c.files.contains p = true → E (writtenTwice p) c)
    (hopen : c.finished = false → c.files.contains p = false →
      Q () { c with order := c.order.push p, files := c.files.insert p data }) :
    (writer.addFile p data).Ensures c Q E := by
  show (ofStep (addFile p data)).Ensures c Q E
  refine ensures_ofStep.mpr ?_
  rw [addFile]
  by_cases hc : c.finished = true
  · rw [if_pos hc]
    exact hfinished hc
  · rw [if_neg hc]
    by_cases hp : c.files.contains p = true
    · rw [if_pos hp]
      exact htwice (eq_false_of_ne_true hc) hp
    · rw [if_neg hp]
      exact hopen (eq_false_of_ne_true hc) (eq_false_of_ne_true hp)

theorem getElem?_insert {files : Std.TreeMap Path Bytes} {q : Path} :
    (files.insert p data)[q]? = if p = q then some data else files[q]? := by
  rw [Std.TreeMap.getElem?_insert]
  simp

/-- The writer has taken these entries, and the content of each file is as required. -/
structure Copies (R : Path → Bytes → Prop) (done : List Entry) (c : Collected) : Prop where
  finished : c.finished = false
  listed : ∀ p, c.files.contains p = true ↔ { path := p, kind := .file } ∈ done
  content : ∀ p data, c.files[p]? = some data → R p data
  directories : c.directories.toList = (done.filter (·.isDirectory)).map (·.path)

variable {R : Path → Bytes → Prop} {done : List Entry}

theorem copies_empty : Copies R [] {} where
  finished := rfl
  listed p := by simp
  content p data h := by simp at h
  directories := rfl

theorem Copies.ensures_addDirectory (h : Copies R done c) {E : Error → Collected → Prop} :
    (writer.addDirectory p).Ensures c
      (fun _ => Copies R (done ++ [{ path := p, kind := .directory }])) E := by
  refine Collected.ensures_addDirectory (fun hfinished => ?_) fun hopen => ?_
  · rw [h.finished] at hfinished
    simp at hfinished
  · refine ⟨hopen, fun q => ?_, h.content, ?_⟩
    · rw [h.listed, List.mem_append, List.mem_singleton]
      simp
    · rw [Array.toList_push, h.directories, List.filter_append, List.map_append]
      rfl

/-- A file that has not been written is written. -/
theorem Copies.ensures_addFile (h : Copies R done c) (hdata : R p data)
    {E : Error → Collected → Prop}
    (htwice : { path := p, kind := .file } ∈ done → E (writtenTwice p) c) :
    (writer.addFile p data).Ensures c (fun _ => Copies R (done ++ [{ path := p, kind := .file }]))
      E := by
  refine Collected.ensures_addFile (fun hfinished => ?_) (fun _ hp => htwice ((h.listed p).mp hp))
    fun hopen _ => ?_
  · rw [h.finished] at hfinished
    simp at hfinished
  · refine ⟨hopen, fun q => ?_, fun q data' hq => ?_, ?_⟩
    · rw [List.mem_append, List.mem_singleton, ← h.listed, Std.TreeMap.contains_insert,
        Bool.or_eq_true, or_comm, beq_iff_eq, Std.LawfulEqCmp.compare_eq_iff_eq, eq_comm (a := p)]
      simp
    · rw [getElem?_insert] at hq
      split at hq
      · rename_i hpq
        rw [← hpq, ← Option.some.inj hq]
        exact hdata
      · exact h.content q data' hq
    · rw [List.filter_append, List.map_append, h.directories]
      exact (List.append_nil _).symm

/-- A file that has been written is refused. -/
theorem Copies.ensures_addFile_twice (h : Copies R done c)
    (hp : { path := p, kind := .file } ∈ done) {Q : Unit → Collected → Prop}
    {E : Error → Collected → Prop} (hE : E (writtenTwice p) c) :
    (writer.addFile p data).Ensures c Q E := by
  refine Collected.ensures_addFile (fun hfinished => ?_) (fun _ _ => hE) fun _ hnot => ?_
  · rw [h.finished] at hfinished
    simp at hfinished
  · rw [(h.listed p).mpr hp] at hnot
    simp at hnot

/-- Writers that have taken the same entries, each file with the only content it can have, are
alike. -/
theorem Copies.alike {c' : Collected} {done' : List Entry} (h : Copies R done c)
    (h' : Copies R done' c') (hR : ∀ p data data', R p data → R p data' → data = data')
    (hdone : done'.Perm done) :
    (∀ p : Path, c'.files[p]? = c.files[p]?) ∧ c'.directories.toList.Perm c.directories.toList := by
  refine ⟨fun p => ?_, ?_⟩
  · have hlisted : c'.files.contains p = c.files.contains p := by
      rw [Bool.eq_iff_iff, h.listed, h'.listed, hdone.mem_iff]
    simp only [Std.TreeMap.contains_eq_isSome_getElem?] at hlisted
    cases hp : c.files[p]? with
    | none =>
      rwa [hp, Option.isSome_none, Option.isSome_eq_false_iff, Option.isNone_iff_eq_none] at hlisted
    | some data =>
      rw [hp, Option.isSome_some, Option.isSome_iff_exists] at hlisted
      obtain ⟨data', hp'⟩ := hlisted
      rw [hp', hR p data data' (h.content p data hp) (h'.content p data' hp')]
  · rw [h.directories, h'.directories]
    exact (hdone.filter _).map _

/-- A writer that has taken what a container is made of has the same files and directories. -/
theorem Copies.eq_of_madeOf {reader : Reader σ} {files : Std.TreeMap Path Bytes}
    {directories : List Path} (hreader : reader.MadeOf files directories)
    (h : c.Copies (fun p data => (files[p]? : Option Bytes) = some data) reader.entries) :
    (∀ p : Path, c.files[p]? = files[p]?) ∧ c.directories.toList.Perm directories := by
  refine ⟨fun p => ?_, ?_⟩
  · cases hp : c.files[p]? with
    | some data => exact (h.content p data hp).symm
    | none =>
      have hnot : ¬ files.contains p = true := by
        rw [← hreader.mem_entries_iff, ← h.listed, Std.TreeMap.contains_eq_isSome_getElem?, hp]
        simp
      rw [Std.TreeMap.contains_eq_isSome_getElem?, Option.not_isSome_iff_eq_none] at hnot
      exact hnot.symm
  · rw [h.directories]
    exact hreader.directories_perm

theorem records_writer : writer.Records fun c p => c.files[p]? where
  addDirectory _ _ := ensures_addDirectory (fun _ => trivial) fun _ => rfl
  addFile _ _ _ :=
    ensures_addFile (fun _ => trivial) (fun _ _ => trivial) fun _ _ _ => getElem?_insert

end Collected

namespace Memory

variable {m : Memory} {location : Bytes}

theorem gives_reader {p : Path} {data : Bytes} (h : m.files[p]? = some data) :
    (m.reader location : Reader σ).Gives p data := by
  intro w
  simp only [reader, h]
  exact ensures_pure.mpr ⟨rfl, rfl⟩

theorem contains_reader (p : Path) :
    (m.reader location : Reader σ).contains p = m.files.contains p := by
  rw [Reader.contains, reader, Std.TreeSet.contains_ofList, Std.TreeMap.contains_keys]

theorem spares_reader (written : σ → Path → Option Bytes) :
    (m.reader location : Reader σ).Spares written := by
  intro p w
  simp only [reader]
  split
  · exact ensures_pure.mpr rfl
  · exact ensures_throw.mpr rfl

/-- Listing adds directories only. -/
theorem mem_entries_iff {p : Path} :
    { path := p, kind := .file } ∈ m.entries ↔ m.files.contains p = true := by
  rw [entries, Entry.complete, Entry.sort, List.mem_mergeSort, ← Std.TreeMap.contains_keys,
    List.contains_iff_mem]
  simp

theorem serves_reader :
    (m.reader location : Reader σ).Serves fun p => m.files[p]?.getD [] where
  contains e he hkind := by
    obtain ⟨p, kind⟩ := e
    obtain rfl : kind = .file := hkind
    rw [contains_reader]
    exact mem_entries_iff.mp he
  read e he hkind w := by
    obtain ⟨p, kind⟩ := e
    obtain rfl : kind = .file := hkind
    have hp := mem_entries_iff.mp he
    rw [Std.TreeMap.contains_eq_isSome_getElem?] at hp
    obtain ⟨data, hdata⟩ := Option.isSome_iff_exists.mp hp
    refine (gives_reader hdata w).mono ?_ fun _ _ => id
    rintro _ _ ⟨rfl, -⟩
    rw [hdata, Option.getD_some]

theorem exact_reader : (m.reader location : Reader σ).Exact where
  contains_iff p := by
    rw [contains_reader]
    exact mem_entries_iff.symm
  gives p hp := by
    rw [contains_reader, Std.TreeMap.contains_eq_isSome_getElem?] at hp
    obtain ⟨data, hdata⟩ := Option.isSome_iff_exists.mp hp
    exact ⟨data, gives_reader hdata⟩

theorem steady_reader : (m.reader location : Reader σ).Steady := by
  intro p
  cases hp : m.files[p]? with
  | some data =>
    refine ⟨.ok data, fun w => (gives_reader hp w).mono ?_ fun _ _ => False.elim⟩
    rintro _ _ ⟨rfl, rfl⟩
    exact ⟨rfl, rfl⟩
  | none =>
    refine ⟨.error (notListed location p), fun w => ?_⟩
    simp only [reader, hp]
    exact ensures_throw.mpr ⟨rfl, rfl⟩

end Memory

/-- All parent directories have been written. -/
def Collected.Complete (c : Collected) : Prop :=
  Entry.missingDirectories (c.files.keys.map (fun path => { path, kind := .file }) ++
    c.directories.toList.map fun path => { path, kind := .directory }) = []

instance (c : Collected) : Decidable c.Complete := inferInstanceAs (Decidable (_ = _))

/-- What was written is served as it was. -/
theorem Collected.Complete.madeOf_reader {c : Collected} {location : Bytes} (h : c.Complete) :
    (c.toMemory.reader location : Reader σ).MadeOf c.files c.directories.toList where
  entries := by
    show (Entry.complete _).Perm _
    rw [Entry.complete, toMemory, h, List.map_nil, List.append_nil]
    exact List.mergeSort_perm _ _
  contains := Memory.contains_reader
  gives _ _ h := Memory.gives_reader h

end JarRepair.Archive

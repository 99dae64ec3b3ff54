import JarRepair.Proofs.Repair.Blame
import JarRepair.Proofs.Repair.Order

/-! # The first failure ends a run

What an entry makes the writer take depends on the containers and on what the writer has taken, not
on the classes that were looked up before. So a run that fails has written just what a run over the
entries before the failure writes, and each entry can be told to succeed or to fail from itself. -/

namespace JarRepair.Repair

open JarRepair.Task
open Archive (Collected Entry Memory Path Reader alreadyFinished writtenTwice)
open ClassFile (Resolver)
open Zip (Call)

variable {look : Path → Option (Option Bytes)} {fetch : Path → Except Error Bytes} {r : Resolver}

/-! ## What the writer takes -/

/-- What a writer in memory has after a call that it accepts. -/
def took (w : Collected) : Call → Collected
  | .directory p => { w with order := w.order.push p, directories := w.directories.push p }
  | .file p data => { w with order := w.order.push p, files := w.files.insert p data }

/-- The writer takes an entry: a directory, or a file that it does not have, with its content. -/
inductive Takes (look : Path → Option (Option Bytes)) (fetch : Path → Except Error Bytes)
    (r : Resolver) :
    Entry → Collected → Collected → Prop
  | directory {p : Path} {w : Collected} (hopen : w.finished = false) :
    Takes look fetch r ⟨p, .directory⟩ w (took w (.directory p))
  | file {p : Path} {data : Bytes} {w : Collected} (hopen : w.finished = false)
    (hnew : w.files.contains p = false) (hdata : Content look fetch r p data) :
    Takes look fetch r ⟨p, .file⟩ w (took w (.file p data))

/-- The writer takes these entries one after the other. -/
def Taken (look : Path → Option (Option Bytes)) (fetch : Path → Except Error Bytes) (r : Resolver) :
    List Entry → Collected → Collected → Prop
  | [], w, w' => w' = w
  | e :: entries, w, w' => ∃ w₁, Takes look fetch r e w w₁ ∧ Taken look fetch r entries w₁ w'

section

variable {e : Entry} {done entries : List Entry} {w w' w'' : Collected} {p : Path}

theorem Takes.unique (h : Takes look fetch r e w w') (h' : Takes look fetch r e w w'') :
    w' = w'' := by
  cases h with
  | directory => cases h' with | directory => rfl
  | file _ _ hdata => cases h' with | file _ _ hdata' => rw [hdata.unique hdata']

theorem Takes.not_contains (h : Takes look fetch r ⟨p, .file⟩ w w') :
    w.files.contains p = false := by
  cases h with
  | file _ hnew => exact hnew

theorem Takes.exists_content (h : Takes look fetch r ⟨p, .file⟩ w w') :
    ∃ data, Content look fetch r p data := by
  cases h with
  | file _ _ hdata => exact ⟨_, hdata⟩

theorem Takes.isOpen (h : Takes look fetch r e w w') : w.finished = false := by
  cases h with
  | directory hopen => exact hopen
  | file hopen => exact hopen

theorem Takes.contains_iff (h : Takes look fetch r e w w') :
    w'.files.contains p = true ↔ w.files.contains p = true ∨ e = ⟨p, .file⟩ := by
  cases h with
  | directory => simp [took]
  | file =>
    rw [took, Std.TreeMap.contains_insert, Bool.or_eq_true, or_comm, beq_iff_eq,
      Std.LawfulEqCmp.compare_eq_iff_eq]
    simp

theorem Taken.unique (h : Taken look fetch r entries w w') (h' : Taken look fetch r entries w w'') :
    w' = w'' := by
  induction entries generalizing w with
  | nil => exact h.trans h'.symm
  | cons e entries ih =>
    obtain ⟨w₁, he, hentries⟩ := h
    obtain ⟨w₂, he', hentries'⟩ := h'
    obtain rfl := he.unique he'
    exact ih hentries hentries'

/-- The writer has the files that it had, and those among the entries. -/
theorem Taken.contains_iff (h : Taken look fetch r entries w w') :
    w'.files.contains p = true ↔ w.files.contains p = true ∨ ⟨p, .file⟩ ∈ entries := by
  induction entries generalizing w with
  | nil =>
    obtain rfl : w' = w := h
    simp
  | cons e entries ih =>
    obtain ⟨w₁, he, hentries⟩ := h
    rw [ih hentries, he.contains_iff, List.mem_cons, or_assoc, eq_comm (a := e)]

/-- The writer has accepted one call for each entry, in their order, and no other. -/
theorem Taken.exists_calls (h : Taken look fetch r entries w w') :
    ∃ calls : List Call, calls.map Call.entry = entries ∧ w' = calls.foldl took w := by
  induction entries generalizing w with
  | nil => exact ⟨[], rfl, h⟩
  | cons e entries ih =>
    obtain ⟨w₁, he, hentries⟩ := h
    obtain ⟨calls, hcalls, hw'⟩ := ih hentries
    cases he with
    | @directory p => exact ⟨.directory p :: calls, congrArg (_ :: ·) hcalls, hw'⟩
    | @file p data => exact ⟨.file p data :: calls, congrArg (_ :: ·) hcalls, hw'⟩

theorem taken_append_iff : Taken look fetch r (done ++ entries) w w' ↔
    ∃ w₁, Taken look fetch r done w w₁ ∧ Taken look fetch r entries w₁ w' := by
  induction done generalizing w with
  | nil => simp [Taken]
  | cons e done ih =>
    simp only [List.cons_append, Taken, ih]
    exact ⟨fun ⟨w₁, he, w₂, hdone, hentries⟩ => ⟨w₂, ⟨w₁, he, hdone⟩, hentries⟩,
      fun ⟨w₂, ⟨w₁, he, hdone⟩, hentries⟩ => ⟨w₁, he, w₂, hdone, hentries⟩⟩

theorem taken_singleton_iff : Taken look fetch r [e] w w' ↔ Takes look fetch r e w w' := by
  simp [Taken]

end

/-! ## Errors of an entry -/

variable {src : Sources Collected}

/-- The writer refuses a file. -/
def Refuses (w : Collected) (p : Path) (err : Error) : Prop :=
  ∃ data err', Collected.addFile p data w = (.error err', w) ∧ err = err'.withEntry p

/-- The error of an entry that the writer does not take. -/
structure Blame (src : Sources Collected) (look : Path → Option (Option Bytes)) (e : Entry)
    (w : Collected) (err : Error) : Prop where
  /-- It tells of the entry, or of the class file of an ancestor that cannot be read. -/
  entry : err.entry = e.path ∨ ∃ c ancestor, e.kind = .file ∧ e.path.isClass = true ∧
    answer look e.path.className = some (some c) ∧ Reaches (kinOf look) c ancestor ∧
    Unreadable look ancestor ∧ err.entry = Path.ofClass ancestor
  /-- It tells of the class, unless the class was repaired and the writer refuses it. -/
  className : e.kind = .file → e.path.isClass = true →
    (∀ c, answer look e.path.className = some (some c) → c.name ≠ []) →
      err.className ≠ [] ∨ Refuses w e.path err
  kind : err.kind = .internal ↔ e.kind = .file ∧ e.path.isClass = true ∧
    src.primary.contains e.path = false ∧ ∀ reader ∈ src.fallback, reader.contains e.path = false

section

variable {e : Entry} {p : Path} {w : Collected} {err : Error}

theorem blame_of_entry (hkind : err.kind ≠ .internal) (hentry : err.entry = [] ∨ err.entry = e.path)
    (hclass : e.kind = .file → e.path.isClass = true →
      src.holder? e.path ≠ none ∧ Refuses w e.path (err.withEntry e.path)) :
    Blame src look e w (err.withEntry e.path) where
  entry := .inl (Error.entry_withEntry hentry)
  className hfile hpath _ := .inr (hclass hfile hpath).2
  kind := by
    rw [Error.kind_withEntry]
    refine iff_of_false hkind fun ⟨hfile, hpath, hnone⟩ => (hclass hfile hpath).1 ?_
    exact Sources.holder?_eq_none_iff.mpr hnone

theorem Faults.blame (h : Faults src look p.className err) (hpath : p.isClass = true) :
    Blame src look ⟨p, .file⟩ w (err.withEntry p) := by
  have hname := Path.ofClass_className hpath
  refine ⟨?_, fun _ _ hnamed => .inl ?_, ?_⟩
  · rcases h.entry with hnone | hown | ⟨c, ancestor, hanswer, hreaches, hunreadable, hentry⟩
    · exact .inl (Error.entry_withEntry (.inl hnone))
    · exact .inl (Error.entry_withEntry (.inr (hname ▸ hown)))
    · refine .inr ⟨c, ancestor, rfl, hpath, hanswer, hreaches, hunreadable, ?_⟩
      rw [Error.entry_withEntry_of_ne, hentry]
      rw [hentry]
      exact Path.ofClass_ne_nil ancestor
  · rw [Error.className_withEntry]
    exact h.className hnamed
  · rw [Error.kind_withEntry, h.kind, hname, Sources.holder?_eq_none_iff]
    simp [hpath]

/-- A file is taken, or it is refused and there is nothing that the writer would take. -/
theorem ensures_addFile_takes {data : Bytes}
    (hdata : w.files.contains p = false → Content look fetch r p data) :
    (Collected.writer.addFile p data).Ensures w
      (fun _ w' => Takes look fetch r ⟨p, .file⟩ w w' ∧ w.files.contains p = false)
      (fun err w' => w' = w ∧ (¬ ∃ w'', Takes look fetch r ⟨p, .file⟩ w w'') ∧
        err.kind ≠ .internal ∧ (err.entry = [] ∨ err.entry = p) ∧
        Refuses w p (err.withEntry p)) := by
  refine Collected.ensures_addFile ?_ ?_ ?_
  · intro hfinished
    refine ⟨rfl, ?_, by simp [alreadyFinished, Error.io], .inl rfl, data, alreadyFinished, ?_, rfl⟩
    · rintro ⟨_, htakes⟩
      simp [htakes.isOpen] at hfinished
    · rw [Collected.addFile, if_pos hfinished]
  · intro hopen htwice
    refine ⟨rfl, ?_, by simp [writtenTwice, Error.io], .inr rfl, data, writtenTwice p, ?_, rfl⟩
    · rintro ⟨_, htakes⟩
      simp [htakes.not_contains] at htwice
    · rw [Collected.addFile, if_neg (by simp [hopen]), if_pos htwice]
  · intro hopen hnew
    exact ⟨.file hopen hnew (hdata hnew), hnew⟩

end

/-! ## Steps -/

section

variable {done : List Entry} {p : Path} {w : Collected} {b : Bench Collected}

/-- The class of an entry is repaired to the content of the entry, unless it was repaired before. -/
theorem ensures_repairClass_content (h : src.Shows look) (hsrc : src.Blames) (hr : r.Blames)
    (hpath : p.isClass = true) (hb : b.cache.Holds (Pending look done)) {asked : Multiset Bytes}
    (hasked : b.cache.Tallied look asked) (s : Summary) :
    (repairClass src r p.className s).Ensures b
      (fun x b' => b'.world = b.world ∧ src.holder? p ≠ none ∧ (⟨p, .file⟩ ∉ done →
        b'.cache.Holds (Pending look (done ++ [⟨p, .file⟩])) ∧
        (∃ asked, b'.cache.Tallied look asked) ∧
          Content look fetch r p x.1))
      (fun err b' => b'.world = b.world ∧ Faults src look p.className err ∧
        (⟨p, .file⟩ ∉ done → ¬ ∃ data, Content look fetch r p data)) := by
  have hmended : b.cache.Holds (Mended (Answered look)) :=
    fun name slot hslot => (hb name slot hslot).mended
  have hrepaired : (repairClass src r p.className s).Ensures b
      (fun _ b' => b'.world = b.world ∧ src.holder? p ≠ none) (fun _ _ => True) := by
    refine (ensures_repairClass_repaired (h.loads b.world) (fun _ _ => Answered.wellFormed)
      ⟨rfl, hmended⟩ p.className s).mono ?_ fun _ _ => id
    rintro x b' ⟨hb', c₀, -, hanswer, -⟩
    refine ⟨hb'.world, fun hnone => ?_⟩
    rw [← Path.ofClass_className hpath, ← h.answer_eq_absent_iff,
      ← show _ = answer look _ from hanswer] at hnone
    simp [Except.toOption] at hnone
  have hfaults := h.ensures_repairClass_faults hsrc hr (Path.className_ne_nil hpath) hmended s
  by_cases hnew : ⟨p, .file⟩ ∈ done
  · refine (hrepaired.and hfaults).mono ?_ ?_
    · rintro x b' ⟨⟨hworld, hholder⟩, -⟩
      exact ⟨hworld, hholder, absurd hnew⟩
    · rintro err b' ⟨-, hworld, hfault⟩
      exact ⟨hworld, hfault, absurd hnew⟩
  · have hshares :=
      @ensures_repairClass_shares look fetch r _ src done asked b h p hpath hnew hb hasked s
    refine ((hrepaired.and hfaults).and hshares).mono ?_ ?_
    · rintro x b' ⟨⟨⟨hworld, hholder⟩, -⟩, -, hpending, share, hshare, hdata, -, htallied⟩
      exact ⟨hworld, hholder, fun _ => ⟨hpending, ⟨_, htallied⟩, share, hshare, hdata⟩⟩
    · rintro err b' ⟨⟨-, hworld, hfault⟩, hnone⟩
      refine ⟨hworld, hfault, ?_⟩
      rintro - ⟨data, share, hshare, -⟩
      exact hnone ⟨share, hshare⟩

/-- The writer has taken the entries that are done, and the cache is as it should be. -/
structure Ran (look : Path → Option (Option Bytes)) (fetch : Path → Except Error Bytes)
    (r : Resolver) (w : Collected) (done : List Entry) (b : Bench Collected) : Prop where
  taken : Taken look fetch r done w b.world
  pending : b.cache.Holds (Pending look done)
  tallied : ∃ asked, b.cache.Tallied look asked

/-- The writer has taken nothing for an entry, and would not take it at all. -/
structure Halts (src : Sources Collected) (look : Path → Option (Option Bytes))
    (fetch : Path → Except Error Bytes) (r : Resolver) (e : Entry) (w : Collected) (err : Error)
    (b : Bench Collected) : Prop where
  world : b.world = w
  nothing : ¬ ∃ w', Takes look fetch r e w w'
  blame : Blame src look e w (err.withEntry e.path)

theorem ran_start (w : Collected) : Ran look fetch r w [] { world := w } where
  taken := rfl
  pending := Cache.holds_empty
  tallied := ⟨0, .empty look⟩

theorem Ran.add {w' : Collected} {e : Entry} {cache : Cache} (h : Ran look fetch r w done b)
    (htakes : Takes look fetch r e b.world w') (hpending : cache.Holds (Pending look (done ++ [e])))
    (htallied : ∃ asked, cache.Tallied look asked) :
    Ran look fetch r w (done ++ [e]) { world := w', cache } where
  taken := taken_append_iff.mpr ⟨b.world, h.taken, taken_singleton_iff.mpr htakes⟩
  pending := hpending
  tallied := htallied

/-- An entry that is no class leaves the cache as it was. -/
theorem Ran.add_other {w' : Collected} {e : Entry} (h : Ran look fetch r w done b)
    (htakes : Takes look fetch r e b.world w') :
    Ran look fetch r w (done ++ [e]) { b with world := w' } :=
  h.add htakes (fun name slot hslot => (h.pending name slot hslot).add _) h.tallied

theorem Ran.not_mem (h : Ran look fetch r w done b) (hp : b.world.files.contains p = false) :
    ⟨p, .file⟩ ∉ done := by
  intro hmem
  rw [h.taken.contains_iff.mpr (.inr hmem)] at hp
  simp at hp

variable (h : src.Shows look) (hsrc : src.Blames) (hr : r.Blames)
  (hfetch : ∀ p w, (src.primary.read p).Ensures w (fun data w' => fetch p = .ok data ∧ w' = w)
    (fun e w' => fetch p = .error e ∧ w' = w))
include h hsrc hr hfetch

/-- An entry is taken, or the run ends with its error and the writer has nothing more. -/
theorem Ran.ensures_repairEntry (hb : Ran look fetch r w done b) (e : Entry) (s : Summary) :
    (repairEntry src r Collected.writer s e).Ensures b (fun _ => Ran look fetch r w (done ++ [e]))
      (Halts src look fetch r e b.world) := by
  obtain ⟨p, kind⟩ := e
  refine Repair.ensures_repairEntry ?_ ?_ ?_
  · rintro ⟨⟩
    refine Collected.ensures_addDirectory ?_ fun hopen => hb.add_other (.directory hopen)
    intro hfinished
    refine ⟨rfl, ?_, blame_of_entry (by simp [alreadyFinished, Error.io]) (.inl rfl) nofun⟩
    rintro ⟨_, htakes⟩
    simp [htakes.isOpen] at hfinished
  · rintro ⟨⟩ hpath
    obtain ⟨asked, hasked⟩ := hb.tallied
    have hends :=
      @ensures_repairClass_content look fetch r src done p b h hsrc hr hpath hb.pending
        asked hasked s
    refine hends.mono ?_ ?_
    · rintro ⟨data, s'⟩ ⟨_, cache⟩ ⟨rfl, hholder, hcontent⟩
      refine (ensures_addFile_takes fun hp => (hcontent (hb.not_mem hp)).2.2).mono ?_ ?_
      · rintro _ w' ⟨htakes, hp⟩
        exact hb.add htakes (hcontent (hb.not_mem hp)).1 (hcontent (hb.not_mem hp)).2.1
      · rintro err _ ⟨rfl, hnone, hkind, hentry, hrefuses⟩
        exact ⟨rfl, hnone, blame_of_entry hkind hentry fun _ _ => ⟨hholder, hrefuses⟩⟩
    · rintro err b' ⟨hworld, hfault, hcontent⟩
      refine ⟨hworld, ?_, hfault.blame hpath⟩
      rintro ⟨_, htakes⟩
      exact hcontent (hb.not_mem htakes.not_contains) htakes.exists_content
  · rintro ⟨⟩ hpath
    have hblame {err : Error} (hkind : err.kind ≠ .internal)
        (hentry : err.entry = [] ∨ err.entry = p) :
        Blame src look ⟨p, .file⟩ b.world (err.withEntry p) :=
      blame_of_entry hkind hentry fun _ hclass =>
        absurd (hpath.symm.trans hclass) Bool.false_ne_true
    refine ((hfetch p b.world).and (hsrc src.primary (.inl rfl) p b.world)).mono ?_ ?_
    · rintro data w₁ ⟨⟨hdata, rfl⟩, -⟩
      have hcontent : Content look fetch r p data := ⟨_, .resource hpath hdata, rfl⟩
      refine (ensures_addFile_takes fun _ => hcontent).mono ?_ ?_
      · exact fun _ w' htakes => hb.add_other htakes.1
      · rintro err w' ⟨rfl, hnone, hkind, hentry, -⟩
        exact ⟨rfl, hnone, hblame hkind hentry⟩
    · rintro err w₁ ⟨⟨herror, rfl⟩, hkind, hentry⟩
      refine ⟨rfl, ?_, hblame hkind hentry⟩
      rintro ⟨_, htakes⟩
      obtain ⟨data, share, hshare, -⟩ := htakes.exists_content
      cases hshare with
      | resource _ hdata => simp [herror] at hdata
      | repaired hclass => simp [hpath] at hclass

/-- The writer takes all entries, or those before one that it does not take. -/
theorem ensures_repair_taken (w : Collected) :
    (repair src r Collected.writer).Ensures { world := w }
      (fun _ b => Taken look fetch r src.primary.entries w b.world)
      (fun err b => ∃ done e rest, src.primary.entries = done ++ e :: rest ∧
        Taken look fetch r done w b.world ∧ (¬ ∃ w', Takes look fetch r e b.world w') ∧
        Blame src look e b.world err) := by
  refine (ensures_repair_report (I := fun done _ => Ran look fetch r w done) ?_ (ran_start w)).mono
    ?_ fun _ _ => id
  · intro done e rest s b hentries hb
    refine (hb.ensures_repairEntry h hsrc hr hfetch e s).mono (fun _ _ => id) ?_
    rintro err b' ⟨hworld, hnothing, hblame⟩
    rw [← hworld] at hnothing hblame
    exact ⟨done, e, rest, hentries, hworld ▸ hb.taken, hnothing, hblame⟩
  · rintro _ b ⟨_, hb, -⟩
    exact hb.taken

end

/-! ## Cut listings -/

/-- The sources with these entries listed. The same files are found and fetched. -/
def Sources.only (src : Sources Collected) (entries : List Entry) : Sources Collected :=
  { src with primary.entries := entries }

/-- A run over these entries alone succeeds, and the writer becomes the other one. -/
def Writes (src : Sources Collected) (r : Resolver) (entries : List Entry) (w w' : Collected) :
    Prop :=
  (repair (src.only entries) r Collected.writer).Ensures { world := w } (fun _ b => b.world = w')
    fun _ _ => False

/-- A run over these entries alone fails. -/
def Fails (src : Sources Collected) (r : Resolver) (entries : List Entry) (w : Collected) : Prop :=
  (repair (src.only entries) r Collected.writer).Ensures { world := w } (fun _ _ => False)
    fun _ _ => True

theorem Sources.Shows.only (h : src.Shows look) (entries : List Entry) :
    (src.only entries).Shows look where
  missing p hnone := by
    have habsent := Sources.holder?_eq_none_iff.mp hnone
    exact h.missing p (Sources.holder?_eq_none_iff.mpr habsent)
  held p reader hholder := by
    by_cases hp : src.primary.contains p = true
    · have hread := h.held p src.primary (if_pos hp)
      obtain rfl := Option.some.inj ((if_pos hp).symm.trans hholder)
      exact hread
    · exact h.held p reader ((if_neg hp).trans ((if_neg hp).symm.trans hholder))

theorem Sources.Blames.only (h : src.Blames) (entries : List Entry) :
    (src.only entries).Blames := by
  rintro reader (rfl | hreader)
  · exact h src.primary (.inl rfl)
  · exact h reader (.inr hreader)

section

variable {entries : List Entry} {e : Entry} {w w' : Collected} (h : src.Shows look)
  (hsrc : src.Blames)
  (hr : r.Blames)
  (hfetch : ∀ p w, (src.primary.read p).Ensures w (fun data w' => fetch p = .ok data ∧ w' = w)
    (fun e w' => fetch p = .error e ∧ w' = w))
include h hsrc hr hfetch

theorem Taken.writes (htaken : Taken look fetch r entries w w') : Writes src r entries w w' := by
  refine (ensures_repair_taken (h.only entries) (hsrc.only entries) hr hfetch w).mono ?_ ?_
  · exact fun _ b htaken' => htaken'.unique htaken
  · rintro err b ⟨done, e, rest, hentries, hdone, hnothing, -⟩
    rw [show entries = done ++ e :: rest from hentries] at htaken
    obtain ⟨w₁, hdone', w₂, htakes, -⟩ := taken_append_iff.mp htaken
    obtain rfl := hdone.unique hdone'
    exact hnothing ⟨w₂, htakes⟩

theorem fails_of_not_takes (hnothing : ¬ ∃ w', Takes look fetch r e w w') : Fails src r [e] w := by
  refine (ensures_repair_taken (h.only [e]) (hsrc.only [e]) hr hfetch w).mono ?_
    fun _ _ _ => trivial
  exact fun _ b htaken => hnothing ⟨b.world, taken_singleton_iff.mp htaken⟩

end

/-! ## Runs that fail -/

/-- A run that fails at an entry. -/
structure FailsAt (src : Sources Collected) (look : Path → Option (Option Bytes)) (r : Resolver)
    (w w' : Collected) (done : List Entry) (e : Entry) (err : Error) : Prop where
  /-- The writer has accepted a call for each entry that is done, and no other. -/
  calls : ∃ calls : List Call, calls.map Call.entry = done ∧ w' = calls.foldl took w
  /-- A run over these entries alone writes the same. -/
  cut : Writes src r done w w'
  /-- Each of them can be written from itself. -/
  before : ∀ front x back, done = front ++ x :: back →
    ∃ w₁ w₂, Writes src r front w w₁ ∧ Writes src r [x] w₁ w₂
  /-- The next one cannot. -/
  fails : Fails src r [e] w'
  blame : Blame src look e w' err

/-- A run that fails has written the entries before the first one that cannot be written from
itself, and just as a run over these alone writes them. The error is that of this entry. -/
theorem exists_failsAt_of_repair (hprimary : src.primary.Steady) (h : src.Shows look)
    (hsrc : src.Blames) (hr : r.Blames) {w : Collected} {notes : Array Log.Note} {err : Error}
    {s' : Traced (Bench Collected)}
    (hrun : repair src r Collected.writer { state := { world := w }, notes } = (.error err, s')) :
    ∃ done e rest, src.primary.entries = done ++ e :: rest ∧
      FailsAt src look r w s'.state.world done e err := by
  choose fetch hfetch using hprimary
  have hends := ensures_repair_taken h hsrc hr hfetch w notes
  rw [hrun] at hends
  obtain ⟨done, e, rest, hentries, hdone, hnothing, hblame⟩ := hends
  refine ⟨done, e, rest, hentries, hdone.exists_calls, hdone.writes h hsrc hr hfetch, ?_,
    fails_of_not_takes h hsrc hr hfetch hnothing, hblame⟩
  rintro front x back rfl
  obtain ⟨w₁, hfront, w₂, htakes, -⟩ := taken_append_iff.mp hdone
  exact ⟨w₁, w₂, hfront.writes h hsrc hr hfetch,
    (taken_singleton_iff.mpr htakes).writes h hsrc hr hfetch⟩

/-- A file that is no class, a class, and its superclass, whose file is cut short. -/
def brokenParent : Memory where
  files :=
    (((∅ : Std.TreeMap Path Bytes).insert "A" "text").insert "B.class" (oneMethod "B" "C")).insert
    "C.class" [0xca, 0xfe]

theorem exists_failsAt_of_repair_brokenParent : ∃ look err s' done e rest,
    repair { primary := brokenParent.reader [] } .bridge Collected.writer
      { state := { world := {} } } = (.error err, s') ∧ err.entry = "C.class" ∧
      s'.state.world.order.toList = [("A" : Path)] ∧
    brokenParent.entries = done ++ e :: rest ∧
    FailsAt { primary := brokenParent.reader [] } look .bridge {} s'.state.world done e err := by
  have hreader : (brokenParent.reader [] : Reader Collected) =
      { (brokenParent.reader [] : Reader Collected) with
        entries := brokenParent.files.keys.map fun path => { path, kind := .file } } := by
    have hentries : brokenParent.entries = _ := List.mergeSort_of_pairwise (by decide +kernel)
    rw [Memory.reader, hentries]
    rfl
  have hends : (repair { primary := brokenParent.reader [] } .bridge Collected.writer
        { state := { world := {} } }).1.mapError Error.entry = .error "C.class" ∧
      (repair { primary := brokenParent.reader [] } .bridge Collected.writer
        { state := { world := {} } }).2.state.world.order.toList = [("A" : Path)] := by
    rw [hreader]
    decide +kernel
  have hsteady : (brokenParent.reader [] : Reader Collected).Steady := Memory.steady_reader
  obtain ⟨first, hfirst⟩ := hsteady.exists_shows
  have hshows : Sources.Shows { primary := brokenParent.reader [] } fun p => (first p).or none :=
    Sources.shows hfirst (by simp) (by simp)
  have hblames : Sources.Blames { primary := (brokenParent.reader [] : Reader Collected) } := by
    rintro reader (rfl | hreader)
    · exact Memory.blames_reader
    · simp at hreader
  rcases hrun : repair { primary := brokenParent.reader [] } .bridge Collected.writer
    { state := { world := {} } } with ⟨err | report, s'⟩
  · rw [hrun] at hends
    obtain ⟨hentry, horder⟩ := hends
    obtain ⟨done, e, rest, hentries, hfails⟩ := exists_failsAt_of_repair hsteady hshows hblames
      Resolver.blames_bridge hrun
    exact ⟨_, err, s', done, e, rest, rfl, Except.error.inj hentry, horder, hentries, hfails⟩
  · rw [hrun] at hends
    simp [Except.mapError] at hends

end JarRepair.Repair

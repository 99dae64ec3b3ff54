import JarRepair.Proofs.Archive.Output
import JarRepair.Proofs.Repair.Idempotence
import JarRepair.Proofs.Zip.RoundTrip

/-! # From zip file to zip file

A run whose output is a zip file stores each entry that its input lists, the directories included
that the input only implies. The finished image lists the same entries, and a second run over it
asks its writer for the same entries with the same content, so it ends with the same image. An input
may list one path as a file and imply it as a directory; then the image has both, and is no zip file
that can be read. -/

namespace JarRepair.Archive.Output

open JarRepair.Task

variable {σ : Type} [HoldsVolume σ] {s : Site σ} {w : Zip.Writer} {Q : Unit → Site σ → Prop}
  {E : Error → Site σ → Prop}

/-- What an output is asked for. -/
def ask : Zip.Call → Task (Site σ) Unit
  | .directory p => writer.addDirectory p
  | .file p data => writer.addFile p data

/-- A zip file's writer takes a call as it does alone. -/
theorem ensures_ask_zip (hs : s.output = .zip w) (c : Zip.Call)
    (h : match c.run w with
      | (.ok _, w) => Q () { s with output := .zip w }
      | (.error e, w) => E e { s with output := .zip w }) : (ask c).Ensures s Q E := by
  cases c with
  | directory p =>
    refine Ensures.bind (ensures_state.mpr ?_)
    rw [hs]
    exact ensures_stepZip.mpr h
  | file p data =>
    refine Ensures.bind (ensures_state.mpr ?_)
    rw [hs]
    exact ensures_stepZip.mpr h

end JarRepair.Archive.Output

namespace JarRepair.Zip

open JarRepair.Task
open JarRepair.Archive (Path)

/-! ## Readers -/

section

variable {σ : Type} {a : Archive}

theorem Archive.contains_reader (p : Path) :
    (a.reader : JarRepair.Archive.Reader σ).contains p = a.contains p := by
  rw [JarRepair.Archive.Reader.contains, reader, Std.TreeSet.contains_ofList,
    Std.TreeMap.contains_keys, contains]

/-- What an archive has for each path. -/
def Archive.look (a : Archive) (p : Path) : Option (Option Bytes) :=
  if a.contains p then some (a.read p).toOption else none

theorem Archive.shows_reader : (a.reader : JarRepair.Archive.Reader σ).Shows a.look where
  contains p := by
    rw [contains_reader, look]
    cases a.contains p <;> rfl
  read p x hx w := by
    rw [look] at hx
    split at hx
    · refine ensures_ofExcept.mpr ?_
      obtain rfl := Option.some.inj hx
      cases a.read p with
      | ok data => exact ⟨rfl, rfl⟩
      | error e => exact ⟨rfl, rfl⟩
    · simp at hx

/-- What an archive has that was made of these calls. -/
theorem Archive.look_eq_some_iff {calls : List Call} {p : Path} {x : Option Bytes}
    (hcontains : ∀ p, a.contains p = true ↔ ∃ data, .file p data ∈ calls)
    (hread : ∀ p data, .file p data ∈ calls → a.read p = .ok data) :
    a.look p = some x ↔ ∃ data, .file p data ∈ calls ∧ x = some data := by
  rw [look]
  by_cases hp : a.contains p = true
  · obtain ⟨data, hc⟩ := (hcontains p).mp hp
    rw [if_pos hp, hread p data hc]
    constructor
    · rintro ⟨⟩
      exact ⟨data, hc, rfl⟩
    · rintro ⟨data', hc', rfl⟩
      exact congrArg (fun r => some (Except.toOption r))
        ((hread p data hc).symm.trans (hread p data' hc'))
  · rw [if_neg hp]
    exact iff_of_false nofun fun ⟨data, hc, _⟩ => hp ((hcontains p).mpr ⟨data, hc⟩)

theorem Archive.gives_reader {p : Path} {data : Bytes} (h : a.read p = .ok data) :
    (a.reader : JarRepair.Archive.Reader σ).Gives p data := by
  intro w
  refine ensures_ofExcept.mpr ?_
  rw [h]
  exact ⟨rfl, rfl⟩

end

end JarRepair.Zip

namespace JarRepair.Repair

open JarRepair.Task
open Archive (Entry Output Path Reader Site)
open ClassFile (decode)
open Zip (Call)

/-! ## What the first run asks for -/

variable {σ : Type} [HoldsVolume σ] {look : Path → Option (Option Bytes)} {r : ClassFile.Resolver}
  {path : Volume.Path} {calls : List Call} {site : Site σ}

/-- The zip file's writer has accepted these calls and no others. -/
def Asked (path : Volume.Path) (calls : List Call) (site : Site σ) : Prop :=
  ∃ w, ({ path } : Zip.Writer).acceptAll calls = .ok w ∧ site.output = .zip w

/-- A call that is accepted is one more call. -/
theorem Asked.ensures_ask (h : Asked path calls site) (c : Call) :
    (Output.ask c).Ensures site (fun _ => Asked path (calls ++ [c])) fun _ _ => True := by
  obtain ⟨w, hw, hsite⟩ := h
  refine Output.ensures_ask_zip hsite c ?_
  rcases hrun : c.run w with ⟨e | _, w'⟩
  · trivial
  · exact ⟨w', Zip.Writer.acceptAll_concat hw hrun, rfl⟩

/-- Calls are taken again by another fresh writer as they were taken before. -/
theorem Asked.ensures_ask_again {path₁ : Volume.Path} {w : Zip.Writer} {c : Call} {rest : List Call}
    (hw : ({ path := path₁ } : Zip.Writer).acceptAll (calls ++ c :: rest) = .ok w)
    (h : Asked path calls site) :
    (Output.ask c).Ensures site (fun _ => Asked path (calls ++ [c])) fun _ _ => False := by
  obtain ⟨w₁, hw₁, hsite⟩ := h
  obtain ⟨w₂, w₃, hcalls, hrun⟩ :=
    Zip.Writer.exists_run_of_acceptAll (Zip.Writer.acceptAll_moved hw path)
  obtain rfl : w₁ = w₂ := Except.ok.inj (hw₁.symm.trans hcalls)
  refine Output.ensures_ask_zip hsite c ?_
  rw [hrun]
  exact ⟨w₃, Zip.Writer.acceptAll_concat hw₁ hrun, rfl⟩

/-- The calls that a run over an archive makes: one for each entry, with what is written for it. -/
structure Copied (look : Path → Option (Option Bytes)) (r : ClassFile.Resolver)
    (entries : List Entry) (calls : List Call) : Prop where
  entries : calls.map Call.entry = entries
  written : ∀ p data, .file p data ∈ calls → Written look r p data

theorem Copied.concat {entries : List Entry} (h : Copied look r entries calls) {c : Call}
    (hc : ∀ p data, c = .file p data → Written look r p data) :
    Copied look r (entries ++ [c.entry]) (calls ++ [c]) where
  entries := by rw [List.map_append, h.entries, List.map_singleton]
  written p data hmem := by
    rcases List.mem_append.mp hmem with hmem | hmem
    · exact h.written p data hmem
    · exact hc p data (List.mem_singleton.mp hmem).symm

theorem exists_copied_of_repair {a : Zip.Archive} {fallback : Option (Reader (Site σ))}
    (hr : r.Stable) (h : Sources.Shows { primary := a.reader, fallback } look) (ha : a.Listed)
    (hlook : ∀ p x, a.look p = some x → look p = some x) (hsite : site.output = .zip { path })
    {notes : Array Log.Note} {report : Report} {s' : Traced (Bench (Site σ))}
    (hrun : repair { primary := a.reader, fallback } r Output.writer
      { state := { world := site }, notes } = (.ok report, s')) :
    ∃ calls, Copied look r a.entries calls ∧ Asked path calls s'.state.world := by
  refine (ensures_repair_written hr h Zip.Archive.shows_reader hlook ?_
    (I := fun done site => ∃ calls, Copied look r done calls ∧ Asked path calls site) ?_ ?_
    ⟨[], ⟨rfl, nofun⟩, _, rfl, hsite⟩).of_ok hrun
  · rintro ⟨p, _⟩ he ⟨⟩
    rw [Zip.Archive.contains_reader]
    exact (ha.contains_iff p).mpr he
  · rintro done p site ⟨calls, hcopied, hasked⟩
    refine (hasked.ensures_ask (.directory p)).mono (fun _ _ hasked => ?_) fun _ _ => id
    exact ⟨_, hcopied.concat (c := .directory p) nofun, hasked⟩
  · rintro done p data site hdata ⟨calls, hcopied, hasked⟩
    refine (hasked.ensures_ask (.file p data)).mono (fun _ _ hasked => ?_) fun _ _ => id
    refine ⟨_, hcopied.concat (c := .file p data) ?_, hasked⟩
    rintro _ _ ⟨⟩
    exact hdata

/-! ## What the second run asks for -/

/-- Of the calls that were accepted, those for the entries that are done have been made again. -/
def AskedAgain (path : Volume.Path) (calls : List Call) (done : List Entry) (site : Site σ) :
    Prop :=
  ∃ first rest, calls = first ++ rest ∧ first.map Call.entry = done ∧ Asked path first site

theorem AskedAgain.ensures_ask {path₁ : Volume.Path} {w : Zip.Writer} {done rest : List Entry}
    {e : Entry} (hw : ({ path := path₁ } : Zip.Writer).acceptAll calls = .ok w)
    (hentries : calls.map Call.entry = done ++ e :: rest) (h : AskedAgain path calls done site) :
    ∃ c ∈ calls, c.entry = e ∧
      (Output.ask c).Ensures site (fun _ => AskedAgain path calls (done ++ [e])) fun _ _ =>
        False := by
  obtain ⟨first, rest', rfl, rfl, hasked⟩ := h
  rw [List.map_append, List.append_cancel_left_eq, List.map_eq_cons_iff] at hentries
  obtain ⟨c, rest'', rfl, rfl, -⟩ := hentries
  refine ⟨c, List.mem_append_right _ List.mem_cons_self, rfl, ?_⟩
  refine (hasked.ensures_ask_again hw).mono (fun _ _ h => ?_) fun _ _ => id
  exact ⟨first ++ [c], rest'', by simp, List.map_append, h⟩

omit [HoldsVolume σ] in
theorem AskedAgain.asked (h : AskedAgain path calls (calls.map Call.entry) site) :
    Asked path calls site := by
  obtain ⟨first, rest, rfl, hmap, hasked⟩ := h
  rw [List.map_append, List.self_eq_append_right, List.map_eq_nil_iff] at hmap
  rwa [hmap, List.append_nil]

/-! ## What the second run reads -/

/-- The paths of an archive over those of a fallback. -/
def stacked (a : Zip.Archive) (second : Path → Option (Option Bytes)) (p : Path) :
    Option (Option Bytes) :=
  (a.look p).or (second p)

theorem stacked_eq_of_look {a : Zip.Archive} {second : Path → Option (Option Bytes)} {p : Path}
    {x : Option Bytes} (h : a.look p = some x) : stacked a second p = some x := by
  rw [stacked, h, Option.some_or]

section

variable {a a' : Zip.Archive} {second : Path → Option (Option Bytes)}

omit [HoldsVolume σ] in
theorem shows_stacked {fallback : Option (Reader (Site σ))}
    (hsecond : ∀ reader ∈ fallback, reader.Shows second)
    (hnone : fallback = none → ∀ p, second p = none) :
    Sources.Shows { primary := a.reader, fallback } (stacked a second) :=
  Sources.shows Zip.Archive.shows_reader hsecond hnone

theorem stacked_eq_layered {content : Path → Option Bytes}
    (h : ∀ p, a.look p = (content p).map some) :
    stacked a second = layered content second := by
  funext p
  rw [stacked, h, layered]

/-- What was written for a file was read for it. -/
theorem exists_of_written {p : Path} {data : Bytes} (h : Written look r p data) :
    ∃ data', look p = some (some data') := by
  rw [Written] at h
  split at h
  · rename_i hclass
    obtain ⟨c₀, -, hanswer, -⟩ := h
    rw [answer, Path.ofClass_className hclass] at hanswer
    split at hanswer
    · simp at hanswer
    · simp at hanswer
    · rename_i data' hdata
      exact ⟨data', hdata⟩
  · exact ⟨data, h⟩

theorem Copied.mem_entries_iff {entries : List Entry} (h : Copied look r entries calls) {p : Path} :
    { path := p, kind := .file } ∈ entries ↔ ∃ data, .file p data ∈ calls := by
  rw [← h.entries, List.mem_map]
  simp only [Call.entry_eq_file_iff]
  exact ⟨fun ⟨_, hc, data, heq⟩ => ⟨data, heq ▸ hc⟩, fun ⟨data, hc⟩ => ⟨_, hc, data, rfl⟩⟩

theorem isSome_look (p : Path) : (a.look p).isSome = a.contains p := by
  rw [Zip.Archive.look]
  cases a.contains p <;> rfl

/-- All files of an archive that was copied could be read. -/
theorem Copied.look_eq (h : Copied (stacked a second) r a.entries calls) (ha : a.Listed)
    (p : Path) :
    a.look p = ((a.look p).join).map some := by
  cases hp : a.look p with
  | none => rfl
  | some x =>
    have hcontains := isSome_look (a := a) p
    rw [hp, Option.isSome_some, eq_comm, ha.contains_iff, h.mem_entries_iff] at hcontains
    obtain ⟨data, hc⟩ := hcontains
    obtain ⟨data', hdata⟩ := exists_of_written (h.written p data hc)
    rw [stacked_eq_of_look hp] at hdata
    obtain rfl := Option.some.inj hdata
    rfl

/-- Over an archive that has what was written, each class of it is done. -/
theorem Copied.exists_done (h : Copied (stacked a second) r a.entries calls) (ha : a.Listed)
    (ha' : ∀ p x, a'.look p = some x ↔ ∃ data, .file p data ∈ calls ∧ x = some data)
    {p : Path} {data : Bytes} (hdata : .file p data ∈ calls) (hclass : p.isClass = true) :
    ∃ c, decode data = .ok c ∧ Done (stacked a' second) r c := by
  have hread (p : Path) : a'.look p = ((a'.look p).join).map some := by
    cases hp : a'.look p with
    | none => rfl
    | some x =>
      obtain ⟨data, -, rfl⟩ := (ha' p x).mp hp
      rfl
  have hlook : stacked a second = layered (fun p => (a.look p).join) second :=
    stacked_eq_layered (h.look_eq ha)
  have hlook' : stacked a' second = layered (fun p => (a'.look p).join) second :=
    stacked_eq_layered hread
  have hjoin {x : Option (Option Bytes)} (hx : x = x.join.map some) : x.join.isSome = x.isSome :=
    (Option.isSome_map.symm.trans (congrArg Option.isSome hx.symm))
  have hsame (p : Path) : ((a'.look p).join).isSome = ((a.look p).join).isSome := by
    rw [hjoin (hread p), hjoin (h.look_eq ha p), isSome_look p (a := a), Bool.eq_iff_iff,
      ha.contains_iff, h.mem_entries_iff, Option.isSome_iff_exists]
    simp only [ha']
    exact ⟨fun ⟨_, data, hc, _⟩ => ⟨data, hc⟩, fun ⟨data, hc⟩ => ⟨_, data, hc, rfl⟩⟩
  have hwritten (p : Path) (data : Bytes) (hp : (a'.look p).join = some data) :
      Written (layered (fun p => (a.look p).join) second) r p data := by
    rw [Option.join_eq_some_iff, ha'] at hp
    obtain ⟨data', hc, hdata⟩ := hp
    obtain rfl := Option.some.inj hdata
    rw [← hlook]
    exact h.written p data hc
  have hagree := agree_of_written hsame hwritten
  rw [← hlook, ← hlook'] at hagree
  have hdone := h.written p data hdata
  rw [Written, if_pos hclass] at hdone
  obtain ⟨-, c, -, -, hdecode, hdone⟩ := hdone
  exact ⟨c, hdecode, hdone.of_agree hagree⟩

end

/-! ## Two runs -/

/-- Where all classes are done, a run over an archive makes the calls again that it was made of. -/
theorem ensures_repair_asked {a : Zip.Archive} {fallback : Option (Reader (Site σ))}
    {path₁ : Volume.Path} {w : Zip.Writer}
    (hw : ({ path := path₁ } : Zip.Writer).acceptAll calls = .ok w)
    (hentries : a.entries = calls.map Call.entry)
    (hread : ∀ p data, .file p data ∈ calls → a.read p = .ok data)
    (h : Sources.Shows { primary := a.reader, fallback } look)
    (hlook : ∀ p data, .file p data ∈ calls → look p = some (some data))
    (hdone : ∀ p data, .file p data ∈ calls → p.isClass = true → ∃ c, decode data = .ok c ∧
      Done look r c)
    (hsite : site.output = .zip { path }) :
    (repair { primary := a.reader, fallback } r Output.writer).Ensures { world := site }
      (fun _ b => Asked path calls b.world) fun _ _ => False := by
  have hstart : AskedAgain path calls [] site := ⟨[], calls, rfl, rfl, _, rfl, hsite⟩
  refine (ensures_repair_unchanged (F := fun p data => .file p data ∈ calls) h hlook hdone ?_ ?_ ?_
    hstart).mono ?_ fun _ _ => id
  · rintro ⟨p, _⟩ he ⟨⟩
    replace he : { path := p, kind := .file } ∈ a.entries := he
    rw [hentries, List.mem_map] at he
    obtain ⟨c, hc, hentry⟩ := he
    obtain ⟨data, rfl⟩ := Call.entry_eq_file_iff.mp hentry
    exact ⟨data, hc, Zip.Archive.gives_reader (hread p data hc)⟩
  · intro done p rest site hrest hasked
    obtain ⟨c, -, hentry, hask⟩ := hasked.ensures_ask hw (hentries.symm.trans hrest)
    obtain rfl := Call.entry_eq_directory_iff.mp hentry
    exact hask
  · intro done p rest data site hrest hdata hasked
    obtain ⟨c, hc, hentry, hask⟩ := hasked.ensures_ask hw (hentries.symm.trans hrest)
    obtain ⟨data', rfl⟩ := Call.entry_eq_file_iff.mp hentry
    obtain rfl : data' = data := Except.ok.inj ((hread p data' hc).symm.trans (hread p data hdata))
    exact hask
  · rintro report b ⟨-, -, hasked⟩
    rw [show Sources.primary { primary := a.reader, fallback } = a.reader from rfl,
      show (a.reader : Reader (Site σ)).entries = a.entries from rfl, hentries] at hasked
    exact hasked.asked

/-- The image of a run over a zip file is a zip file unless the input lists a path in both kinds: as
a file, and as a directory that it implies. It then lists the same entries, and another run over it
with the same fallback ends with the same image. -/
theorem repair_zip_again {data location : Bytes} {a : Zip.Archive}
    {fallback : Option (Reader (Site σ))} (hr : r = .bridge ∨ r = .identity)
    (hopen : Zip.Archive.ofBytes data location = .ok a) (hfew : a.entries.length ≤ 10000)
    (hfallback : ∀ reader ∈ fallback, reader.Steady) (hsite : site.output = .zip { path })
    {notes : Array Log.Note} {report : Report} {s' : Traced (Bench (Site σ))}
    (hrun : repair { primary := a.reader, fallback } r Output.writer
      { state := { world := site }, notes } = (.ok report, s')) {w w' : Zip.Writer}
    (hw : s'.state.world.output = .zip w) (hfinish : w.finish = .ok w')
    (himage : w'.image.length < 4294967296) (location' : Bytes) :
    ((∃ a', Zip.Archive.ofBytes w'.image location' = .ok a') ↔
      ∀ p, { path := p, kind := .directory } ∈ a.entries →
        { path := p, kind := .file } ∉ a.entries) ∧
    ∀ a', Zip.Archive.ofBytes w'.image location' = .ok a' → a'.entries = a.entries ∧
      ∀ (site' : Site σ) (path' : Volume.Path) (notes' : Array Log.Note),
        site'.output = .zip { path := path' } →
        ∃ report' s'' w₁ w₂, repair { primary := a'.reader, fallback } r Output.writer
            { state := { world := site' }, notes := notes' } = (.ok report', s'') ∧
          s''.state.world.output = .zip w₁ ∧ w₁.finish = .ok w₂ ∧ w₂.image = w'.image := by
  have hstable : r.Stable := by
    rcases hr with rfl | rfl
    · exact ClassFile.Resolver.stable_bridge
    · exact ClassFile.Resolver.stable_identity
  have hlisted := Zip.Archive.listed_of_ofBytes hopen
  obtain ⟨second, hsecond, hnone⟩ := exists_fallback hfallback
  obtain ⟨calls, hcopied, w₀, hw₀, hsite'⟩ := exists_copied_of_repair hstable
    (shows_stacked hsecond hnone) hlisted (fun _ _ => stacked_eq_of_look) hsite hrun
  obtain rfl : w₀ = w := Archive.Output.zip.inj (hsite'.symm.trans hw)
  have hholds : w₀.Holds calls := (Zip.Writer.holds_fresh path).acceptAll hw₀
  have hcount : calls.length < 65535 := by
    have hlength := congrArg List.length hcopied.entries
    rw [List.length_map] at hlength
    omega
  have hnames (c : Call) (hc : c ∈ calls) : c.name.length ≤ 65535 := by
    rw [← Zip.storedName_entry]
    exact hlisted.names _ (hcopied.entries ▸ List.mem_map_of_mem hc)
  have hlayout := Zip.Writer.image_of_finish hfinish
  rw [hlayout] at himage ⊢
  obtain ⟨hiff, hopened⟩ := hholds.ofBytes_layout hcount hnames himage location'
  rw [hcopied.entries, Entry.sort_eq_self hlisted.sorted,
    Entry.complete_eq_self hlisted.sorted hlisted.closed] at hopened
  rw [hcopied.entries] at hiff
  refine ⟨hiff, fun a' ha' => ?_⟩
  obtain ⟨hentries, hcontains, hread⟩ := hopened a' ha'
  refine ⟨hentries, fun site' path' notes' hfresh => ?_⟩
  have hlook (p : Path) (x : Option Bytes) :
      a'.look p = some x ↔ ∃ data, .file p data ∈ calls ∧ x = some data :=
    Zip.Archive.look_eq_some_iff hcontains hread
  obtain ⟨report', s'', hrun', w₁, hw₁, houtput⟩ := (ensures_repair_asked hw₀
    (hentries.trans hcopied.entries.symm) hread (shows_stacked hsecond hnone)
    (fun p data hc => stacked_eq_of_look ((hlook p _).mpr ⟨data, hc, rfl⟩))
    (fun p data hc hclass => hcopied.exists_done hlisted hlook hc hclass) hfresh).exists_ok notes'
  obtain rfl : w₁ = w₀.moved path' :=
    Except.ok.inj (hw₁.symm.trans (Zip.Writer.acceptAll_moved hw₀ path'))
  exact ⟨report', s'', _, _, hrun', houtput, Zip.Writer.finish_moved hfinish path', hlayout⟩

/-! ## Two inputs -/

/-- A writer that has taken nothing, on a volume without files. -/
def freshSite : Site Volume := { world := {}, output := .zip { path := "o" } }

/-- An archive without classes is made of some calls and copied with others. -/
theorem exists_copy {given asked : List Call} {w₀ w : Zip.Writer}
    (hgiven : ({ path := "o" } : Zip.Writer).acceptAll given = .ok w₀)
    (hasked : ({ path := "o" } : Zip.Writer).acceptAll asked = .ok w)
    (hcount : given.length < 65535) (hnames : ∀ c ∈ given, c.name.length ≤ 65535)
    (himage : (Zip.layout w₀.entries).length < 4294967296)
    (hkinds : ∀ p, { path := p, kind := .directory } ∈ given.map Call.entry →
      { path := p, kind := .file } ∉ given.map Call.entry)
    (hentries : Entry.complete (Entry.sort (given.map Call.entry)) = asked.map Call.entry)
    (hfiles : ∀ p data, .file p data ∈ asked → .file p data ∈ given)
    (hclass : ∀ c ∈ asked, c.path.isClass = false) :
    ∃ a report s', Zip.Archive.ofBytes (Zip.layout w₀.entries) [] = .ok a ∧
      a.entries = asked.map Call.entry ∧
      repair { primary := a.reader } .bridge Output.writer { state := { world := freshSite } } =
        (.ok report, s') ∧ s'.state.world.output = .zip w := by
  have hholds : w₀.Holds given := (Zip.Writer.holds_fresh _).acceptAll hgiven
  obtain ⟨hiff, hopened⟩ := hholds.ofBytes_layout hcount hnames himage []
  obtain ⟨a, ha⟩ := hiff.mpr hkinds
  obtain ⟨haentries, hcontains, hread⟩ := hopened a ha
  rw [hentries] at haentries
  have hlook (p : Path) (data : Bytes) (hc : .file p data ∈ asked) :
      stacked a (fun _ => none) p = some (some data) :=
    stacked_eq_of_look
      ((Zip.Archive.look_eq_some_iff hcontains hread).mpr ⟨data, hfiles p data hc, rfl⟩)
  have hdone (p : Path) (data : Bytes) (hc : .file p data ∈ asked) (hp : p.isClass = true) :
      ∃ c, decode data = .ok c ∧ Done (stacked a fun _ => none) .bridge c := by
    rw [show p.isClass = false from hclass _ hc] at hp
    exact nomatch hp
  have hshows :
      Sources.Shows { primary := (a.reader : Reader (Site Volume)) } (stacked a fun _ => none) :=
    shows_stacked nofun fun _ _ => rfl
  obtain ⟨report, s', hrun, w₁, hw₁, houtput⟩ := (ensures_repair_asked hasked haentries
    (fun p data hc => hread p data (hfiles p data hc)) hshows hlook hdone
    (show freshSite.output = .zip { path := "o" } from rfl)).exists_ok #[]
  obtain rfl : w₁ = w := Except.ok.inj (hw₁.symm.trans hasked)
  exact ⟨a, report, s', ha, haentries, hrun, houtput⟩

/-- A path is in a listing in one kind only if all its entries differ in their paths. -/
theorem not_mem_of_nodup {entries : List Entry} (h : (entries.map (·.path)).Nodup) (p : Path)
    (hp : { path := p, kind := .directory } ∈ entries) :
    { path := p, kind := .file } ∉ entries := fun hp' =>
  Entry.Kind.noConfusion (congrArg Entry.kind (List.inj_on_of_nodup_map h hp hp' rfl))

/-- A file in a directory that is not listed itself. -/
theorem repair_zip_again_implied : ∃ data a report s' w w', Zip.Archive.ofBytes data [] = .ok a ∧
    repair { primary := a.reader } .bridge Output.writer { state := { world := freshSite } } =
      (.ok report, s') ∧ s'.state.world.output = .zip w ∧ w.finish = .ok w' ∧
    ∃ a' report' s'' w₁ w₂, Zip.Archive.ofBytes w'.image [] = .ok a' ∧
      a'.entries = [{ path := "a", kind := .directory }, { path := "a/b", kind := .file }] ∧
      repair { primary := a'.reader } .bridge Output.writer { state := { world := freshSite } } =
        (.ok report', s'') ∧ s''.state.world.output = .zip w₁ ∧ w₁.finish = .ok w₂ ∧
      w₂.image = w'.image := by
  obtain ⟨w₀, hgiven, himage₀⟩ := Zip.Writer.exists_acceptAll_of_weight "o" [.file "a/b" "text"]
    (by decide) (by decide) (by decide) (by decide)
  obtain ⟨w, hasked, himage⟩ := Zip.Writer.exists_acceptAll_of_weight "o"
    [.directory "a", .file "a/b" "text"] (by decide) (by decide) (by decide) (by decide)
  have hcomplete : Entry.complete (Entry.sort [{ path := "a/b", kind := .file }]) =
      [{ path := "a", kind := .directory }, { path := "a/b", kind := .file }] := by
    have hmissing :
        Entry.missingDirectories [{ path := "a/b", kind := .file }] = [("a" : Path)] := by decide
    have hlt : Bytes.le "a/b" "a" = false := by decide
    rw [Entry.sort_eq_self (by decide), Entry.complete, hmissing]
    simp [Entry.sort, List.mergeSort, List.MergeSort.Internal.splitInTwo, hlt]
  obtain ⟨a, report, s', hopen, hlisted, hrun, houtput⟩ := exists_copy hgiven hasked
    (by decide) (by decide) himage₀ (not_mem_of_nodup (by decide)) hcomplete (by simp) (by decide)
  have hfinish : w.finish = .ok { w with finished := true } :=
    ((Zip.Writer.holds_fresh "o").acceptAll hasked).finish_eq himage
  obtain ⟨hiff, hagain⟩ := repair_zip_again (.inl rfl) hopen (by simp [hlisted]) (by simp) rfl
    hrun houtput hfinish himage []
  obtain ⟨a', ha'⟩ := hiff.mpr (hlisted ▸ not_mem_of_nodup (by decide))
  obtain ⟨hentries', hagain⟩ := hagain a' ha'
  obtain ⟨report', s'', w₁, w₂, hrun', houtput', hfinish', hsame⟩ := hagain freshSite "o" #[] rfl
  exact ⟨_, a, report, s', w, _, hopen, hrun, houtput, hfinish, a', report', s'', w₁, w₂, ha',
    hentries'.trans hlisted, hrun', houtput', hfinish', hsame⟩

/-- A file, and another one below it: the image has the directory between them, and is refused. -/
theorem repair_zip_clash : ∃ data a report s' w w', Zip.Archive.ofBytes data [] = .ok a ∧
    a.entries.length ≤ 10000 ∧
    repair { primary := a.reader } .bridge Output.writer { state := { world := freshSite } } =
      (.ok report, s') ∧ s'.state.world.output = .zip w ∧ w.finish = .ok w' ∧
    w'.image.length < 4294967296 ∧ ∀ a', Zip.Archive.ofBytes w'.image [] ≠ .ok a' := by
  obtain ⟨w₀, hgiven, himage₀⟩ := Zip.Writer.exists_acceptAll_of_weight "o"
    [.file "a" "hello", .file "a/b" "world"] (by decide) (by decide) (by decide) (by decide)
  obtain ⟨w, hasked, himage⟩ := Zip.Writer.exists_acceptAll_of_weight "o"
    [.file "a" "hello", .directory "a", .file "a/b" "world"]
    (by decide) (by decide) (by decide) (by decide)
  have hcomplete : Entry.complete (Entry.sort
      [{ path := "a", kind := .file }, { path := "a/b", kind := .file }]) =
        [{ path := "a", kind := .file }, { path := "a", kind := .directory },
          { path := "a/b", kind := .file }] := by
    have hmissing : Entry.missingDirectories
        [{ path := "a", kind := .file }, { path := "a/b", kind := .file }] = [("a" : Path)] := by
          decide
    have hle : Bytes.le "a" "a" = true ∧ Bytes.le "a" "a/b" = true ∧
        Bytes.le "a/b" "a" = false := by decide
    rw [Entry.sort_eq_self (by decide), Entry.complete, hmissing]
    simp [Entry.sort, List.mergeSort, List.MergeSort.Internal.splitInTwo, hle]
  obtain ⟨a, report, s', hopen, hlisted, hrun, houtput⟩ := exists_copy hgiven hasked
    (by decide) (by decide) himage₀ (not_mem_of_nodup (by decide)) hcomplete (by simp) (by decide)
  have hholds : w.Holds [.file "a" "hello", .directory "a", .file "a/b" "world"] :=
    (Zip.Writer.holds_fresh "o").acceptAll hasked
  obtain ⟨hiff, -⟩ := hholds.ofBytes_layout (by decide) (by decide) himage []
  refine ⟨_, a, report, s', w, _,
    hopen, by simp [hlisted], hrun, houtput, hholds.finish_eq himage, himage, fun a' ha' => ?_⟩
  exact hiff.mp ⟨a', ha'⟩ "a" (by simp [Call.entry]) (by simp [Call.entry])

end JarRepair.Repair

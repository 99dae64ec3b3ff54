import JarRepair.Proofs.Archive.Path
import JarRepair.Proofs.Zip.Listing
import JarRepair.Proofs.Zip.Refusals
import JarRepair.Proofs.Zip.RoundTrip

/-! # The entries of an archive that is opened

An archive lists its entries in the order of their paths, each once, with valid paths, and each
parent directory before what is in it. One path may be listed as a file and be implied as a
directory; these are stored under different names, so the entries can be written to another zip file
one by one as they are. -/

namespace JarRepair.Zip

open JarRepair.Archive (Path Entry)

variable {data location : Bytes} {a : Archive}

/-! ## Opened archives -/

theorem Archive.fault?_of_ofBytes (h : ofBytes data location = .ok a) :
    ∀ e ∈ a.entries, e.path.fault? = none := by
  obtain ⟨l, hl, hitems, hfinish, -⟩ := exists_listing_of_ofBytes h
  obtain ⟨-, hentries⟩ := Listing.finish_eq_ok_iff.mp hfinish
  have hlisted (e : Entry) (he : e ∈ l.explicit) : e.path.fault? = none := by
    rw [Listing.mem_explicit, hl.entries, List.mem_reverse] at he
    obtain ⟨x, hx, rfl⟩ := List.mem_map.mp he
    exact (hitems x hx).1
  intro e he
  rw [hentries] at he
  rcases Entry.mem_complete_iff.mp he with he | ⟨-, hmissing⟩
  · exact hlisted e he
  · obtain ⟨-, e', he', hparent⟩ := ((Entry.missingDirectories_spec _).2 e.path).mp hmissing
    obtain ⟨rest, hrest⟩ := Path.mem_parents_iff.mp hparent
    have hvalid := hlisted e' he'
    rw [hrest] at hvalid
    exact Path.fault?_of_append hvalid

theorem Archive.nodup_of_ofBytes (h : ofBytes data location = .ok a) : a.entries.Nodup := by
  obtain ⟨l, -, -, hfinish, -⟩ := exists_listing_of_ofBytes h
  obtain ⟨hnodup, hentries⟩ := Listing.finish_eq_ok_iff.mp hfinish
  rw [hentries]
  exact Entry.nodup_complete (.of_map _ hnodup)

/-! ## Writing the entries -/

/-- The call that writes an entry, given the contents of files. -/
def Call.ofEntry (content : Path → Bytes) (e : Entry) : Call :=
  match e.kind with
  | .directory => .directory e.path
  | .file => .file e.path (content e.path)

@[simp] theorem Call.path_ofEntry (content : Path → Bytes) (e : Entry) :
    (ofEntry content e).path = e.path := by
  obtain ⟨p, _ | _⟩ := e <;> rfl

@[simp] theorem Call.name_ofEntry (content : Path → Bytes) (e : Entry) :
    (ofEntry content e).name = storedName e := by
  obtain ⟨p, _ | _⟩ := e <;> rfl

/-- Stored names tell the entries with valid paths apart. -/
theorem storedName_injOn {e e' : Entry} (he : e.path.fault? = none) (he' : e'.path.fault? = none)
    (h : storedName e = storedName e') : e = e' := by
  rw [← entryOf_storedName he, h, entryOf_storedName he']

/-- Entries that are written in turn, each once and all with valid paths, are refused for lack of
room only. -/
theorem error_of_ofEntry {path : Volume.Path} {content : Path → Bytes} {before after : List Entry}
    {e : Entry} {error : Error} (hvalid : ∀ e' ∈ before ++ e :: after, e'.path.fault? = none)
    (hnodup : (before ++ e :: after).Nodup) (hcount : (before ++ e :: after).length < 65535)
    (h : ((Call.ofEntry content e).run
      (({ path } : Writer).runAll (before.map (Call.ofEntry content))).2).1 = .error error) :
    error = .io "archive exceeds 4 GiB without zip64" ∨
      error = (Error.io "entry exceeds 4 GiB without zip64").withEntry e.path := by
  have hafter := Writer.after_runAll { path } (before.map (Call.ofEntry content))
  have hrefuses := Writer.refuses_of_run h
  have he : e.path.fault? = none := hvalid e (by simp)
  generalize hc : Call.ofEntry content e = c at hrefuses
  have hpath : c.path = e.path := by rw [← hc, Call.path_ofEntry]
  have hname : c.name = storedName e := by rw [← hc, Call.name_ofEntry]
  cases hrefuses with
  | path hfault => rw [hpath, he] at hfault; exact nomatch hfault
  | twice hasked =>
    exfalso
    rcases hafter.names _ hasked with hasked | ⟨c', hc', heq⟩
    · exact Std.TreeSet.not_mem_emptyc hasked
    · obtain ⟨e', he', rfl⟩ := List.mem_map.mp hc'
      rw [hname, Call.name_ofEntry] at heq
      obtain rfl := storedName_injOn (hvalid e' (List.mem_append_left _ he')) he heq
      exact (List.nodup_append.mp hnodup).2.2 e' he' e' List.mem_cons_self rfl
  | finished hfinished => rw [hafter.finished] at hfinished; exact nomatch hfinished
  | entries hfull =>
    have hlength : 65535 ≤ before.length := by
      simpa [Writer.maxEntries] using Nat.le_trans hfull hafter.count
    rw [List.length_append] at hcount
    omega
  | image => exact .inl rfl
  | file => exact .inr (by rw [← hpath]; rfl)

/-- The entries of an archive that is opened are in the order of their paths, none occurs twice, and
all paths are valid; what comes before a slash is listed as a directory before; and the files are
those that the archive has. Written in turn to another zip file, none is refused but for lack of
room. -/
theorem Archive.entries_in_order (h : ofBytes data location = .ok a) :
    a.entries.Pairwise (fun e e' => Bytes.le e.path e'.path = true) ∧
    a.entries.Nodup ∧
    (∀ e ∈ a.entries, e.path.fault? = none) ∧
    (∀ before e after, a.entries = before ++ e :: after → ∀ q rest,
      e.path = q ++ Path.slash :: rest → { path := q, kind := .directory } ∈ before) ∧
    (∀ p, a.contains p = true ↔ { path := p, kind := .file } ∈ a.entries) ∧
    (a.entries.length < 65535 → ∀ path content before e after, a.entries = before ++ e :: after →
      ∀ error, ((Call.ofEntry content e).run
          (({ path } : Writer).runAll (before.map (Call.ofEntry content))).2).1 = .error error →
        error = .io "archive exceeds 4 GiB without zip64" ∨
          error = (Error.io "entry exceeds 4 GiB without zip64").withEntry e.path) := by
  have hlisted := listed_of_ofBytes h
  have hvalid := fault?_of_ofBytes h
  have hnodup := nodup_of_ofBytes h
  refine ⟨hlisted.sorted, hnodup, hvalid, ?_, hlisted.contains_iff, ?_⟩
  · intro before e after hentries q rest hpath
    exact hlisted.closed.mem_before hlisted.sorted hentries hpath
  · intro hcount path content before e after hentries error herror
    rw [hentries] at hvalid hnodup hcount
    exact error_of_ofEntry hvalid hnodup hcount herror

/-- A file, and another one below it: the directory between them has the path of the first. -/
theorem Archive.entries_in_order_overlap : ∃ data a before after, ofBytes data [] = .ok a ∧
    a.entries.length = 3 ∧ a.contains "a" = true ∧ (∀ e ∈ a.entries, e.path.fault? = none) ∧
    a.entries = before ++ { path := "a/b", kind := .file } :: after ∧
    { path := "a", kind := .directory } ∈ before ∧
    ∀ error, ((Call.file "a/b" "world").run
        (({ path := "o" } : Writer).runAll (before.map (Call.ofEntry fun _ => "world"))).2).1 =
          .error error →
      error = .io "archive exceeds 4 GiB without zip64" ∨
        error = (Error.io "entry exceeds 4 GiB without zip64").withEntry "a/b" := by
  obtain ⟨w, hw, himage⟩ := Writer.exists_acceptAll_of_weight "o"
    [.file "a" "hello", .file "a/b" "world"] (by decide) (by decide) (by decide) (by decide)
  obtain ⟨hopens, hlists⟩ := ((Writer.holds_fresh "o").acceptAll hw).ofBytes_layout
    (by decide) (by decide) himage []
  obtain ⟨a, ha⟩ := hopens.mpr (by simp [Call.entry])
  obtain ⟨hentries, hcontains, -⟩ := hlists a ha
  have hlength : a.entries.length = 3 := by
    rw [hentries, Entry.sort_eq_self (by decide), (Entry.complete_perm _).length_eq]
    decide
  obtain ⟨-, -, hvalid, hparents, hfiles, hwritten⟩ := entries_in_order ha
  obtain ⟨before, after, hsplit⟩ := List.mem_iff_append.mp ((hfiles "a/b").mp
    ((hcontains "a/b").mpr ⟨"world", by simp⟩))
  refine ⟨_, a, before, after, ha, hlength, (hcontains "a").mpr ⟨"hello", by simp⟩, hvalid, hsplit,
    hparents before _ after hsplit "a" "b" rfl, ?_⟩
  exact hwritten (by omega) "o" (fun _ => "world") before _ after hsplit

end JarRepair.Zip

import Mathlib.Data.List.Destutter
import JarRepair.Proofs.Archive.Listing
import JarRepair.Proofs.Archive.Path
import JarRepair.Proofs.Outcome
import JarRepair.Proofs.Zip.Slice

/-! # What a directory lists

The entries of a central directory are added to a listing one by one, whatever else an archive
holds. A listing that is finished shows each path once: a directory may be listed more than once,
but no path may be listed both as a directory and as a file. -/

namespace JarRepair.Zip

open JarRepair.Archive (Path Entry)

/-! ## Neighbours -/

theorem foldl_dropRepeats (entries kept : List Entry) (e : Entry) :
    entries.foldl (fun kept e => if kept.head? = some e then kept else e :: kept) (e :: kept) =
      (entries.destutter' (· ≠ ·) e).reverse ++ kept := by
  induction entries generalizing e kept with
  | nil => rfl
  | cons e' entries ih =>
    rw [List.foldl_cons, List.head?_cons, List.destutter'_cons]
    by_cases h : e = e'
    · rw [if_pos (congrArg some h), if_neg (not_not.mpr h), ih]
    · rw [if_neg fun hsome => h (Option.some.inj hsome), if_pos h, ih, List.reverse_cons,
        List.append_assoc, List.singleton_append]

theorem dropRepeats_eq_destutter (entries : List Entry) :
    dropRepeats entries = entries.destutter (· ≠ ·) := by
  cases entries with
  | nil => rfl
  | cons e entries =>
    rw [dropRepeats, List.foldl_cons, List.head?_nil, if_neg nofun, foldl_dropRepeats,
      List.append_nil, List.reverse_reverse, List.destutter_cons']

theorem mem_destutter'_ne {entries : List Entry} {e e' : Entry} :
    e' ∈ entries.destutter' (· ≠ ·) e ↔ e' = e ∨ e' ∈ entries := by
  induction entries generalizing e with
  | nil => simp
  | cons b entries ih =>
    rw [List.destutter'_cons]
    by_cases h : e = b
    · subst h
      rw [if_neg (not_not.mpr rfl), ih, List.mem_cons, or_self_left]
    · rw [if_pos h, List.mem_cons, ih, List.mem_cons]

theorem mem_dropRepeats {entries : List Entry} {e : Entry} :
    e ∈ dropRepeats entries ↔ e ∈ entries := by
  rw [dropRepeats_eq_destutter]
  cases entries with
  | nil => rfl
  | cons e' entries => rw [List.destutter_cons', mem_destutter'_ne, List.mem_cons]

theorem sharedPath?_eq_none_iff {entries : List Entry} :
    sharedPath? entries = none ↔ entries.IsChain fun a b => a.path ≠ b.path := by
  rw [sharedPath?, Option.map_eq_none_iff]
  induction entries with
  | nil => simp
  | cons e entries ih =>
    cases entries with
    | nil => simp
    | cons e' entries =>
      rw [List.isChain_cons_cons, ← ih, List.tail_cons, List.zip_cons_cons, List.find?_cons]
      dsimp only
      by_cases h : e.path = e'.path
      · rw [beq_iff_eq.mpr h]
        exact iff_of_false nofun fun hchain => hchain.1 h
      · rw [beq_eq_false_iff_ne.mpr h]
        exact (and_iff_right h).symm

/-! ## Paths in order -/

/-- Where paths are in order, those that differ from their neighbours all differ. -/
theorem nodup_path_of_isChain {entries : List Entry}
    (hsorted : entries.Pairwise fun a b => Bytes.le a.path b.path = true)
    (hchain : entries.IsChain fun a b => a.path ≠ b.path) : (entries.map (·.path)).Nodup := by
  have hstrict : entries.IsChain fun a b => compare a.path b.path = .lt := by
    rw [List.isChain_iff_forall_rel_of_append_cons_cons] at hchain ⊢
    intro a b before after hentries
    have hle : (compare a.path b.path).isLE = true :=
      List.isChain_iff_forall_rel_of_append_cons_cons.mp hsorted.isChain hentries
    rw [Ordering.isLE_iff_eq_lt_or_eq_eq, Std.LawfulEqCmp.compare_eq_iff_eq] at hle
    exact hle.resolve_right (hchain hentries)
  have htrans : IsTrans Entry fun a b => compare a.path b.path = .lt :=
    ⟨fun _ _ _ => Std.TransCmp.lt_trans⟩
  refine List.pairwise_map.mpr ((List.isChain_iff_pairwise.mp hstrict).imp ?_)
  intro a b hlt heq
  have hself : compare b.path b.path = .eq := Std.ReflCmp.compare_self
  rw [heq, hself] at hlt
  exact nomatch hlt

/-! ## Stored names -/

theorem pathOf_directory (p : Path) : pathOf (p ++ [Path.slash]) = (p, .directory) := by
  rw [pathOf, List.getLast?_concat]
  simp

theorem pathOf_file {p : Path} (h : p.fault? = none) : pathOf p = (p, .file) := by
  obtain ⟨-, -, hlast⟩ := Path.ends_of_fault? h
  rw [pathOf]
  split
  · rename_i b hb
    rw [if_neg]
    rintro rfl
    exact hlast hb
  · rfl

/-! ## Entries -/

/-- What a listing shows of a stored name. -/
def entryOf (name : Bytes) : Entry := { path := (pathOf name).1, kind := (pathOf name).2 }

/-- The name that an entry is stored under. -/
def storedName (e : Entry) : Bytes :=
  match e.kind with
  | .directory => e.path ++ [Path.slash]
  | .file => e.path

theorem entryOf_storedName {e : Entry} (h : e.path.fault? = none) : entryOf (storedName e) = e := by
  obtain ⟨p, _ | _⟩ := e
  · rw [storedName, entryOf, pathOf_directory]
  · rw [storedName, entryOf, pathOf_file h]

theorem storedName_entryOf (name : Bytes) : storedName (entryOf name) = name := by
  rcases List.eq_nil_or_concat name with rfl | ⟨init, last, rfl⟩
  · rfl
  · rw [List.concat_eq_append, entryOf, pathOf, List.getLast?_concat]
    by_cases hlast : last = Path.slash
    · simp [hlast, storedName]
    · simp [hlast, storedName]

namespace CentralHeader

/-- What a directory says of a file. -/
def record (h : CentralHeader) : Record where
  flags := h.flags
  method := h.method
  crc := h.crc
  compressedSize := h.compressedSize
  size := h.size
  offset := h.offset

/-- Nothing that the header says is in a zip64 record. -/
structure Plain (h : CentralHeader) : Prop where
  compressedSize : h.compressedSize ≠ dword64
  size : h.size ≠ dword64
  offset : h.offset ≠ dword64

end CentralHeader

namespace Listing

/-- A central header, with the name that follows it. -/
abbrev Item := CentralHeader × Bytes

/-- The listing with one more entry. -/
def put (x : Item) (l : Listing) : Listing where
  entries := entryOf x.2 :: l.entries
  records :=
    match (entryOf x.2).kind with
    | .directory => l.records
    | .file => l.records.insert (entryOf x.2).path x.1.record

variable {l l' : Listing} {x : Item} {items rest : List Item}

/-- An entry is added if its path is valid and, for a file, not listed yet. -/
theorem add_eq_ok_iff : l.add x.1 x.2 = .ok l' ↔
    x.1.Plain ∧ (entryOf x.2).path.fault? = none ∧
      ((entryOf x.2).kind = .file → l.records.contains (entryOf x.2).path = false) ∧
      l' = l.put x := by
  obtain ⟨h, name⟩ := x
  have hplain :
      h.Plain ↔ ¬ (h.compressedSize = dword64 ∨ h.size = dword64 ∨ h.offset = dword64) := by
    simp only [not_or]
    exact ⟨fun h => ⟨h.1, h.2, h.3⟩, fun h => ⟨h.1, h.2.1, h.2.2⟩⟩
  rw [hplain, add, put, entryOf]
  obtain ⟨p, kind⟩ := pathOf name
  by_cases hlarge : h.compressedSize = dword64 ∨ h.size = dword64 ∨ h.offset = dword64
  · rw [if_pos hlarge]
    exact iff_of_false nofun fun hok => hok.1 hlarge
  · rw [if_neg hlarge, and_iff_right hlarge]
    dsimp only
    cases p.fault? with
    | some fault => simp
    | none =>
      cases kind with
      | directory =>
        exact ⟨fun hok => ⟨rfl, nofun, (Except.ok.inj hok).symm⟩, fun hok => hok.2.2 ▸ rfl⟩
      | file =>
        cases l.records.contains p with
        | true => simp
        | false =>
          exact ⟨fun hok => ⟨rfl, fun _ => rfl, (Except.ok.inj hok).symm⟩, fun hok => hok.2.2 ▸ rfl⟩

/-- The listing shows these entries, which may be shown together, and has the records of their
files. -/
structure Shows (l : Listing) (items : List Item) : Prop where
  entries : l.entries = (items.map fun x => entryOf x.2).reverse
  records : ∀ p r, l.records[p]? = some r ↔
    ∃ x ∈ items, entryOf x.2 = { path := p, kind := .file } ∧ x.1.record = r

theorem shows_empty : Shows {} [] := ⟨rfl, fun p r => by simp⟩

theorem Shows.contains_iff (h : l.Shows items) {p : Path} : l.records.contains p = true ↔
    ∃ x ∈ items, entryOf x.2 = { path := p, kind := .file } := by
  rw [Std.TreeMap.contains_eq_isSome_getElem?, Option.isSome_iff_exists]
  simp only [h.records]
  exact ⟨fun ⟨_, x, hx, hp, _⟩ => ⟨x, hx, hp⟩, fun ⟨x, hx, hp⟩ => ⟨_, x, hx, hp, rfl⟩⟩

theorem Shows.put (h : l.Shows items)
    (hnew : (entryOf x.2).kind = .file → l.records.contains (entryOf x.2).path = false) :
    (l.put x).Shows (items ++ [x]) := by
  refine ⟨?_, fun p r => ?_⟩
  · rw [List.map_append, List.reverse_append, ← h.entries]
    rfl
  · simp only [List.mem_append, List.mem_singleton, or_and_right, exists_or, exists_eq_left]
    rw [← h.records, Listing.put]
    generalize entryOf x.2 = e at hnew
    obtain ⟨q, _ | _⟩ := e
    · simp
    · have hnone : (l.records[q]? : Option Record) = none := by
        have hq := hnew rfl
        rwa [Std.TreeMap.contains_eq_isSome_getElem?, Option.isSome_eq_false_iff,
          Option.isNone_iff_eq_none] at hq
      simp only [Std.TreeMap.getElem?_insert, Std.LawfulEqCmp.compare_eq_iff_eq,
        Entry.mk.injEq, and_true]
      by_cases hqp : q = p
      · subst hqp
        simp [hnone]
      · simp [hqp]

/-- Adds entries one after the other. -/
def addAll (items : List Item) (l : Listing) : Except Fault Listing :=
  items.foldlM (fun l x => l.add x.1 x.2) l

/-- Entries that were added are shown, and their paths are valid. -/
theorem Shows.of_addAll (h : l.Shows items) (hrun : l.addAll rest = .ok l') :
    l'.Shows (items ++ rest) ∧ ∀ x ∈ rest, x.1.Plain ∧ (entryOf x.2).path.fault? = none := by
  induction rest generalizing l items with
  | nil =>
    obtain rfl := Except.ok.inj hrun
    exact ⟨by rwa [List.append_nil], nofun⟩
  | cons x rest ih =>
    rw [addAll, List.foldlM_cons] at hrun
    obtain ⟨l₁, hadd, hrest⟩ := Outcome.bind_eq_ok_iff.mp hrun
    obtain ⟨hplain, hvalid, hnew, rfl⟩ := add_eq_ok_iff.mp hadd
    obtain ⟨hshows, hall⟩ := ih (h.put hnew) hrest
    rw [List.append_assoc, List.singleton_append] at hshows
    exact ⟨hshows, List.forall_mem_cons.mpr ⟨⟨hplain, hvalid⟩, hall⟩⟩

/-- Entries with valid paths are all added if no file is among them twice. -/
theorem Shows.exists_addAll (h : l.Shows items)
    (hrest : ∀ x ∈ rest, x.1.Plain ∧ (entryOf x.2).path.fault? = none)
    (honce : (items ++ rest).Pairwise fun x y => entryOf x.2 = entryOf y.2 →
      (entryOf y.2).kind = .directory) :
    ∃ l', l.addAll rest = .ok l' ∧ l'.Shows (items ++ rest) := by
  induction rest generalizing l items with
  | nil => exact ⟨l, rfl, by rwa [List.append_nil]⟩
  | cons x rest ih =>
    obtain ⟨⟨hplain, hvalid⟩, hrest⟩ := List.forall_mem_cons.mp hrest
    have hnew (hfile : (entryOf x.2).kind = .file) :
        l.records.contains (entryOf x.2).path = false := by
      rw [Bool.eq_false_iff, ne_eq, h.contains_iff]
      rintro ⟨y, hy, heq⟩
      have hdirectory := (List.pairwise_append.mp honce).2.2 y hy x List.mem_cons_self
        (heq.trans (by rw [← hfile]))
      rw [hfile] at hdirectory
      exact nomatch hdirectory
    rw [← List.singleton_append, ← List.append_assoc] at honce ⊢
    obtain ⟨l', hrun, hshows⟩ := ih (h.put hnew) hrest honce
    refine ⟨l', ?_, hshows⟩
    rw [addAll, List.singleton_append, List.foldlM_cons,
      add_eq_ok_iff.mpr ⟨hplain, hvalid, hnew, rfl⟩]
    exact hrun

/-! ## Reading the directory -/

/-- The central headers of `n` entries from a position on, each with the name that follows it. -/
def headers (data : Array UInt8) : (n position : Nat) → List Item
  | 0, _ => []
  | n + 1, position =>
    match CentralHeader.decode? (slice data position CentralHeader.length) with
    | none => []
    | some h =>
      let start := position + CentralHeader.length
      (h, slice data start h.nameLength.toNat) :: headers data n (start + h.trailer)

/-- Names are as long as a header can say. -/
theorem length_name_of_mem_headers {data : Array UInt8} {n position : Nat}
    (hx : x ∈ headers data n position) :
    x.2.length ≤ 65535 := by
  induction n generalizing position with
  | zero => exact absurd hx List.not_mem_nil
  | succ n ih =>
    rw [headers] at hx
    split at hx
    · exact absurd hx List.not_mem_nil
    · rename_i h hdecode
      rcases List.mem_cons.mp hx with rfl | hx
      · have hbound := h.nameLength.toNat_lt
        exact Nat.le_trans (length_slice_le _ _ _) (by omega)
      · exact ih hx

/-- What is read of a directory is added entry by entry. -/
theorem addAll_headers_of_read {data : Array UInt8} {limit n index position : Nat}
    (h : read data limit n index position l = .ok l') :
    l.addAll (headers data n position) = .ok l' := by
  induction n generalizing index position l with
  | zero => exact h
  | succ n ih =>
    rw [read] at h
    split at h
    · exact nomatch h
    · split at h
      · exact nomatch h
      · rename_i hd hdecode
        split at h
        · exact nomatch h
        · split at h
          · exact nomatch h
          · rename_i l₁ hadd
            rw [headers, hdecode, addAll, List.foldlM_cons, hadd]
            exact ih h

/-! ## Finishing the listing -/

/-- What is listed, in order and without repeats. -/
def explicit (l : Listing) : List Entry := dropRepeats (Entry.sort l.entries.reverse)

theorem mem_explicit {e : Entry} : e ∈ l.explicit ↔ e ∈ l.entries := by
  rw [explicit, mem_dropRepeats, (Entry.sort_perm _).mem_iff, List.mem_reverse]

theorem sorted_explicit (l : Listing) :
    l.explicit.Pairwise fun a b => Bytes.le a.path b.path = true := by
  rw [explicit, dropRepeats_eq_destutter]
  exact (Entry.sort_sorted _).sublist (List.destutter_sublist _ _)

theorem isChain_ne_explicit (l : Listing) : l.explicit.IsChain (· ≠ ·) := by
  rw [explicit, dropRepeats_eq_destutter]
  exact List.isChain_destutter _ _

/-- Each path is left once unless it is listed in both kinds. -/
theorem nodup_explicit_iff : (l.explicit.map (·.path)).Nodup ↔
    ∀ p, { path := p, kind := .directory } ∈ l.entries →
    { path := p, kind := .file } ∉ l.entries := by
  simp only [← mem_explicit]
  constructor
  · intro hnodup p hdirectory hfile
    have heq := List.inj_on_of_nodup_map hnodup hdirectory hfile rfl
    exact Entry.Kind.noConfusion (congrArg Entry.kind heq)
  · intro hkinds
    refine nodup_path_of_isChain l.sorted_explicit (l.isChain_ne_explicit.imp_of_mem_imp ?_)
    -- Neighbours that differ on one path are a directory and a file.
    rintro ⟨p, kind⟩ ⟨q, kind'⟩ hp hq hne rfl
    cases kind <;> cases kind'
    · exact hne rfl
    · exact hkinds p hp hq
    · exact hkinds p hq hp
    · exact hne rfl

theorem finish_eq_ok_iff {entries : List Entry} :
    l.finish = .ok entries ↔ (l.explicit.map (·.path)).Nodup ∧
      entries = Entry.complete l.explicit := by
  have hshared : sharedPath? l.explicit = none ↔ (l.explicit.map (·.path)).Nodup := by
    rw [sharedPath?_eq_none_iff]
    exact ⟨nodup_path_of_isChain l.sorted_explicit, fun h => (List.pairwise_map.mp h).isChain⟩
  rw [← hshared, finish, ← explicit]
  cases sharedPath? l.explicit with
  | some p => simp
  | none => simp [eq_comm]

end Listing

/-! ## Opening -/

/-- The archive that is opened with an index. -/
def Archive.ofIndex (data location : Bytes) (index : Std.TreeMap Path Record × List Entry) :
    Archive where
  data := data.toArray
  location := location
  records := index.1
  entries := index.2

theorem Archive.ofBytes_eq_ok_iff {data location : Bytes} {a : Archive} :
    ofBytes data location = .ok a ↔ ∃ x, index data.toArray = .ok x ∧
      a = ofIndex data location x := by
  rw [ofBytes]
  cases index data.toArray with
  | error fault => simp
  | ok x => simp [ofIndex, eq_comm]

section

variable {data location : Bytes} {l : Listing} {a : Archive}

/-- With the index of a listing an archive is opened if the listing can be finished. -/
theorem Archive.ofBytes_eq_ok_iff_of_index
    (hindex : index data.toArray = do return (l.records, ← l.finish)) :
    ofBytes data location = .ok a ↔ (l.explicit.map (·.path)).Nodup ∧
      a = ofIndex data location (l.records, Entry.complete l.explicit) := by
  rw [ofBytes_eq_ok_iff, hindex]
  simp only [Outcome.bind_eq_ok_iff, Outcome.pure_eq_ok_iff, Listing.finish_eq_ok_iff]
  constructor
  · rintro ⟨_, ⟨_, ⟨hnodup, rfl⟩, rfl⟩, rfl⟩
    exact ⟨hnodup, rfl⟩
  · rintro ⟨hnodup, rfl⟩
    exact ⟨_, ⟨_, ⟨hnodup, rfl⟩, rfl⟩, rfl⟩

/-- An archive is opened unless a path is listed in both kinds. -/
theorem Archive.exists_ofBytes_iff_of_index
    (hindex : index data.toArray = do return (l.records, ← l.finish)) :
    (∃ a, ofBytes data location = .ok a) ↔
      ∀ p, { path := p, kind := .directory } ∈ l.entries →
      { path := p, kind := .file } ∉ l.entries := by
  simp only [ofBytes_eq_ok_iff_of_index hindex, exists_and_left, Listing.nodup_explicit_iff]
  exact and_iff_left ⟨_, rfl⟩

end

/-- What the directory that the end record leads to says. -/
def directoryHeaders (data : Array UInt8) : List Listing.Item :=
  match endRecord data with
  | .ok (_, r) => Listing.headers data r.count.toNat r.directoryOffset.toNat
  | .error _ => []

/-- An archive that is opened has what its directory lists: entries with valid paths, and names as
long as a header can say. -/
theorem Archive.exists_listing_of_ofBytes {data location : Bytes} {a : Archive}
    (h : ofBytes data location = .ok a) : ∃ l : Listing,
      l.Shows (directoryHeaders data.toArray) ∧
        (∀ x ∈ directoryHeaders data.toArray, (entryOf x.2).path.fault? = none ∧
          x.2.length ≤ 65535) ∧
          l.finish = .ok a.entries ∧ a.records = l.records := by
  obtain ⟨x, hindex, rfl⟩ := ofBytes_eq_ok_iff.mp h
  rw [index] at hindex
  obtain ⟨⟨limit, r⟩, hend, hindex⟩ := Outcome.bind_eq_ok_iff.mp hindex
  have hitems : directoryHeaders data.toArray =
      Listing.headers data.toArray r.count.toNat r.directoryOffset.toNat := by
        rw [directoryHeaders, hend]
  dsimp only at hindex
  split at hindex
  · exact nomatch hindex
  · split at hindex
    · exact nomatch hindex
    · split at hindex
      · exact nomatch hindex
      · obtain ⟨l, hread, hlisting⟩ := Outcome.bind_eq_ok_iff.mp hindex
        obtain ⟨entries, hfinish, hx⟩ := Outcome.bind_eq_ok_iff.mp hlisting
        obtain rfl := Except.ok.inj hx
        obtain ⟨hl, hvalid⟩ := Listing.shows_empty.of_addAll (Listing.addAll_headers_of_read hread)
        rw [hitems]
        exact ⟨l, hl, fun x hx => ⟨(hvalid x hx).2, Listing.length_name_of_mem_headers hx⟩,
          hfinish, rfl⟩

/-- The entries of an archive that was opened: sorted and complete, with the files that it has. -/
structure Archive.Listed (a : Archive) : Prop where
  sorted : a.entries.Pairwise fun e e' => Bytes.le e.path e'.path = true
  closed : Entry.Closed a.entries
  names : ∀ e ∈ a.entries, (storedName e).length ≤ 65535
  contains_iff : ∀ p, a.contains p = true ↔ { path := p, kind := .file } ∈ a.entries

theorem Archive.listed_of_ofBytes {data location : Bytes} {a : Archive}
    (h : ofBytes data location = .ok a) : a.Listed := by
  obtain ⟨l, hl, hitems, hfinish, hrecords⟩ := exists_listing_of_ofBytes h
  obtain ⟨-, hentries⟩ := Listing.finish_eq_ok_iff.mp hfinish
  have hexplicit (e : Entry) : e ∈ l.explicit ↔ ∃ x ∈ directoryHeaders data.toArray,
      entryOf x.2 = e := by
    rw [Listing.mem_explicit, hl.entries, List.mem_reverse, List.mem_map]
  have hnames (e : Entry) (he : e ∈ l.explicit) : (storedName e).length ≤ 65535 := by
    obtain ⟨x, hx, rfl⟩ := (hexplicit e).mp he
    rw [storedName_entryOf]
    exact (hitems x hx).2
  refine ⟨?_, ?_, ?_, fun p => ?_⟩
  · rw [hentries]
    exact Entry.sort_sorted _
  · rw [hentries]
    exact Entry.closed_complete _
  · rw [hentries]
    intro e he
    rcases Entry.mem_complete_iff.mp he with he | ⟨hkind, hmissing⟩
    · exact hnames e he
    · -- A parent with its slash begins the path that it was found for.
      obtain ⟨-, e', he', hparent⟩ := ((Entry.missingDirectories_spec _).2 e.path).mp hmissing
      obtain ⟨rest, hrest⟩ := Path.mem_parents_iff.mp hparent
      have hlength : e'.path.length ≤ (storedName e').length := by
        obtain ⟨p, _ | _⟩ := e' <;> simp [storedName]
      have hname := hnames e' he'
      rw [hrest, List.length_append, List.length_cons] at hlength
      rw [storedName, hkind, List.length_append, List.length_singleton]
      omega
  · rw [Archive.contains, hrecords, hl.contains_iff, ← hexplicit, hentries, Entry.mem_complete_iff,
      or_iff_left (fun hdirectory => Entry.Kind.noConfusion hdirectory.1)]

end JarRepair.Zip

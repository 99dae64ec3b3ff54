import JarRepair.Proofs.Archive.Listing
import JarRepair.Proofs.Zip.Calls
import JarRepair.Proofs.Zip.Listing

/-! # A zip file is read back

What a writer has accepted is what a reader of the finished image lists and serves. The listing is
sorted and has the missing parent directories, and each file has the bytes that were added for
it. -/

namespace JarRepair.Zip

open JarRepair.Archive (Path)

/-! ## Indexing -/

/-- The sizes and the offset of an entry need no zip64. -/
def Fits (x : Nat × Writer.Entry) : Prop :=
  x.1 < 4294967295 ∧ x.2.payload.length < 4294967295 ∧ x.2.size < 4294967295

theorem toUInt32_ne_dword64 {n : Nat} (h : n < 4294967295) : n.toUInt32 ≠ dword64 := by
  intro heq
  have hnat := congrArg UInt32.toNat heq
  rw [toNat_toUInt32 (by omega), show dword64.toNat = 4294967295 from rfl] at hnat
  omega

variable {l : Listing} {offset : Nat}

theorem addEntry_eq {e : Writer.Entry} {p : Path} {kind : Archive.Entry.Kind}
    (hfits : Fits (offset, e)) (hpath : pathOf e.name = (p, kind)) (hvalid : p.fault? = none) :
    l.addEntry (offset, e) =
      match kind with
      | .directory => .ok { l with entries := { path := p, kind := .directory } :: l.entries }
      | .file =>
        if l.records.contains p then .error (.duplicate p)
        else .ok { records := l.records.insert p (recordOf offset e)
                   entries := { path := p, kind := .file } :: l.entries } := by
  obtain ⟨hoffset, hpayload, hsize⟩ := hfits
  have hplain : ¬ ((e.centralHeader offset).compressedSize = dword64 ∨
      (e.centralHeader offset).size = dword64 ∨ (e.centralHeader offset).offset = dword64) := by
    rintro (h | h | h)
    · exact toUInt32_ne_dword64 hpayload h
    · exact toUInt32_ne_dword64 hsize h
    · exact toUInt32_ne_dword64 hoffset h
  rw [Listing.addEntry, Listing.add, if_neg hplain]
  simp only [hpath, hvalid]
  cases kind <;> rfl

/-- The listing shows these calls, and has a record for each file at its offset. -/
structure Listing.Lists (l : Listing) (items : List (Nat × Call)) : Prop where
  entries : l.entries = (items.map (·.2.entry)).reverse
  records : ∀ p r, l.records[p]? = some r ↔
    ∃ offset data, (offset, .file p data) ∈ items ∧ r = recordOf offset (Call.file p data).stored

theorem Listing.lists_empty : Listing.Lists {} [] := ⟨rfl, fun p r => by simp⟩

theorem Listing.Lists.addEntry {items : List (Nat × Call)} (h : l.Lists items) {c : Call}
    (hfits : Fits (offset, c.stored)) (hvalid : c.path.fault? = none)
    (hnew : ∀ x ∈ items, x.2.name ≠ c.name) :
    ∃ l', l.addEntry (offset, c.stored) = .ok l' ∧ l'.Lists (items ++ [(offset, c)]) := by
  cases c with
  | directory p =>
    refine ⟨_, addEntry_eq hfits (pathOf_directory p) hvalid, ?_, fun q r => ?_⟩
    · rw [List.map_append, List.reverse_append, ← h.entries]
      rfl
    · simp [h.records]
  | file p data =>
    have hpath : pathOf (Call.file p data).stored.name = (p, .file) := by
      rw [Call.name_stored]
      exact pathOf_file hvalid
    have hnone : l.records[p]? = none := by
      rw [Option.eq_none_iff_forall_ne_some]
      intro r hr
      obtain ⟨offset', data', hx, -⟩ := (h.records p r).mp hr
      exact hnew _ hx rfl
    have hcontains : l.records.contains p = false := by
      rw [Std.TreeMap.contains_eq_isSome_getElem?, hnone, Option.isSome_none]
    have hadd := addEntry_eq (l := l) hfits hpath hvalid
    dsimp only at hadd
    rw [hcontains, if_neg (by simp)] at hadd
    refine ⟨_, hadd, ?_, fun q r => ?_⟩
    · rw [List.map_append, List.reverse_append, ← h.entries]
      rfl
    · rw [Std.TreeMap.getElem?_insert]
      by_cases hq : p = q
      · subst hq
        simp only [Std.ReflCmp.compare_self, if_true, Option.some.injEq, List.mem_append,
          List.mem_singleton, Prod.mk.injEq, Call.file.injEq, true_and]
        constructor
        · rintro rfl
          exact ⟨offset, data, .inr ⟨rfl, rfl⟩, rfl⟩
        · rintro ⟨offset', data', hx | ⟨rfl, rfl⟩, rfl⟩
          · exact absurd rfl (hnew _ hx)
          · rfl
      · rw [if_neg (by simpa using hq), h.records]
        simp [Ne.symm hq]

/-- The calls with the offsets of their entries if the first one is at `offset`. -/
def placed (offset : Nat) : List Call → List (Nat × Call)
  | [] => []
  | c :: calls => (offset, c) :: placed (offset + c.stored.localLength) calls

theorem map_snd_placed (offset : Nat) (calls : List Call) :
    (placed offset calls).map Prod.snd = calls := by
  induction calls generalizing offset with
  | nil => rfl
  | cons c calls ih => rw [placed, List.map_cons, ih]

theorem exists_mem_placed {offset : Nat} {calls : List Call} {c : Call} (hc : c ∈ calls) :
    ∃ offset', (offset', c) ∈ placed offset calls := by
  rw [← map_snd_placed offset calls] at hc
  obtain ⟨⟨offset', _⟩, hx, rfl⟩ := List.mem_map.mp hc
  exact ⟨offset', hx⟩

theorem offsetsFrom_map_stored (offset : Nat) (calls : List Call) :
    offsetsFrom offset (calls.map Call.stored) = (placed offset calls).map fun x =>
      (x.1, x.2.stored) := by
  induction calls generalizing offset with
  | nil => rfl
  | cons c calls ih => rw [placed, List.map_cons, List.map_cons, offsetsFrom, ih]

/-- Calls with different names are all listed. -/
theorem Listing.Lists.foldlM {items rest : List (Nat × Call)} (h : l.Lists items)
    (hfits : ∀ x ∈ rest, Fits (x.1, x.2.stored)) (hvalid : ∀ x ∈ rest, x.2.path.fault? = none)
    (hnodup : ((items ++ rest).map (·.2.name)).Nodup) :
    ∃ l', (rest.map fun x => (x.1, x.2.stored)).foldlM Listing.addEntry l = .ok l' ∧
      l'.Lists (items ++ rest) := by
  induction rest generalizing items l with
  | nil => exact ⟨l, rfl, by rwa [List.append_nil]⟩
  | cons x rest ih =>
    have hnew (y) (hy : y ∈ items) : y.2.name ≠ x.2.name := by
      rw [List.map_append, List.nodup_append] at hnodup
      exact hnodup.2.2 _ (List.mem_map_of_mem hy) _ List.mem_cons_self
    obtain ⟨l', hadd, hl'⟩ :=
      h.addEntry (hfits x List.mem_cons_self) (hvalid x List.mem_cons_self) hnew
    have hassoc : items ++ x :: rest = items ++ [x] ++ rest := by simp
    rw [hassoc] at hnodup ⊢
    obtain ⟨l'', hrest, hl''⟩ := ih hl' (fun y hy => hfits y (List.mem_cons_of_mem x hy))
      (fun y hy => hvalid y (List.mem_cons_of_mem x hy)) hnodup
    refine ⟨l'', ?_, hl''⟩
    rw [List.map_cons, List.foldlM_cons, hadd]
    exact hrest

/-! ## Reading back -/

theorem storedName_entry (c : Call) : storedName c.entry = c.name := by cases c <;> rfl

section

variable {accepted : List Call} {w : Writer}

/-- Where the entry of a call is. -/
theorem exists_of_mem_placed {x : Nat × Call} (hx : x ∈ placed 0 accepted) :
    x.2 ∈ accepted ∧ ∃ before after,
      body (accepted.map Call.stored) = before ++ (x.2.stored.localPart ++ after) ∧
      x.1 = before.length := by
  have hmem : (x.1, x.2.stored) ∈ offsetsFrom 0 (accepted.map Call.stored) := by
    rw [offsetsFrom_map_stored]
    exact List.mem_map_of_mem hx
  obtain ⟨before, after, hbody, hoffset⟩ := exists_of_mem_offsetsFrom hmem
  refine ⟨?_, before, after, hbody, by rw [hoffset, Nat.zero_add]⟩
  rw [← map_snd_placed 0 accepted]
  exact List.mem_map_of_mem hx

theorem Writer.Holds.fits (h : w.Holds accepted) (himage : (layout w.entries).length < 4294967296)
    {x : Nat × Call} (hx : x ∈ placed 0 accepted) : Fits (x.1, x.2.stored) := by
  obtain ⟨hc, before, after, hbody, hoffset⟩ := exists_of_mem_placed hx
  rw [length_layout, show EndRecord.length = 22 from rfl, h.entries, hbody, List.length_append,
    List.length_append, Entry.length_localPart, Entry.localLength] at himage
  refine ⟨by dsimp only; omega, by dsimp only; omega, ?_⟩
  obtain ⟨offset, _ | ⟨p, data⟩⟩ := x
  · show 0 < 4294967295
    omega
  · have hsize := h.size p data hc
    rw [show Writer.maxFile = 4294967294 from rfl] at hsize
    show (Call.file p data).stored.size < 4294967295
    rw [Call.size_stored_file]
    omega

/-- The directory of a finished image shows the calls and has the records of their files. -/
theorem Writer.Holds.exists_listing (h : w.Holds accepted) (hcount : accepted.length < 65535)
    (hnames : ∀ c ∈ accepted, c.name.length ≤ 65535)
    (himage : (layout w.entries).length < 4294967296) :
    ∃ l : Listing, l.Lists (placed 0 accepted) ∧ l.entries = (accepted.map Call.entry).reverse ∧
      index (layout w.entries).toArray = do return (l.records, ← l.finish) := by
  have hitems : withOffsets w.entries = (placed 0 accepted).map fun x => (x.1, x.2.stored) := by
    rw [withOffsets_eq, h.entries, offsetsFrom_map_stored]
  have hplaced : (([] ++ placed 0 accepted).map fun x : Nat × Call => x.2.name).Nodup := by
    have hmap := congrArg (List.map Call.name) (map_snd_placed 0 accepted)
    rw [List.map_map] at hmap
    rw [List.nil_append]
    exact hmap ▸ h.nodup
  obtain ⟨l, hfold, hl⟩ := Listing.lists_empty.foldlM (fun x hx => h.fits himage hx)
    (fun x hx => h.valid x.2 (exists_of_mem_placed hx).1) hplaced
  rw [List.nil_append] at hl
  have hentries : l.entries = (accepted.map Call.entry).reverse := by
    have hmap := congrArg (List.map Call.entry) (map_snd_placed 0 accepted)
    rw [List.map_map] at hmap
    rw [hl.entries]
    exact congrArg List.reverse hmap
  refine ⟨l, hl, hentries, ?_⟩
  rw [index_layout, hitems, hfold]
  · rfl
  · rwa [h.entries, List.length_map]
  · rw [h.entries]
    refine List.forall_mem_map.mpr fun c hc => ?_
    rw [Call.name_stored]
    exact hnames c hc
  · exact himage

theorem Writer.Holds.finish_eq (h : w.Holds accepted)
    (himage : (layout w.entries).length < 4294967296) :
    w.finish = .ok { w with finished := true } := by
  rw [length_layout] at himage
  rw [Writer.finish, h.unfinished, if_neg (by simp), if_neg]
  rw [h.bodyLength, Writer.maxImage, Nat.not_lt]
  have hlength : EndRecord.length = 22 := rfl
  omega

end

/-- The bytes that were added for a file are read from the image. -/
theorem Writer.Holds.read_eq {accepted : List Call} {w : Writer} (h : w.Holds accepted)
    (hnames : ∀ c ∈ accepted, c.name.length ≤ 65535)
    (himage : (layout w.entries).length < 4294967296) {a : Archive}
    (hdata : a.data = (layout w.entries).toArray) {p : Path} {data : Bytes}
    {offset : Nat} (hx : (offset, .file p data) ∈ placed 0 accepted)
    (hrecord : a.records[p]? = some (recordOf offset (Call.file p data).stored)) :
    a.read p = .ok data := by
  obtain ⟨hc, before, after, hbody, hoffset⟩ := exists_of_mem_placed hx
  obtain ⟨hbefore, hpayload, hsize⟩ := h.fits himage hx
  dsimp only at hoffset hbefore hpayload hsize
  subst hoffset
  have hparts : a.data = (before ++ ((Call.file p data).stored.localPart ++
      (after ++ (directory w.entries ++ (endOf w.entries.length (directory w.entries).length
        (body w.entries).length).encode)))).toArray := by
    rw [hdata, layout]
    simp only [h.entries, hbody, List.append_assoc]
  have hname : (Call.file p data).stored.name.length ≤ 65535 := by
    rw [Call.name_stored]
    exact hnames _ hc
  rw [Call.size_stored_file] at hsize
  have hcontent : a.content (recordOf before.length (Call.file p data).stored) = .ok data :=
    content_eq (Nat.le_of_lt hsize) (payload_eq hname hparts hbefore hpayload)
  rw [Archive.read, hrecord]
  simp only [hcontent, Except.mapError]

theorem Listing.Lists.contains_iff {accepted : List Call} (hl : l.Lists (placed 0 accepted))
    {p : Path} :
    l.records.contains p = true ↔ ∃ data, .file p data ∈ accepted := by
  rw [Std.TreeMap.contains_eq_isSome_getElem?, Option.isSome_iff_exists]
  simp only [hl.records]
  constructor
  · rintro ⟨_, offset, data, hx, -⟩
    exact ⟨data, (exists_of_mem_placed hx).1⟩
  · rintro ⟨data, hc⟩
    obtain ⟨offset, hx⟩ := exists_mem_placed hc
    exact ⟨_, offset, data, hx, rfl⟩

/-- An image is opened unless a path was accepted in both kinds, and has what was accepted. -/
theorem Writer.Holds.ofBytes_layout {accepted : List Call} {w : Writer} (h : w.Holds accepted)
    (hcount : accepted.length < 65535) (hnames : ∀ c ∈ accepted, c.name.length ≤ 65535)
    (himage : (layout w.entries).length < 4294967296) (location : Bytes) :
    ((∃ a, Archive.ofBytes (layout w.entries) location = .ok a) ↔ ∀ p,
      { path := p, kind := .directory } ∈ accepted.map Call.entry →
        { path := p, kind := .file } ∉ accepted.map Call.entry) ∧
    ∀ a, Archive.ofBytes (layout w.entries) location = .ok a →
      a.entries = Archive.Entry.complete (Archive.Entry.sort (accepted.map Call.entry)) ∧
      (∀ p, a.contains p = true ↔ ∃ data, .file p data ∈ accepted) ∧
      ∀ p data, .file p data ∈ accepted → a.read p = .ok data := by
  obtain ⟨l, hl, hentries, hindex⟩ := h.exists_listing hcount hnames himage
  have hnodup : (Archive.Entry.sort (accepted.map Call.entry)).Nodup := by
    refine List.Nodup.of_map storedName ?_
    rw [((Archive.Entry.sort_perm _).map _).nodup_iff, List.map_map,
      show storedName ∘ Call.entry = Call.name from funext storedName_entry]
    exact h.nodup
  have hexplicit : l.explicit = Archive.Entry.sort (accepted.map Call.entry) := by
    rw [Listing.explicit, hentries, List.reverse_reverse, dropRepeats_eq_destutter]
    exact List.destutter_of_isChain _ _ hnodup.isChain
  rw [Archive.exists_ofBytes_iff_of_index hindex]
  simp only [Archive.ofBytes_eq_ok_iff_of_index hindex, hentries, List.mem_reverse]
  refine ⟨trivial, ?_⟩
  rintro a ⟨-, rfl⟩
  refine ⟨congrArg Archive.Entry.complete hexplicit, fun p => hl.contains_iff, fun p data hc => ?_⟩
  obtain ⟨offset, hx⟩ := exists_mem_placed hc
  exact h.read_eq hnames himage rfl hx ((hl.records p _).mpr ⟨offset, data, hx, rfl⟩)

/-- What was accepted is read back: after a writer is finished, its image is opened with a sorted
listing of the entries and their missing parent directories, and with exactly the files that were
accepted, each with the bytes that were added for it. -/
theorem ofBytes_image_runAll {path : Volume.Path} {calls accepted : List Call} {w : Writer}
    (hrun : ({ path } : Writer).runAll calls = (accepted, w)) (hcount : accepted.length < 65535)
    (hnames : ∀ c ∈ accepted, c.name.length ≤ 65535)
    (hkinds : ∀ p data, .directory p ∈ accepted → .file p data ∉ accepted)
    (himage : (layout w.entries).length < 4294967296) (location : Bytes) :
    ∃ w' a, ∃ missing : List Path, w.finish = .ok w' ∧ Archive.ofBytes w'.image location = .ok a ∧
      a.entries.Pairwise (fun e e' => Bytes.le e.path e'.path = true) ∧
      a.entries.Perm
        (accepted.map Call.entry ++ missing.map fun path => { path, kind := .directory }) ∧
      missing.Nodup ∧
      (∀ q, q ∈ missing ↔ .directory q ∉ accepted ∧
        ∃ c ∈ accepted, ∃ rest, c.path = q ++ Path.slash :: rest) ∧
      (∀ p, a.contains p = true ↔ ∃ data, .file p data ∈ accepted) ∧
      ∀ p data, .file p data ∈ accepted → a.read p = .ok data := by
  have hw : w.Holds accepted := Writer.holds_of_runAll hrun
  obtain ⟨hopens, hopened⟩ := hw.ofBytes_layout hcount hnames himage location
  obtain ⟨a, ha⟩ := hopens.mpr (Call.kinds_apart_iff.mpr hkinds)
  obtain ⟨hentries, hcontains, hread⟩ := hopened a ha
  set sorted := Archive.Entry.sort (accepted.map Call.entry) with hsorted
  have hmem (e : Archive.Entry) : e ∈ sorted ↔ ∃ c ∈ accepted, c.entry = e := by
    rw [hsorted, (Archive.Entry.sort_perm _).mem_iff, List.mem_map]
  obtain ⟨hmissing, hmem_missing⟩ := Archive.Entry.missingDirectories_spec sorted
  refine ⟨{ w with finished := true }, a, Archive.Entry.missingDirectories sorted,
    hw.finish_eq himage, ha, ?_, ?_, hmissing, fun q => ?_, hcontains, hread⟩
  · rw [hentries]
    exact Archive.Entry.sort_sorted _
  · rw [hentries]
    exact (Archive.Entry.complete_perm sorted).trans ((Archive.Entry.sort_perm _).append_right _)
  · rw [hmem_missing, hmem]
    simp only [Call.entry_eq_directory_iff, exists_eq_right, hmem, Path.mem_parents_iff]
    refine and_congr_right fun _ => ⟨?_, ?_⟩
    · rintro ⟨_, ⟨c, hc, rfl⟩, rest, hrest⟩
      exact ⟨c, hc, rest, by rwa [Call.path_entry] at hrest⟩
    · rintro ⟨c, hc, rest, hrest⟩
      exact ⟨c.entry, ⟨c, hc, rfl⟩, rest, by rwa [Call.path_entry]⟩

/-- A directory, a file in another one that is not added, and a second file of that path. -/
def sampleCalls : List Call := [.directory "d", .file "a/b" "text", .file "a/b" "again"]

theorem ofBytes_image_sampleCalls : ∃ w' a, ∃ missing : List Path,
    (({ path := "o" } : Writer).runAll sampleCalls).2.finish = .ok w' ∧
      Archive.ofBytes w'.image [] = .ok a ∧
      a.entries.Perm ({ path := "d", kind := .directory } :: { path := "a/b", kind := .file } ::
        missing.map fun path => { path, kind := .directory }) ∧
      (∀ q, q ∈ missing ↔ q = "a") ∧ a.read "a/b" = .ok "text" := by
  -- The text is not compressed. This is found out first, and once: it takes two codes to be built.
  have hplain : Deflate.shorten? "text" = none := by decide +kernel
  obtain ⟨haccepted, himage⟩ : (({ path := "o" } : Writer).runAll sampleCalls).1 =
      [.directory "d", .file "a/b" "text"] ∧
        (layout (({ path := "o" } : Writer).runAll sampleCalls).2.entries).length < 4294967296 := by
    simp only [sampleCalls, Writer.runAll, Call.run, Writer.addFile, Writer.addNamed,
      ofFile_eq_plain hplain]
    decide +kernel
  generalize hrun : ({ path := "o" } : Writer).runAll sampleCalls = run at haccepted himage ⊢
  obtain ⟨accepted, w⟩ := run
  obtain rfl : accepted = [.directory "d", .file "a/b" "text"] := haccepted
  have hkinds (p : Path) (data : Bytes) (hdirectory : .directory p ∈
      [Call.directory "d", .file "a/b" "text"]) :
      .file p data ∉ [Call.directory "d", .file "a/b" "text"] := by
    have hne : ("d" : Bytes) ≠ "a/b" := by decide
    obtain rfl : p = "d" := by simpa using hdirectory
    simp [hne]
  obtain ⟨w', a, missing, hfinish, hopen, -, hentries, -, hmissing, -, hread⟩ :=
    ofBytes_image_runAll hrun (by decide) (by decide) hkinds himage []
  refine ⟨w', a, missing, hfinish, hopen, hentries, fun q => ?_, hread "a/b" "text" (by simp)⟩
  simp only [hmissing, ← Path.mem_parents_iff]
  have hd : Path.parents "d" = [] := by decide
  have hab : Path.parents "a/b" = [("a" : Bytes)] := by decide
  have hne : ("a" : Bytes) ≠ "d" := by decide
  simp only [List.mem_cons, List.not_mem_nil, or_false, exists_eq_or_imp, exists_eq_left,
    Call.path, hd, hab, false_or, reduceCtorEq, Call.directory.injEq]
  exact and_iff_right_of_imp fun hq => hq ▸ hne

end JarRepair.Zip

import JarRepair.Proofs.Volume.Path
import JarRepair.Proofs.Zip.RoundTrip

/-! # The sixteen bits of a field

The writer puts the length of a name and the number of entries into fields of sixteen bits. It
accepts no more entries than such a field can say, but one more than the reader takes for a number
of entries: the largest value stands for a zip64 record. The length of a name is not checked at
all. -/

namespace JarRepair.Zip

open JarRepair.Archive (Path)

/-! ## Where the headers are -/

/-- A local header with the name that follows it. -/
structure LocalAt (data : Bytes) (position : Nat) (h : LocalHeader) (name : Bytes) : Prop where
  header : LocalHeader.decode? (slice data.toArray position LocalHeader.length) = some h
  name : slice data.toArray (position + LocalHeader.length) name.length = name

/-- A central header with the name that follows it. -/
structure CentralAt (data : Bytes) (position : Nat) (h : CentralHeader) (name : Bytes) : Prop where
  header : CentralHeader.decode? (slice data.toArray position CentralHeader.length) = some h
  name : slice data.toArray (position + CentralHeader.length) name.length = name

section

variable {data before name after : Bytes}

theorem localAt_of_eq {h : LocalHeader} (hdata : data = before ++ (h.encode ++ (name ++ after))) :
    LocalAt data before.length h name := by
  refine ⟨?_, slice_of_eq (by rw [hdata, ← List.append_assoc]) ?_ rfl⟩
  · rw [slice_of_eq hdata rfl (LocalHeader.length_encode h).symm, LocalHeader.decode?_encode]
  · rw [List.length_append, LocalHeader.length_encode]

theorem centralAt_of_eq {h : CentralHeader}
    (hdata : data = before ++ (h.encode ++ (name ++ after))) :
    CentralAt data before.length h name := by
  refine ⟨?_, slice_of_eq (by rw [hdata, ← List.append_assoc]) ?_ rfl⟩
  · rw [slice_of_eq hdata rfl (CentralHeader.length_encode h).symm, CentralHeader.decode?_encode]
  · rw [List.length_append, CentralHeader.length_encode]

end

theorem body_append (entries rest : List Writer.Entry) :
    body (entries ++ rest) = body entries ++ body rest :=
  List.flatMap_append

theorem offsetsFrom_append (offset : Nat) (entries rest : List Writer.Entry) :
    offsetsFrom offset (entries ++ rest) =
      offsetsFrom offset entries ++ offsetsFrom (offset + (body entries).length) rest := by
  induction entries generalizing offset with
  | nil => rfl
  | cons e entries ih =>
    have hbody :
        offset + (body (e :: entries)).length = offset + e.localLength + (body entries).length := by
      rw [body, List.flatMap_cons, List.length_append, e.length_localPart, Nat.add_assoc, body]
    rw [List.cons_append, offsetsFrom, offsetsFrom, ih, List.cons_append, hbody]

/-- The directory of some entries begins the directory of more. -/
theorem directory_append (entries rest : List Writer.Entry) : directory (entries ++ rest) =
    directory entries ++ (offsetsFrom (body entries).length rest).flatMap fun x =>
      x.2.centralPart x.1 := by
  rw [directory, directory, withOffsets_eq, withOffsets_eq, offsetsFrom_append, List.flatMap_append,
    Nat.zero_add]

/-- Where the local header of the next entry is. -/
def localPosition (before : List Writer.Entry) : Nat := (body before).length

/-- Where the central header of the entry behind `before` is. -/
def centralPosition (entries before : List Writer.Entry) : Nat :=
  (body entries).length + (directory before).length

section

variable {entries before after : List Writer.Entry} {e : Writer.Entry}

theorem localAt_layout (h : entries = before ++ e :: after) :
    LocalAt (layout entries) (localPosition before) e.localHeader e.name := by
  have hbody : body entries = body before ++ (e.localPart ++ body after) := by
    rw [h, body_append]
    rfl
  have hlayout : layout entries = body before ++ (e.localHeader.encode ++ (e.name ++ (e.payload ++
      (body after ++ (directory entries ++
        (endOf entries.length (directory entries).length (body entries).length).encode))))) := by
    rw [layout, hbody, Writer.Entry.localPart]
    simp only [List.append_assoc]
  exact localAt_of_eq hlayout

theorem centralAt_layout (h : entries = before ++ e :: after) :
    CentralAt (layout entries) (centralPosition entries before)
      (e.centralHeader (localPosition before)) e.name := by
  obtain ⟨rest, hdirectory⟩ : ∃ rest, directory entries =
      directory before ++ (e.centralPart (localPosition before) ++ rest) := by
    rw [h, directory_append, offsetsFrom, List.flatMap_cons]
    exact ⟨_, rfl⟩
  have hlayout : layout entries = body entries ++ directory before ++
      ((e.centralHeader (localPosition before)).encode ++ (e.name ++ (rest ++
        (endOf entries.length (directory entries).length (body entries).length).encode))) := by
    rw [layout, hdirectory, Writer.Entry.centralPart]
    simp only [List.append_assoc]
  rw [centralPosition, ← List.length_append]
  exact centralAt_of_eq hlayout

end

/-! ## How many entries are accepted -/

namespace Writer

/-- The writer counts its entries, and has no more than the field can say. -/
structure Counted (w : Writer) : Prop where
  count : w.count = w.accepted.length
  le : w.count ≤ maxEntries

variable {w : Writer}

theorem Counted.accept (h : w.Counted) (e : Entry) : (w.accept e).2.Counted := by
  rw [Writer.accept]
  split
  · exact h
  · split
    · exact h
    · rename_i hcount
      split
      · exact h
      · exact ⟨congrArg (· + 1) h.count, Nat.not_le.mp hcount⟩

theorem Counted.addNamed (h : w.Counted) (p : Path) (name : Bytes) (e : Unit → Entry) :
    (w.addNamed p name e).2.Counted := by
  rw [Writer.addNamed]
  split
  · exact h
  · have hnames : ({ w with names := w.names.insert name } : Writer).Counted := ⟨h.count, h.le⟩
    exact hnames.accept (e ())

theorem Counted.run (h : w.Counted) (c : Call) : (c.run w).2.Counted := by
  cases c with
  | directory p =>
    rw [Call.run, addDirectory]
    split
    · exact h
    · exact h.addNamed ..
  | file p data =>
    rw [Call.run, addFile]
    split
    · exact h
    · split
      · exact h
      · exact h.addNamed ..

theorem Counted.runAll (h : w.Counted) (calls : List Call) : (w.runAll calls).2.Counted := by
  induction calls generalizing w with
  | nil => exact h
  | cons c calls ih =>
    have hc := h.run c
    rw [Writer.runAll]
    rcases hrun : c.run w with ⟨_ | _, w'⟩
    · rw [hrun] at hc
      exact ih hc
    · rw [hrun] at hc
      exact ih hc

/-- No more entries are accepted than the field can say. -/
theorem length_accepted_le {path : Volume.Path} {calls accepted : List Call}
    (hrun : ({ path } : Writer).runAll calls = (accepted, w)) : accepted.length ≤ maxEntries := by
  have hcounted : w.Counted := by
    have hall := Counted.runAll (w := { path }) ⟨rfl, Nat.zero_le _⟩ calls
    rwa [hrun] at hall
  have hlength := congrArg List.length (holds_of_runAll hrun).entries
  rw [Writer.entries, List.length_reverse, List.length_map, ← hcounted.count] at hlength
  rw [← hlength]
  exact hcounted.le

/-- Calls that are all accepted are the accepted ones. -/
theorem runAll_of_acceptAll {w w' : Writer} {calls : List Call} (h : w.acceptAll calls = .ok w') :
    w.runAll calls = (calls, w') := by
  induction calls generalizing w with
  | nil =>
    obtain rfl := Except.ok.inj h
    rfl
  | cons c calls ih =>
    rw [acceptAll, List.foldlM_cons] at h
    obtain ⟨w₁, hstep, hrest⟩ := Outcome.bind_eq_ok_iff.mp h
    rw [step] at hstep
    split at hstep
    · rename_i hrun
      obtain rfl := Except.ok.inj hstep
      rw [runAll, hrun]
      dsimp only
      rw [ih hrest]
    · cases hstep

end Writer

/-! ## When a zip64 record is missed -/

section

variable {l : Listing}

theorem Listing.add_ne_zip64 (h : CentralHeader) (name : Bytes) : l.add h name ≠ .error .zip64 := by
  rw [add]
  split
  · rintro ⟨⟩
  · dsimp only
    split
    · rintro ⟨⟩
    · split
      · rintro ⟨⟩
      · split <;> rintro ⟨⟩

theorem Listing.read_ne_zip64 (data : Array UInt8) (limit n index position : Nat) :
    read data limit n index position l ≠ .error .zip64 := by
  induction n generalizing index position l with
  | zero => rintro ⟨⟩
  | succ n ih =>
    rw [read]
    split
    · rintro ⟨⟩
    · split
      · rintro ⟨⟩
      · split
        · rintro ⟨⟩
        · split
          · rename_i fault hadd
            rintro ⟨⟩
            exact add_ne_zip64 _ _ hadd
          · exact ih _ _

theorem Listing.finish_ne_zip64 : l.finish ≠ .error .zip64 := by
  rw [finish]
  split <;> rintro ⟨⟩

/-- The end record alone says that there is a zip64 record. -/
theorem index_eq_zip64_iff {data : Array UInt8} {limit : Nat} {r : EndRecord}
    (hend : endRecord data = .ok (limit, r)) (hdisk : r.disk = 0)
    (hdirectoryDisk : r.directoryDisk = 0) :
    index data = .error .zip64 ↔
      r.count = word64 ∨ r.directorySize = dword64 ∨ r.directoryOffset = dword64 := by
  rw [index, hend]
  simp only [bind, Except.bind]
  rw [if_neg (by simp [hdisk, hdirectoryDisk])]
  by_cases hlarge : r.count = word64 ∨ r.directorySize = dword64 ∨ r.directoryOffset = dword64
  · rw [if_pos hlarge]
    exact iff_of_true rfl hlarge
  · rw [if_neg hlarge]
    refine iff_of_false ?_ hlarge
    split
    · rintro ⟨⟩
    · cases hread : Listing.read data limit r.count.toNat 0 r.directoryOffset.toNat {} with
      | error fault =>
        rintro ⟨⟩
        exact Listing.read_ne_zip64 _ _ _ _ _ hread
      | ok l =>
        dsimp only
        cases hfinish : l.finish with
        | error fault =>
          rintro ⟨⟩
          exact Listing.finish_ne_zip64 hfinish
        | ok entries => rintro ⟨⟩

end

/-! ## Finished images -/

section

variable {path : Volume.Path} {calls accepted : List Call} {w : Writer}

/-- A finished image of as many entries as the field can say is taken for a zip64 file, no other
is. -/
theorem index_layout_eq_zip64_iff {entries : List Writer.Entry} (hcount : entries.length ≤ 65535)
    (himage : (layout entries).length < 4294967296) :
    index (layout entries).toArray = .error .zip64 ↔ entries.length = 65535 := by
  rw [length_layout, show EndRecord.length = 22 from rfl] at himage
  have hend : endRecord (layout entries).toArray = .ok ((body entries ++ directory entries).length,
      endOf entries.length (directory entries).length (body entries).length) := endRecord_of_eq rfl
  rw [index_eq_zip64_iff hend rfl rfl]
  have hsize : (directory entries).length.toUInt32 ≠ dword64 := toUInt32_ne_dword64 (by omega)
  have hoffset : (body entries).length.toUInt32 ≠ dword64 := toUInt32_ne_dword64 (by omega)
  constructor
  · rintro (hmany | hlarge | hlarge)
    · have hnat : entries.length.toUInt16.toNat = word64.toNat := congrArg UInt16.toNat hmany
      rwa [toNat_toUInt16 hcount] at hnat
    · exact absurd hlarge hsize
    · exact absurd hlarge hoffset
  · intro hmany
    refine .inl (UInt16.toNat_inj.mp ?_)
    show entries.length.toUInt16.toNat = word64.toNat
    rw [toNat_toUInt16 hcount, hmany]
    rfl

/-- One entry is listed under as much of its name as the field says. -/
theorem index_layout_singleton {e : Writer.Entry} (himage : (layout [e]).length < 4294967296) :
    index (layout [e]).toArray = do
      let l ← ({} : Listing).add (e.centralHeader 0) (e.name.take (e.name.length % 65536))
      return (l.records, ← l.finish) := by
  have hat :
      CentralAt (layout [e]) (centralPosition [e] []) (e.centralHeader (localPosition [])) e.name :=
    centralAt_layout rfl
  have hposition : centralPosition [e] [] = (body [e]).length := Nat.add_zero _
  rw [hposition, show localPosition [] = 0 from rfl] at hat
  have hdirectory : (directory [e]).length = CentralHeader.length + e.name.length := by
    rw [directory, withOffsets_eq, offsetsFrom, offsetsFrom, List.flatMap_singleton,
      e.length_centralPart]
  have hcut : (e.centralHeader 0).nameLength.toNat = e.name.length % 65536 := UInt16.toNat_ofNat'
  have htrailer : (e.centralHeader 0).trailer = e.name.length % 65536 := hcut
  have hle : e.name.length % 65536 ≤ e.name.length := Nat.mod_le _ _
  have hname : slice (layout [e]).toArray ((body [e]).length + CentralHeader.length)
      (e.centralHeader 0).nameLength.toNat = e.name.take (e.name.length % 65536) := by
    rw [hcut, slice_take hle, hat.name]
  rw [length_layout, show EndRecord.length = 22 from rfl] at himage
  have hoffset : (body [e]).length.toUInt32.toNat = (body [e]).length := toNat_toUInt32 (by omega)
  have hsize : (directory [e]).length.toUInt32.toNat = (directory [e]).length :=
    toNat_toUInt32 (by omega)
  have hend : endRecord (layout [e]).toArray = .ok ((body [e] ++ directory [e]).length,
      endOf 1 (directory [e]).length (body [e]).length) := endRecord_of_eq rfl
  have hcount : (1 : Nat).toUInt16 ≠ word64 := by decide
  rw [index_of_endRecord hend rfl rfl hcount
    (toUInt32_ne_dword64 (by omega)) (toUInt32_ne_dword64 (by omega))]
  · show Listing.read _ _ 1 0 (body [e]).length.toUInt32.toNat {} >>= _ = _
    rw [hoffset, Listing.read, if_neg, hat.header]
    · dsimp only
      rw [if_neg, hname]
      · cases Listing.add (e.centralHeader 0) (e.name.take (e.name.length % 65536)) {} <;> rfl
      · rw [htrailer, List.length_append, hdirectory]
        omega
    · rw [List.length_append, hdirectory]
      omega
  · show (body [e]).length.toUInt32.toNat + (directory [e]).length.toUInt32.toNat ≤ _
    rw [hoffset, hsize, List.length_append]

/-- An image is opened with all entries if they are fewer than the field can say and their names are
not too long for theirs, and if no path is accepted in both kinds; otherwise it is not. -/
theorem Writer.Holds.exists_ofBytes_iff (h : w.Holds accepted) (hcount : accepted.length ≤ 65535)
    (himage : (layout w.entries).length < 4294967296) (location : Bytes) :
    (∃ a, Archive.ofBytes (layout w.entries) location = .ok a ∧ ∀ c ∈ accepted,
      c.entry ∈ a.entries) ↔
      accepted.length ≠ 65535 ∧ (∀ c ∈ accepted, c.name.length ≤ 65535) ∧
        ∀ p data, .directory p ∈ accepted → .file p data ∉ accepted := by
  have hlength : w.entries.length = accepted.length := by rw [h.entries, List.length_map]
  constructor
  · rintro ⟨a, ha, hall⟩
    have hfew : accepted.length ≠ 65535 := by
      intro hmany
      rw [← hlength] at hmany hcount
      obtain ⟨x, hindex, -⟩ := Archive.ofBytes_eq_ok_iff.mp ha
      rw [(index_layout_eq_zip64_iff hcount himage).mpr hmany] at hindex
      exact nomatch hindex
    have hnames (c : Call) (hc : c ∈ accepted) : c.name.length ≤ 65535 := by
      rw [← storedName_entry]
      exact (Archive.listed_of_ofBytes ha).names c.entry (hall c hc)
    exact ⟨hfew, hnames, Call.kinds_apart_iff.mp
      ((h.ofBytes_layout (by omega) hnames himage location).1.mp ⟨a, ha⟩)⟩
  · rintro ⟨hfew, hnames, hboth⟩
    obtain ⟨hopen, hentries⟩ := h.ofBytes_layout (by omega) hnames himage location
    obtain ⟨a, ha⟩ := hopen.mpr (Call.kinds_apart_iff.mpr hboth)
    refine ⟨a, ha, fun c hc => ?_⟩
    rw [(hentries a ha).1, Archive.Entry.mem_complete_iff, (Archive.Entry.sort_perm _).mem_iff]
    exact .inl (List.mem_map_of_mem hc)

/-- What the fields of a finished image say: the number of entries always, the length of a name
unless it is too long. The reader takes one number of entries for a zip64 record, and finds all
entries in any other case if no name is too long. -/
theorem fields_image_runAll (hrun : ({ path } : Writer).runAll calls = (accepted, w))
    (himage : (layout w.entries).length < 4294967296) (location : Bytes) :
    ∃ w', w.finish = .ok w' ∧
      (∀ before c after, accepted = before ++ c :: after →
        LocalAt w'.image (localPosition (before.map Call.stored)) c.stored.localHeader c.name ∧
        CentralAt w'.image (centralPosition w.entries (before.map Call.stored))
          (c.stored.centralHeader (localPosition (before.map Call.stored))) c.name ∧
        (c.stored.localHeader.nameLength.toNat = c.name.length ↔ c.name.length ≤ 65535) ∧
        ((c.stored.centralHeader (localPosition (before.map Call.stored))).nameLength.toNat =
          c.name.length ↔ c.name.length ≤ 65535)) ∧
      (∃ r, endRecord w'.image.toArray = .ok (w'.image.length - EndRecord.length, r) ∧
        r.count.toNat = accepted.length ∧ r.diskCount.toNat = accepted.length) ∧
      (index w'.image.toArray = .error .zip64 ↔ accepted.length = 65535) ∧
      ((∃ a, Archive.ofBytes w'.image location = .ok a ∧ ∀ c ∈ accepted, c.entry ∈ a.entries) ↔
        accepted.length ≠ 65535 ∧ (∀ c ∈ accepted, c.name.length ≤ 65535) ∧
          ∀ p data, .directory p ∈ accepted → .file p data ∉ accepted) := by
  have hw : w.Holds accepted := Writer.holds_of_runAll hrun
  have hcount : accepted.length ≤ 65535 := Writer.length_accepted_le hrun
  have hlength : w.entries.length = accepted.length := by rw [hw.entries, List.length_map]
  refine ⟨{ w with finished := true }, hw.finish_eq himage, ?_, ?_, ?_,
    hw.exists_ofBytes_iff hcount himage location⟩
  · rintro before c after rfl
    have hentries : w.entries = before.map Call.stored ++ c.stored :: after.map Call.stored := by
      rw [hw.entries, List.map_append, List.map_cons]
    rw [← c.name_stored]
    refine ⟨localAt_layout hentries, centralAt_layout hentries, ?_, ?_⟩
    · exact toNat_toUInt16_eq_iff
    · exact toNat_toUInt16_eq_iff
  · have hend :
        endRecord (layout w.entries).toArray = .ok ((body w.entries ++ directory w.entries).length,
        endOf w.entries.length (directory w.entries).length (body w.entries).length) :=
          endRecord_of_eq rfl
    have hposition : (layout w.entries).length - EndRecord.length =
        (body w.entries ++ directory w.entries).length := by
      rw [length_layout, Nat.add_sub_cancel, List.length_append]
    have hfield : w.entries.length.toUInt16.toNat = accepted.length := by
      rw [hlength, toNat_toUInt16 hcount]
    rw [← hposition] at hend
    exact ⟨_, hend, hfield, hfield⟩
  · rw [← hlength] at hcount ⊢
    exact index_layout_eq_zip64_iff hcount himage

end

/-! ## Images that are not read back -/

namespace Sample

/-- A path of small letters is valid. -/
theorem fault?_of_letters {p : Path} (hne : p ≠ [])
    (hletters : ∀ b ∈ p, 97 ≤ b.toNat ∧ b.toNat ≤ 122) :
    p.fault? = none := by
  have hmem {b : UInt8} (hb : ¬ (97 ≤ b.toNat ∧ b.toNat ≤ 122)) : b ∉ p :=
    fun h => hb (hletters b h)
  have hdot (dots : Bytes) (h : Bytes.char '.' ∈ dots) : p ≠ dots := by
    rintro rfl
    exact hmem (by decide) h
  refine Path.fault?_eq_none_iff.mpr ⟨hmem (by decide), ?_⟩
  rw [Path.components,
    Bytes.split_of_notMem (hmem (by decide)), List.forall_mem_singleton, Path.isProper]
  simp only [Bool.and_eq_true, bne_iff_ne]
  exact ⟨⟨hne, hdot _ (by decide)⟩, hdot _ (by decide)⟩

def letter (k : Nat) : UInt8 := (97 + k).toUInt8

theorem toNat_letter {k : Nat} (hk : k < 16) : (letter k).toNat = 97 + k := toNat_toUInt8 (by omega)

/-- The digits of a number below 65536 as letters. -/
def letters (i : Nat) : Path :=
  [letter (i / 4096), letter (i / 256 % 16), letter (i / 16 % 16), letter (i % 16)]

theorem letters_injOn {i j : Nat} (hi : i < 65536) (hj : j < 65536) (h : letters i = letters j) :
    i = j := by
  have hdigit {k k' : Nat} (hk : k < 16) (hk' : k' < 16) (h : letter k = letter k') : k = k' := by
    have hnat := congrArg UInt8.toNat h
    rw [toNat_letter hk, toNat_letter hk'] at hnat
    omega
  simp only [letters, List.cons.injEq, and_true] at h
  obtain ⟨h₃, h₂, h₁, h₀⟩ := h
  have hd₃ := hdigit (by omega) (by omega) h₃
  have hd₂ := hdigit (by omega) (by omega) h₂
  have hd₁ := hdigit (by omega) (by omega) h₁
  have hd₀ := hdigit (by omega) (by omega) h₀
  omega

/-- As many directories as a writer accepts. -/
def crowd : List Call := (List.range 65535).map fun i => .directory (letters i)

/-- A directory whose stored name is one byte longer than the field can say, and one more. -/
def long : Call := .directory (List.replicate 65536 (letter 0))

theorem length_crowd : crowd.length = 65535 := by rw [crowd, List.length_map, List.length_range]

theorem valid_crowd : ∀ c ∈ crowd, c.path.fault? = none := by
  refine List.forall_mem_map.mpr fun i hi => ?_
  rw [List.mem_range] at hi
  refine fault?_of_letters nofun fun b (hb : b ∈ letters i) => ?_
  simp only [letters, List.mem_cons, List.not_mem_nil, or_false] at hb
  rcases hb with rfl | rfl | rfl | rfl <;> rw [toNat_letter (by omega)] <;> omega

theorem nodup_crowd : (crowd.map Call.name).Nodup := by
  rw [crowd, List.map_map]
  refine List.nodup_range.map_on fun i hi j hj h => ?_
  rw [List.mem_range] at hi hj
  exact letters_injOn (by omega) (by omega) (List.append_cancel_right h)

theorem weight_crowd : (crowd.map Call.weight).sum = 65535 * 86 := by
  have hconst : Call.weight ∘ (fun i => Call.directory (letters i)) = fun _ => 86 := rfl
  have hsum (n : Nat) : (List.replicate n 86).sum = n * 86 := by
    rw [List.sum_replicate, Nat.nsmul_eq_mul]
  rw [crowd, List.map_map, hconst, List.map_const', List.length_range, hsum]

theorem exists_runAll_crowd : ∃ w, ({ path := "o" } : Writer).runAll crowd = (crowd, w) ∧
    w.entries.length = 65535 ∧ (layout w.entries).length < 4294967296 := by
  obtain ⟨w, hrun, himage⟩ := Writer.exists_acceptAll_of_weight "o" crowd valid_crowd nodup_crowd
    (Nat.le_of_eq length_crowd) (by rw [weight_crowd]; decide)
  refine ⟨w, Writer.runAll_of_acceptAll hrun, ?_, himage⟩
  rw [((Writer.holds_fresh "o").acceptAll hrun).entries, List.nil_append, List.length_map,
    length_crowd]

theorem length_name_long : long.name.length = 65537 := by
  rw [long, Call.name, List.length_append, List.length_replicate, List.length_singleton]

theorem take_name_long : long.name.take 1 = "a" := by
  rw [long, Call.name, List.replicate_succ]
  rfl

theorem valid_replicate (n : Nat) : Path.fault? (List.replicate (n + 1) (letter 0)) = none := by
  refine fault?_of_letters nofun fun b hb => ?_
  rw [List.eq_of_mem_replicate hb]
  decide

theorem exists_runAll_long : ∃ w, ({ path := "o" } : Writer).runAll [long] = ([long], w) ∧
    w.entries = [long.stored] ∧ (layout w.entries).length < 4294967296 := by
  have hvalid : long.path.fault? = none := valid_replicate 65535
  have hweight : ([long].map Call.weight).sum = 76 + 2 * 65537 := by
    rw [List.map_singleton, List.sum_singleton, Call.weight, length_name_long]
    rfl
  obtain ⟨w, hrun, himage⟩ := Writer.exists_acceptAll_of_weight "o" [long]
    (List.forall_mem_singleton.mpr hvalid) (List.nodup_singleton _)
    (by rw [List.length_singleton]; decide)
    (by rw [hweight]; decide)
  refine ⟨w, Writer.runAll_of_acceptAll hrun, ?_, himage⟩
  rw [((Writer.holds_fresh "o").acceptAll hrun).entries]
  rfl

/-- Under one letter a listing shows a file. -/
theorem exists_add_long : ∃ l, ({} : Listing).add (long.stored.centralHeader 0) "a" = .ok l ∧
    l.finish = .ok [{ path := "a", kind := .file }] := by
  let x : Listing.Item := (long.stored.centralHeader 0, "a")
  have hzero : (0 : Nat).toUInt32 ≠ dword64 := by decide
  have hplain : x.1.Plain := ⟨hzero, hzero, hzero⟩
  have hentry : entryOf x.2 = { path := "a", kind := .file } := by decide
  refine ⟨({} : Listing).put x, Listing.add_eq_ok_iff.mpr ⟨hplain, ?_, fun _ => ?_, rfl⟩, ?_⟩
  · rw [hentry]
    decide
  · simp
  · have hexplicit : (({} : Listing).put x).explicit = [{ path := "a", kind := .file }] := by
      show dropRepeats (Archive.Entry.sort [entryOf x.2]) = _
      rw [hentry]
      decide +kernel
    rw [Listing.finish_eq_ok_iff, hexplicit]
    exact ⟨List.nodup_singleton _, by decide +kernel⟩

/-- A directory is not accepted twice. -/
def pair : List Call := [.directory "d", .directory "e", .directory "d"]

theorem runAll_pair :
    (({ path := "o" } : Writer).runAll pair).1 = [.directory "d", .directory "e"] ∧
    (layout (({ path := "o" } : Writer).runAll pair).2.entries).length < 4294967296 := by
  decide +kernel

end Sample

/-- Of three calls two are accepted. Their headers are found, and both are listed. -/
theorem fields_image_pair : ∃ w w' : Writer,
    ({ path := "o" } : Writer).runAll Sample.pair = ([.directory "d", .directory "e"], w) ∧
    w.finish = .ok w' ∧ LocalAt w'.image 32 (Call.directory "e").stored.localHeader "e/" ∧
    (∃ r, endRecord w'.image.toArray = .ok (w'.image.length - EndRecord.length, r) ∧
      r.count.toNat = 2) ∧
    ∃ a, Archive.ofBytes w'.image [] = .ok a ∧ { path := "e", kind := .directory } ∈ a.entries := by
  obtain ⟨haccepted, himage⟩ := Sample.runAll_pair
  generalize hrun : ({ path := "o" } : Writer).runAll Sample.pair = run at haccepted himage
  obtain ⟨accepted, w⟩ := run
  obtain rfl : accepted = [.directory "d", .directory "e"] := haccepted
  obtain ⟨w', hfinish, hheaders, ⟨r, hend, hcount, -⟩, -, hopen⟩ :=
    fields_image_runAll hrun himage []
  obtain ⟨a, ha, hall⟩ := hopen.mpr ⟨by decide, by decide, by simp⟩
  exact ⟨w, w', rfl, hfinish, (hheaders [.directory "d"] (.directory "e") [] rfl).1,
    ⟨r, hend, hcount⟩, a, ha, hall (.directory "e") (by simp)⟩

/-- A writer may accept as many entries as stand for a zip64 record, and a name of which but the
first letter is read back, as the name of a file. -/
theorem image_not_read_back :
    (∃ w w' : Writer, ({ path := "o" } : Writer).runAll Sample.crowd = (Sample.crowd, w) ∧
      w.finish = .ok w' ∧ w'.image.length < 4294967296 ∧ index w'.image.toArray = .error .zip64) ∧
    ∃ w w' : Writer, ∃ a, ({ path := "o" } : Writer).runAll [Sample.long] = ([Sample.long], w) ∧
      w.finish = .ok w' ∧ w'.image.length < 4294967296 ∧ Archive.ofBytes w'.image [] = .ok a ∧
      a.entries = [{ path := "a", kind := .file }] := by
  constructor
  · obtain ⟨w, hrun, hlength, himage⟩ := Sample.exists_runAll_crowd
    have hindex := (index_layout_eq_zip64_iff (Nat.le_of_eq hlength) himage).mpr hlength
    exact ⟨w, _, hrun, (Writer.holds_of_runAll hrun).finish_eq himage, himage, hindex⟩
  · obtain ⟨w, hrun, hentries, himage⟩ := Sample.exists_runAll_long
    have hname : Sample.long.stored.name.take (Sample.long.stored.name.length % 65536) = "a" := by
      rw [Sample.long.name_stored, Sample.length_name_long]
      exact Sample.take_name_long
    obtain ⟨l, hadd, hlisting⟩ := Sample.exists_add_long
    have hindex :
        index (layout w.entries).toArray = .ok (l.records, [{ path := "a", kind := .file }]) := by
      rw [hentries] at himage ⊢
      rw [index_layout_singleton himage, hname, hadd]
      exact congrArg (· >>= fun entries => pure (l.records, entries)) hlisting
    exact ⟨w, _, _, hrun, (Writer.holds_of_runAll hrun).finish_eq himage, himage,
      Archive.ofBytes_eq_ok_iff.mpr ⟨_, hindex, rfl⟩, rfl⟩

end JarRepair.Zip

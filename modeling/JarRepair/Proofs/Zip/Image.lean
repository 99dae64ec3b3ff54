import JarRepair.Proofs.Zip.Layout
import JarRepair.Proofs.Zip.Listing

/-! # Zip files of any writer

A zip file on one disk may have anything before its entries and between them, and its local headers
may say anything about an entry but how long its local name and extra field are. The reader trusts
the directory for all the rest, so what it lists and serves is determined by the central headers,
the lengths of the local names and extra fields, and the stored data. -/

namespace JarRepair.Zip

open JarRepair.Archive (Path Entry)

/-! ## Entries -/

/-- An entry as the directory has it: a central header, and what follows it. -/
structure Member where
  entry : Entry
  /-- What a file has in it. -/
  content : Bytes := []
  header : CentralHeader
  extra : Bytes := []
  comment : Bytes := []
  valid : entry.path.fault? = none
  plain : header.Plain
  nameLength : header.nameLength.toNat = (storedName entry).length
  extraLength : header.extraLength.toNat = extra.length
  commentLength : header.commentLength.toNat = comment.length

namespace Member

def encode (m : Member) : Bytes := m.header.encode ++ (storedName m.entry ++ (m.extra ++ m.comment))

/-- What the directory says of the entry. -/
def item (m : Member) : Listing.Item := (m.header, storedName m.entry)

/-- The payload is the content as it is, or starts with a complete stream for it. -/
inductive Packs (m : Member) (payload : Bytes) : Prop where
  | stored (method : m.header.method = Method.stored) (payload_eq : payload = m.content)
  | deflated (method : m.header.method = Method.deflated)
      (stream : Deflate.Format.Stream payload m.content)

/-- The payload is behind a local header at the offset that the directory gives. Two numbers of that
header are true: how long the local name and the local extra field are. -/
structure Places (m : Member) (data payload : Bytes) (h : LocalHeader) (name extra : Bytes) :
    Prop where
  at_offset : ∃ before after, data = before ++ (h.encode ++ name ++ extra ++ payload ++ after) ∧
    m.header.offset.toNat = before.length
  nameLength : h.nameLength.toNat = name.length
  extraLength : h.extraLength.toNat = extra.length

/-- The content is in a zip file as the directory says: it is not encrypted, and the sizes and the
checksum are true. -/
structure In (m : Member) (data : Bytes) : Prop where
  open_ : m.header.flags &&& flagEncrypted = 0
  size : m.header.size.toNat = m.content.length
  crc : m.header.crc = Crc32.checksum m.content
  placed : ∃ payload h name extra, m.Packs payload ∧ m.Places data payload h name extra ∧
    m.header.compressedSize.toNat = payload.length

end Member

/-! ## Files -/

/-- A zip file on one disk: anything, the directory, and the end record with its comment. -/
structure Image where
  body : Bytes
  members : List Member
  last : EndRecord
  comment : Bytes := []

namespace Image

def entries (i : Image) : List Entry := i.members.map Member.entry

def directory (i : Image) : Bytes := i.members.flatMap Member.encode

def bytes (i : Image) : Bytes := i.body ++ (i.directory ++ (i.last.encode ++ i.comment))

/-- Where the end record is. -/
def endPosition (i : Image) : Nat := i.body.length + i.directory.length

/-- The end record says where the directory is and how many entries it has, and the search from the
back meets no signature before this one. Directories may be repeated, files may not, and each file
is there. -/
structure Valid (i : Image) : Prop where
  disk : i.last.disk = 0
  directoryDisk : i.last.directoryDisk = 0
  count : i.last.count.toNat = i.members.length
  few : i.members.length < 65535
  directorySize : i.last.directorySize.toNat = i.directory.length
  directorySize_ne : i.last.directorySize ≠ dword64
  directoryOffset : i.last.directoryOffset.toNat = i.body.length
  directoryOffset_ne : i.last.directoryOffset ≠ dword64
  comment : i.comment.length ≤ EndRecord.maxComment
  signature : ∀ j, i.endPosition < j → j + EndRecord.length ≤ i.bytes.length →
    dwordAt i.bytes j ≠ EndRecord.signature
  once : i.members.Pairwise fun m m' => m.entry = m'.entry → m'.entry.kind = .directory
  stored : ∀ m ∈ i.members, m.entry.kind = .file → m.In i.bytes

end Image

/-! ## The search for the end record -/

/-- The search ends at the last position that has an end record. -/
theorem findEnd?_eq {data : Array UInt8} {n i position : Nat} {r : EndRecord} (hle : position ≤ i)
    (hn : i - position < n)
    (hfound : EndRecord.decode? (slice data position EndRecord.length) = some r)
    (hlater : ∀ j, position < j → j ≤ i →
      EndRecord.decode? (slice data j EndRecord.length) = none) :
    findEnd? data n i = some (position, r) := by
  induction n generalizing i with
  | zero => omega
  | succ n ih =>
    rw [findEnd?]
    rcases Nat.eq_or_lt_of_le hle with rfl | hlt
    · rw [hfound]
    · rw [hlater i hlt (Nat.le_refl i)]
      exact ih (by omega) (by omega) fun j hj hji => hlater j hj (by omega)

/-- Behind the end record there are as many positions to search as the comment has bytes. -/
theorem forall_behind {P : Nat → Prop} {size position n : Nat}
    (hsize : size = position + EndRecord.length + n) (h : ∀ k < n, P (position + 1 + k)) (j : Nat)
    (hj : position < j) (hbound : j + EndRecord.length ≤ size) :
    P j := by
  have hk := h (j - (position + 1)) (by omega)
  rwa [show position + 1 + (j - (position + 1)) = j by omega] at hk

/-- The end record is found behind a comment, unless a signature is met before it. -/
theorem endRecord_of_comment {data before comment : Bytes} {r : EndRecord}
    (hdata : data = before ++ (r.encode ++ comment))
    (hcomment : comment.length ≤ EndRecord.maxComment)
    (hsignature : ∀ j, before.length < j → j + EndRecord.length ≤ data.length →
      dwordAt data j ≠ EndRecord.signature) : endRecord data.toArray = .ok (before.length, r) := by
  have hlength : data.length = before.length + EndRecord.length + comment.length := by
    rw [hdata, List.length_append, List.length_append, EndRecord.length_encode, Nat.add_assoc]
  have hfound : slice data.toArray before.length EndRecord.length = r.encode :=
    slice_of_eq hdata rfl (EndRecord.length_encode _).symm
  have hlater (j : Nat) (hj : before.length < j) (hji : j ≤ data.length - EndRecord.length) :
      EndRecord.decode? (slice data.toArray j EndRecord.length) = none := by
    rw [EndRecord.decode?, if_neg]
    rintro ⟨-, hat⟩
    rw [dwordAt_slice (by decide), Nat.add_zero] at hat
    exact hsignature j hj (by omega) hat
  rw [endRecord, List.size_toArray, if_neg (by omega)]
  dsimp only
  rw [findEnd?_eq (by omega) (by omega) (by rw [hfound, EndRecord.decode?_encode]) hlater]

namespace Image

variable {i : Image}

theorem Valid.endRecord_eq (h : i.Valid) :
    endRecord i.bytes.toArray = .ok (i.endPosition, i.last) := by
  have hposition : i.endPosition = (i.body ++ i.directory).length := (List.length_append ..).symm
  have hsignature := h.signature
  rw [hposition] at hsignature ⊢
  exact endRecord_of_comment (List.append_assoc ..).symm h.comment hsignature

end Image

/-! ## Reading the directory -/

theorem Member.length_encode (m : Member) :
    m.encode.length = CentralHeader.length + m.header.trailer := by
  simp only [encode, List.length_append, CentralHeader.length_encode, CentralHeader.trailer,
    m.nameLength, m.extraLength, m.commentLength, Nat.add_assoc]

/-- The members are added to the listing in turn. -/
theorem read_members {data before after : Bytes} {members : List Member} {limit : Nat}
    (hdata : data = before ++ (members.flatMap Member.encode ++ after))
    (hlimit : before.length + (members.flatMap Member.encode).length ≤ limit) (index : Nat)
    (l : Listing) :
    Listing.read data.toArray limit members.length index before.length l =
      l.addAll (members.map Member.item) := by
  induction members generalizing before index l with
  | nil => rfl
  | cons m members ih =>
    rw [List.flatMap_cons, List.append_assoc] at hdata
    rw [List.flatMap_cons, List.length_append, m.length_encode] at hlimit
    have hparts := hdata
    rw [Member.encode, List.append_assoc] at hparts
    have hheader : slice data.toArray before.length CentralHeader.length = m.header.encode :=
      slice_of_eq hparts rfl (CentralHeader.length_encode _).symm
    have hname :
        slice data.toArray (before.length + CentralHeader.length) m.header.nameLength.toNat =
        storedName m.entry := by
      rw [← List.append_assoc, List.append_assoc (storedName m.entry)] at hparts
      refine slice_of_eq hparts ?_ m.nameLength
      rw [List.length_append, CentralHeader.length_encode]
    rw [List.length_cons, Listing.read, if_neg (by omega), hheader, CentralHeader.decode?_encode]
    dsimp only
    rw [if_neg (by omega), hname, List.map_cons, Listing.addAll, List.foldlM_cons]
    cases hadd : l.add m.header (storedName m.entry) with
    | error fault => simp only [Member.item, hadd]; rfl
    | ok l' =>
      have hposition : before.length + CentralHeader.length + m.header.trailer =
          (before ++ m.encode).length := by
        rw [List.length_append, m.length_encode, Nat.add_assoc]
      simp only [Member.item, hadd]
      rw [hposition]
      refine ih ?_ ?_ (index + 1) l'
      · rw [hdata, List.append_assoc]
      · rw [List.length_append, m.length_encode]
        omega

/-! ## Data -/

theorem Member.Places.payload_eq {m : Member} {a : Archive} {data payload name extra : Bytes}
    {h : LocalHeader} (hplaces : m.Places data payload h name extra) (hdata : a.data = data.toArray)
    (hsize : m.header.compressedSize.toNat = payload.length) :
    a.payload m.header.record = .ok payload := by
  obtain ⟨⟨before, after, hparts, hoffset⟩, hname, hextra⟩ := hplaces
  have hparts₁ : data = before ++ (h.encode ++ (name ++ (extra ++ (payload ++ after)))) := by
    rw [hparts]
    simp only [List.append_assoc]
  have hheader : slice a.data before.length LocalHeader.length = h.encode := by
    rw [hdata]
    exact slice_of_eq hparts₁ rfl (LocalHeader.length_encode _).symm
  have hlength : (before ++ (h.encode ++ name ++ extra)).length =
      before.length + LocalHeader.length + name.length + extra.length := by
    simp only [List.length_append, LocalHeader.length_encode, Nat.add_assoc]
  have hparts₂ : data = before ++ (h.encode ++ name ++ extra) ++ (payload ++ after) := by
    rw [hparts]
    simp only [List.append_assoc]
  have hslice : slice a.data (before.length + LocalHeader.length + name.length + extra.length)
      payload.length = payload := by
    rw [hdata]
    exact slice_of_eq hparts₂ hlength.symm rfl
  have hbounds : before.length + LocalHeader.length + name.length + extra.length + payload.length ≤
      a.data.size := by
    rw [hdata, List.size_toArray, hparts₂, ← hlength]
    simp only [List.length_append]
    omega
  have hstart : m.header.record.offset.toNat = before.length := hoffset
  have hcompressed : m.header.record.compressedSize.toNat = payload.length := hsize
  rw [Archive.payload, hstart, hheader, LocalHeader.decode?_encode]
  dsimp only
  rw [hname, hextra, hcompressed, if_neg (Nat.not_lt.mpr hbounds), hslice]

/-- A file whose data is where the directory says is read. -/
theorem Member.In.content_eq {m : Member} {a : Archive} {data : Bytes} (h : m.In data)
    (hdata : a.data = data.toArray) : a.content m.header.record = .ok m.content := by
  obtain ⟨payload, _, _, _, hpacks, hplaces, hcompressed⟩ := h.placed
  have hpayload := hplaces.payload_eq hdata hcompressed
  cases hpacks with
  | stored hmethod heq =>
    subst heq
    refine content_stored h.open_ hpayload hmethod ?_ h.crc.symm
    exact UInt32.toNat_inj.mp (hcompressed.trans h.size.symm)
  | deflated hmethod hstream =>
    exact content_deflated h.open_ hpayload hmethod
      (Deflate.inflateExactly_eq_ok_iff.mpr ⟨hstream, h.size⟩) h.crc.symm

/-! ## Reading the file -/

theorem Archive.read_eq_of_record {a : Archive} {p : Path} {r : Record}
    (h : a.records[p]? = some r) :
    a.read p = (a.content r).mapError fun fault => (Error.format fault.text).withEntry p := by
  rw [read, h]

namespace Image

variable {i : Image}

theorem entryOf_item (m : Member) : entryOf m.item.2 = m.entry := entryOf_storedName m.valid

/-- The index of a zip file has what its directory says, if the listing can be finished. -/
theorem Valid.exists_index (h : i.Valid) : ∃ l : Listing, l.Shows (i.members.map Member.item) ∧
    index i.bytes.toArray = do return (l.records, ← l.finish) := by
  have hvalid : ∀ x ∈ i.members.map Member.item, x.1.Plain ∧ (entryOf x.2).path.fault? = none := by
    refine List.forall_mem_map.mpr fun m _ => ⟨m.plain, ?_⟩
    rw [entryOf_item]
    exact m.valid
  have honce : ([] ++ i.members.map Member.item).Pairwise fun x y : Listing.Item =>
      entryOf x.2 = entryOf y.2 → (entryOf y.2).kind = Entry.Kind.directory := by
    rw [List.nil_append, List.pairwise_map]
    simpa only [entryOf_item] using h.once
  obtain ⟨l, hadd, hl⟩ := Listing.shows_empty.exists_addAll hvalid honce
  have hread :
      Listing.read i.bytes.toArray i.endPosition i.members.length 0 i.body.length {} = .ok l := by
    rw [← hadd]
    exact read_members rfl (Nat.le_refl _) 0 {}
  have hcount : i.last.count ≠ word64 := by
    intro hmany
    have hfew := h.few
    rw [← h.count, hmany] at hfew
    exact absurd hfew (by decide)
  have hbounds : i.last.directoryOffset.toNat + i.last.directorySize.toNat ≤ i.endPosition := by
    rw [h.directoryOffset, h.directorySize, endPosition]
  refine ⟨l, hl, ?_⟩
  rw [index_of_endRecord h.endRecord_eq h.disk h.directoryDisk hcount h.directorySize_ne
    h.directoryOffset_ne hbounds, h.count, h.directoryOffset, hread]
  rfl

/-- A zip file is opened with that index unless it uses one path for a file and for a directory. -/
theorem Valid.exists_opened (h : i.Valid)
    (hkinds : ∀ p, { path := p, kind := .directory } ∈ i.entries →
      { path := p, kind := .file } ∉ i.entries) :
    ∃ (l : Listing) (entries : List Entry), l.Shows (i.members.map Member.item) ∧
      index i.bytes.toArray = .ok (l.records, entries) := by
  obtain ⟨l, hl, hindex⟩ := h.exists_index
  have hentries (e : Entry) : e ∈ l.entries ↔ e ∈ i.entries := by
    rw [hl.entries, List.mem_reverse, List.map_map, entries]
    simp only [Function.comp_def, entryOf_item]
  have hfinish : l.finish = .ok (Entry.complete l.explicit) := by
    refine Listing.finish_eq_ok_iff.mpr ⟨Listing.nodup_explicit_iff.mpr fun p => ?_, rfl⟩
    rw [hentries, hentries]
    exact hkinds p
  refine ⟨l, Entry.complete l.explicit, hl, ?_⟩
  rw [hindex, hfinish]
  rfl

/-- The record of a file is what its header says. -/
theorem record_of_shows {l : Listing} (hl : l.Shows (i.members.map Member.item)) {m : Member}
    (hm : m ∈ i.members) (hkind : m.entry.kind = .file) :
    l.records[m.entry.path]? = some m.header.record := by
  have hentry : m.entry = { path := m.entry.path, kind := .file } := by rw [← hkind]
  rw [hl.records]
  exact ⟨m.item, List.mem_map_of_mem hm, (entryOf_item m).trans hentry, rfl⟩

/-- Each file of a zip file is read back. -/
theorem Valid.read_ofIndex (h : i.Valid) {l : Listing} (hl : l.Shows (i.members.map Member.item))
    {m : Member} (hm : m ∈ i.members) (hkind : m.entry.kind = .file) (location : Bytes)
    (entries : List Entry) :
    (Archive.ofIndex i.bytes location (l.records, entries)).read m.entry.path = .ok m.content := by
  have hcontent : (Archive.ofIndex i.bytes location (l.records, entries)).content m.header.record =
      .ok m.content := (h.stored m hm hkind).content_eq rfl
  rw [Archive.read_eq_of_record (record_of_shows hl hm hkind), hcontent]
  rfl

theorem mem_entries_iff {e : Entry} : e ∈ i.entries ↔ ∃ m ∈ i.members, m.entry = e := List.mem_map

/-- A zip file of any writer is opened unless it uses one path for a file and for a directory, and
each of its files is read back. What is listed and served is said by the directory and the stored
data alone. -/
theorem Valid.ofBytes_bytes (h : i.Valid) (location : Bytes) :
    ((∃ a, Archive.ofBytes i.bytes location = .ok a) ↔ ∀ p,
      { path := p, kind := .directory } ∈ i.entries → { path := p, kind := .file } ∉ i.entries) ∧
    ∀ a, Archive.ofBytes i.bytes location = .ok a →
      a.entries = Entry.complete (dropRepeats (Entry.sort i.entries)) ∧
      (∀ p, a.contains p = true ↔ { path := p, kind := .file } ∈ i.entries) ∧
      ∀ m ∈ i.members, m.entry.kind = .file → a.read m.entry.path = .ok m.content := by
  obtain ⟨l, hl, hindex⟩ := h.exists_index
  have hentries : l.entries = i.entries.reverse := by
    rw [hl.entries, List.map_map, entries]
    simp only [Function.comp_def, entryOf_item]
  have hexplicit : l.explicit = dropRepeats (Entry.sort i.entries) := by
    rw [Listing.explicit, hentries, List.reverse_reverse]
  rw [Archive.exists_ofBytes_iff_of_index hindex]
  simp only [Archive.ofBytes_eq_ok_iff_of_index hindex, hentries, List.mem_reverse]
  refine ⟨trivial, ?_⟩
  rintro a ⟨-, rfl⟩
  refine ⟨congrArg Entry.complete hexplicit, fun p => ?_, fun m hm hkind =>
    h.read_ofIndex hl hm hkind _ _⟩
  show l.records.contains p = true ↔ _
  rw [hl.contains_iff, mem_entries_iff]
  simp only [List.mem_map, exists_exists_and_eq_and, entryOf_item]

end Image

/-! ## A file with the liberties that writers take -/

namespace Sample

/-- What the directory says of a file with these data. -/
def header (method : UInt16) (content payload : Bytes) (offset name extra comment : Nat) :
    CentralHeader where
  madeBy := 0x31E
  version := 20
  flags := 8
  method := method
  time := 0x6000
  date := 0x5A21
  crc := Crc32.checksum content
  compressedSize := payload.length.toUInt32
  size := content.length.toUInt32
  nameLength := name.toUInt16
  extraLength := extra.toUInt16
  commentLength := comment.toUInt16
  disk := 0
  internal := 1
  external := 0x81A40000
  offset := offset.toUInt32

/-- A local header that leaves the checksum and the sizes to a descriptor behind the data. -/
def localHeader (name extra : Nat) : LocalHeader where
  version := 20
  flags := 8
  method := 99
  time := 0
  date := 0
  crc := 0
  compressedSize := 0
  size := 0xFFFFFFFF
  nameLength := name.toUInt16
  extraLength := extra.toUInt16

def directory : Member where
  entry := { path := "d", kind := .directory }
  header := header Method.stored [] [] 0 2 0 0
  valid := by decide
  plain := ⟨by decide, by decide, by decide⟩
  nameLength := by decide
  extraLength := rfl
  commentLength := rfl

def text : Member where
  entry := { path := "d/t", kind := .file }
  content := "text"
  header := header Method.stored "text" "text" 3 3 4 5
  extra := [0xFE, 0xCA, 0, 0]
  comment := "plain"
  valid := by decide
  plain := ⟨by decide, by decide, by decide⟩
  nameLength := by decide
  extraLength := rfl
  commentLength := by decide

/-- A literal and a copy of it. -/
def packed : Bytes := [75, 76, 132, 0, 0]

def copies : Member where
  entry := { path := "e", kind := .file }
  content := "aaaaaaaa"
  header := header Method.deflated "aaaaaaaa" packed 43 1 0 0
  valid := by decide
  plain := ⟨by decide, by decide, by decide⟩
  nameLength := by decide
  extraLength := rfl
  commentLength := rfl

/-- A local part with another name than the directory has, and a descriptor behind the data. -/
def localPart (name extra payload : Bytes) : Bytes :=
  (localHeader name.length extra.length).encode ++ name ++ extra ++ payload ++ Bytes.ascii "PK??"

/-- Before the entries is a line of a script. -/
def body : Bytes := Bytes.ascii "#!\n" ++ localPart "x" [0] "text" ++ localPart "" [] packed

def image : Image where
  body := body
  members := [directory, text, directory, copies]
  last :=
    { disk := 0, directoryDisk := 0, diskCount := 4, count := 4, directorySize := 201,
      directoryOffset := 82, commentLength := 31 }
  comment := "PK and a longer line of comment"

/-- What is behind the entries. -/
def rest : Bytes := image.directory ++ (image.last.encode ++ image.comment)

theorem places_text : text.Places image.bytes "text" (localHeader 1 1) "x" [0] where
  at_offset := by
    refine ⟨Bytes.ascii "#!\n", Bytes.ascii "PK??" ++ (localPart "" [] packed ++ rest), ?_, rfl⟩
    simp only [Image.bytes, rest, image, body, localPart, List.append_assoc]
    rfl
  nameLength := rfl
  extraLength := rfl

theorem places_copies : copies.Places image.bytes packed (localHeader 0 0) [] [] where
  at_offset := by
    refine ⟨Bytes.ascii "#!\n" ++ localPart "x" [0] "text", Bytes.ascii "PK??" ++ rest, ?_, rfl⟩
    simp only [Image.bytes, rest, image, body, localPart, List.append_assoc]
    rfl
  nameLength := rfl
  extraLength := rfl

theorem valid_image : image.Valid where
  disk := rfl
  directoryDisk := rfl
  count := rfl
  few := by decide
  directorySize := by decide +kernel
  directorySize_ne := by decide
  directoryOffset := by decide +kernel
  directoryOffset_ne := by decide
  comment := by decide +kernel
  signature := forall_behind (n := 31) (by decide +kernel) (by decide +kernel)
  once := by decide +kernel
  stored := by
    have hstream : Deflate.Format.Stream packed "aaaaaaaa" :=
      Deflate.inflate_eq_complete_iff.mp (by decide +kernel)
    have htext : text.In image.bytes :=
      ⟨rfl, rfl, rfl, _, _, _, _, .stored rfl rfl, places_text, rfl⟩
    have hcopies : copies.In image.bytes :=
      ⟨rfl, rfl, rfl, _, _, _, _, .deflated rfl hstream, places_copies, rfl⟩
    intro m hm hkind
    simp only [image, List.mem_cons, List.not_mem_nil, or_false] at hm
    rcases hm with rfl | rfl | rfl | rfl
    · exact nomatch hkind
    · exact htext
    · exact nomatch hkind
    · exact hcopies

theorem kinds_image (p : Path) (hdirectory : { path := p, kind := .directory } ∈ image.entries) :
    { path := p, kind := .file } ∉ image.entries := by
  obtain rfl : p = "d" := by simpa [Image.entries, image, directory, text, copies] using hdirectory
  decide

end Sample

/-- The sample is opened, and its files are read. -/
theorem ofBytes_sample : Sample.image.Valid ∧ ∃ a, Archive.ofBytes Sample.image.bytes [] = .ok a ∧
    a.read "d/t" = .ok "text" ∧ a.read "e" = .ok "aaaaaaaa" ∧ a.contains "d" = false := by
  obtain ⟨hopen, hread⟩ := Sample.valid_image.ofBytes_bytes []
  obtain ⟨a, ha⟩ := hopen.mpr Sample.kinds_image
  obtain ⟨-, hcontains, hfiles⟩ := hread a ha
  refine ⟨Sample.valid_image, a, ha, hfiles Sample.text (by simp [Sample.image]) rfl,
    hfiles Sample.copies (by simp [Sample.image]) rfl, ?_⟩
  rw [Bool.eq_false_iff, ne_eq, hcontains]
  decide

end JarRepair.Zip

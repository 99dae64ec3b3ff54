import JarRepair.Proofs.Zip.Image

/-! # Looking only at the data

A slice ends where the data end, and a number is read as if zeros followed, so the reader itself
cannot tell whether it looks too far. Here it is written a second time, with accesses to numbers,
names and payloads that have no result where a byte is missing, in the order in which it compares
and looks. For any data this reader has a result, and it is the same one. -/

namespace JarRepair.Zip

open JarRepair.Archive (Path Entry)
open JarRepair.Outcome

/-! ## Checked accesses -/

/-- A computation that may fail with a fault, and has no result if it looks outside of the data. -/
abbrev Checked (α : Type) := ExceptT Fault Option α

section

variable (data : Array UInt8) (i n : Nat)

def word? : Option UInt16 := do return wordOf (← data[i + 1]?) (← data[i]?)

def dword? : Option UInt32 := do
  return dwordOf (← data[i + 3]?) (← data[i + 2]?) (← data[i + 1]?) (← data[i]?)

def span? : Option Bytes := if i + n ≤ data.size then some (slice data i n) else none

def EndRecord.at? : Option EndRecord := do
  return {
    disk := ← word? data (i + 4)
    directoryDisk := ← word? data (i + 6)
    diskCount := ← word? data (i + 8)
    count := ← word? data (i + 10)
    directorySize := ← dword? data (i + 12)
    directoryOffset := ← dword? data (i + 16)
    commentLength := ← word? data (i + 20) }

def CentralHeader.at? : Option CentralHeader := do
  return {
    madeBy := ← word? data (i + 4)
    version := ← word? data (i + 6)
    flags := ← word? data (i + 8)
    method := ← word? data (i + 10)
    time := ← word? data (i + 12)
    date := ← word? data (i + 14)
    crc := ← dword? data (i + 16)
    compressedSize := ← dword? data (i + 20)
    size := ← dword? data (i + 24)
    nameLength := ← word? data (i + 28)
    extraLength := ← word? data (i + 30)
    commentLength := ← word? data (i + 32)
    disk := ← word? data (i + 34)
    internal := ← word? data (i + 36)
    external := ← dword? data (i + 38)
    offset := ← dword? data (i + 42) }

end

/-! ## The checked reader -/

namespace Checked

/-- A computation that does not look at the data. -/
def ofExcept {α : Type} (x : Except Fault α) : Checked α := ExceptT.mk (some x)

def findEnd? (data : Array UInt8) : (n i : Nat) → Checked (Option (Nat × EndRecord))
  | 0, _ => return none
  | n + 1, i => do
    let signature ← dword? data i
    if signature = EndRecord.signature then
      let r ← EndRecord.at? data i
      return some (i, r)
    else findEnd? data n (i - 1)

def endRecord (data : Array UInt8) : Checked (Nat × EndRecord) :=
  if data.size < EndRecord.length then throw .tooShort
  else do
    let last := data.size - EndRecord.length
    match ← findEnd? data (min last EndRecord.maxComment + 1) last with
    | some r => return r
    | none => throw .noEnd

def read (data : Array UInt8) (limit : Nat) : (n index position : Nat) → Listing → Checked Listing
  | 0, _, _, l => return l
  | n + 1, index, position, l =>
    let start := position + CentralHeader.length
    if limit < start then throw (.badHeader index)
    else do
      let signature ← dword? data position
      if signature ≠ CentralHeader.signature then throw (.badHeader index)
      else
        let h ← CentralHeader.at? data position
        if limit < start + h.trailer then throw (.headerBounds index)
        else
          let name ← span? data start h.nameLength.toNat
          let l ← ofExcept (l.add h name)
          read data limit n (index + 1) (start + h.trailer) l

def index (data : Array UInt8) : Checked (Std.TreeMap Path Record × List Entry) := do
  let (limit, r) ← endRecord data
  if r.disk ≠ 0 ∨ r.directoryDisk ≠ 0 then throw .multiDisk
  else if r.count = word64 ∨ r.directorySize = dword64 ∨ r.directoryOffset = dword64 then
    throw .zip64
  else
    let start := r.directoryOffset.toNat
    if limit < start + r.directorySize.toNat then throw .directoryBounds
    else
      let listing ← read data limit r.count.toNat 0 start {}
      let entries ← ofExcept listing.finish
      return (listing.records, entries)

def payload (data : Array UInt8) (r : Record) : Checked Bytes :=
  let position := r.offset.toNat
  if data.size < position + LocalHeader.length then throw .badLocal
  else do
    let signature ← dword? data position
    if signature ≠ LocalHeader.signature then throw .badLocal
    else
      let nameLength ← word? data (position + 26)
      let extraLength ← word? data (position + 28)
      let start := position + LocalHeader.length + nameLength.toNat + extraLength.toNat
      if data.size < start + r.compressedSize.toNat then throw .dataBounds
      else span? data start r.compressedSize.toNat

end Checked

/-- What a file has in it that is stored in this form. -/
def Record.unpack (r : Record) (payload : Bytes) : Except Fault Bytes := do
  let content ←
    if r.method = Method.stored then
      if r.compressedSize = r.size then pure payload else throw .storedSize
    else if r.method = Method.deflated then
      (Deflate.inflateExactly payload r.size.toNat).mapError .inflate
    else throw (.method r.method)
  if Crc32.checksum content = r.crc then return content else throw .checksum

theorem Archive.content_eq_unpack (a : Archive) (r : Record) : a.content r =
    if r.flags &&& flagEncrypted ≠ 0 then .error .encrypted else a.payload r >>= r.unpack := rfl

namespace Checked

def content (data : Array UInt8) (r : Record) : Checked Bytes :=
  if r.flags &&& flagEncrypted ≠ 0 then throw .encrypted
  else do
    let payload ← payload data r
    ofExcept (r.unpack payload)

/-- Opens an archive, or has no result. -/
def ofBytes (data location : Bytes) : Option (Except Error Archive) :=
  (index data.toArray).run.map fun
    | .ok (records, entries) => .ok { data := data.toArray, location, records, entries }
    | .error fault => .error (.format (location ++ ": " ++ fault.text))

/-- Reads a file, or has no result. -/
def readFile (a : Archive) (p : Path) : Option (Except Error Bytes) :=
  match a.records[p]? with
  | none => some (.error (JarRepair.Archive.notListed a.location p))
  | some r =>
    (content a.data r).run.map (Except.mapError fun fault => (Error.format fault.text).withEntry p)

end Checked

/-! ## Accesses within the data -/

section

variable {data : Array UInt8} {i n : Nat}

theorem getElem?_eq_getD (h : i < data.size) : data[i]? = some (data.toList.getD i 0) := by
  rw [Array.getElem?_eq_getElem h, List.getD_eq_getElem?_getD, Array.getElem?_toList,
    Array.getElem?_eq_getElem h, Option.getD_some]

theorem word?_eq (h : i + 2 ≤ data.size) : word? data i = some (wordAt data.toList i) := by
  rw [word?, getElem?_eq_getD (by omega), getElem?_eq_getD (by omega)]
  rfl

theorem dword?_eq (h : i + 4 ≤ data.size) : dword? data i = some (dwordAt data.toList i) := by
  rw [dword?, getElem?_eq_getD (by omega), getElem?_eq_getD (by omega), getElem?_eq_getD (by omega),
    getElem?_eq_getD (by omega)]
  rfl

/-- The signature of a header is within the data if the header is. -/
theorem signature?_eq (hn : 4 ≤ n) (h : i + n ≤ data.size) :
    dword? data i = some (dwordAt data.toList i) :=
  dword?_eq (by omega)

theorem span?_eq (h : i + n ≤ data.size) : span? data i n = some (slice data i n) := if_pos h

/-- A header is decoded exactly if its signature is there. Of what is decoded, `P` holds. -/
theorem signed_cases {α : Type} {decoded : Option α} {signature : UInt32} {r : α} {P : α → Prop}
    (hn : 4 ≤ n) (h : i + n ≤ data.size)
    (hdecoded : decoded =
      if (slice data i n).length = n ∧ dwordAt (slice data i n) 0 = signature then some r else none)
    (hr : P r) :
    (dwordAt data.toList i ≠ signature ∧ decoded = none) ∨
      dwordAt data.toList i = signature ∧ ∃ r, decoded = some r ∧ P r := by
  have hat : (slice data i n).length = n ∧ dwordAt (slice data i n) 0 = signature ↔
      dwordAt data.toList i = signature := by
    rw [length_slice_eq_iff (by omega), dwordAt_slice hn, Nat.add_zero, and_iff_right h]
  simp only [hat] at hdecoded
  by_cases hsignature : dwordAt data.toList i = signature
  · rw [if_pos hsignature] at hdecoded
    exact .inr ⟨hsignature, r, hdecoded, hr⟩
  · rw [if_neg hsignature] at hdecoded
    exact .inl ⟨hsignature, hdecoded⟩

/-- An end record is decoded from the fields that are looked at. -/
theorem EndRecord.at?_cases (h : i + length ≤ data.size) :
    (dwordAt data.toList i ≠ signature ∧ decode? (slice data i length) = none) ∨
      dwordAt data.toList i = signature ∧
        ∃ r, decode? (slice data i length) = some r ∧ at? data i = some r := by
  refine signed_cases (by decide) h rfl ?_
  rw [show length = 22 from rfl] at h
  simp (disch := omega) only [at?, word?_eq, dword?_eq]
  simp (disch := decide) only [wordAt_slice, dwordAt_slice]
  rfl

theorem CentralHeader.at?_cases (h : i + length ≤ data.size) :
    (dwordAt data.toList i ≠ signature ∧ decode? (slice data i length) = none) ∨
      dwordAt data.toList i = signature ∧
        ∃ r, decode? (slice data i length) = some r ∧ at? data i = some r := by
  refine signed_cases (by decide) h rfl ?_
  rw [show length = 46 from rfl] at h
  simp (disch := omega) only [at?, word?_eq, dword?_eq]
  simp (disch := decide) only [wordAt_slice, dwordAt_slice]
  rfl

/-- Of a local header two fields are looked at. -/
theorem LocalHeader.at?_cases (h : i + length ≤ data.size) :
    (dwordAt data.toList i ≠ signature ∧ decode? (slice data i length) = none) ∨
      dwordAt data.toList i = signature ∧ ∃ r, decode? (slice data i length) = some r ∧
        word? data (i + 26) = some r.nameLength ∧ word? data (i + 28) = some r.extraLength := by
  refine signed_cases (by decide) h rfl ?_
  rw [show length = 30 from rfl] at h
  simp (disch := omega) only [word?_eq]
  simp (disch := decide) only [wordAt_slice, and_self]

end

/-! ## The same results -/

namespace Checked

variable {α : Type} {data : Array UInt8} {limit n i : Nat}

theorem run_ofExcept (x : Except Fault α) : (ofExcept x).run = some x := rfl

theorem run_findEnd? (hi : i + EndRecord.length ≤ data.size) :
    (findEnd? data n i).run = some (.ok (Zip.findEnd? data n i)) := by
  induction n generalizing i with
  | zero => rfl
  | succ n ih =>
    rw [findEnd?, Zip.findEnd?, run_access (signature?_eq (by decide) hi)]
    rcases EndRecord.at?_cases hi with ⟨hne, hdecode⟩ | ⟨heq, r, hdecode, hat⟩
    · rw [if_neg hne, hdecode]
      exact ih (by omega)
    · rw [if_pos heq, hdecode, run_access hat]
      rfl

theorem run_endRecord (data : Array UInt8) : (endRecord data).run = some (Zip.endRecord data) := by
  rw [endRecord, Zip.endRecord]
  split
  · rfl
  · rename_i hsize
    have hlast : data.size - EndRecord.length + EndRecord.length ≤ data.size := by omega
    dsimp only
    rw [ExceptT.run_bind, run_findEnd? hlast]
    cases Zip.findEnd? data (min (data.size - EndRecord.length) EndRecord.maxComment + 1)
      (data.size - EndRecord.length) <;> rfl

theorem run_read (hlimit : limit ≤ data.size) (index position : Nat) (l : Listing) :
    (read data limit n index position l).run = some
      (Listing.read data limit n index position l) := by
  induction n generalizing index position l with
  | zero => rfl
  | succ n ih =>
    rw [read, Listing.read]
    split
    · rfl
    · rename_i hheader
      have hbounds : position + CentralHeader.length ≤ data.size := by omega
      rw [run_access (signature?_eq (by decide) hbounds)]
      rcases CentralHeader.at?_cases hbounds with ⟨hne, hdecode⟩ | ⟨heq, h, hdecode, hat⟩
      · rw [if_pos hne, hdecode]
        rfl
      · rw [if_neg (not_not.mpr heq), hdecode, run_access hat]
        dsimp only
        split
        · rfl
        · rename_i htrailer
          have hname : position + CentralHeader.length + h.nameLength.toNat ≤ data.size := by
            rw [CentralHeader.trailer] at htrailer
            omega
          rw [run_access (span?_eq hname), ExceptT.run_bind, run_ofExcept]
          cases l.add h (slice data (position + CentralHeader.length) h.nameLength.toNat) with
          | error fault => rfl
          | ok l => exact ih (index + 1) _ l

/-- The end record is within the data. -/
theorem length_le_of_findEnd? {r : EndRecord} (h : Zip.findEnd? data n i = some (limit, r)) :
    limit + EndRecord.length ≤ data.size := by
  induction n generalizing i with
  | zero => cases h
  | succ n ih =>
    rw [Zip.findEnd?] at h
    split at h
    · rename_i r' hdecode
      obtain ⟨rfl, -⟩ := Prod.mk.inj (Option.some.inj h)
      rw [EndRecord.decode?] at hdecode
      split at hdecode
      · rename_i hat
        exact (length_slice_eq_iff (by decide)).mp hat.1
      · cases hdecode
    · exact ih h

theorem length_le_of_endRecord {r : EndRecord} (h : Zip.endRecord data = .ok (limit, r)) :
    limit + EndRecord.length ≤ data.size := by
  rw [Zip.endRecord] at h
  split at h
  · cases h
  · dsimp only at h
    split at h
    · rename_i hfind
      obtain rfl := Except.ok.inj h
      exact length_le_of_findEnd? hfind
    · cases h

theorem run_index (data : Array UInt8) : (index data).run = some (Zip.index data) := by
  refine run_bind (run_endRecord data) ?_
  rintro ⟨limit, r⟩ hend
  have hlimit : limit ≤ data.size :=
    Nat.le_trans (Nat.le_add_right _ _) (length_le_of_endRecord hend)
  dsimp only
  split
  · rfl
  · split
    · rfl
    · split
      · rfl
      · refine run_bind (run_read hlimit 0 _ {}) fun listing _ => ?_
        exact run_bind (run_ofExcept listing.finish) fun entries _ => rfl

theorem run_payload (a : Archive) (r : Record) : (payload a.data r).run = some (a.payload r) := by
  rw [payload, Archive.payload]
  dsimp only
  split
  · rename_i hshort
    have hdecode : LocalHeader.decode? (slice a.data r.offset.toNat LocalHeader.length) = none := by
      refine if_neg fun hat => ?_
      rw [length_slice_eq_iff (by decide)] at hat
      exact absurd hat.1 (Nat.not_le.mpr hshort)
    rw [hdecode]
    rfl
  · rename_i hheader
    have hbounds : r.offset.toNat + LocalHeader.length ≤ a.data.size := Nat.not_lt.mp hheader
    rw [run_access (signature?_eq (by decide) hbounds)]
    rcases LocalHeader.at?_cases hbounds with ⟨hne, hdecode⟩ | ⟨heq, h, hdecode, hname, hextra⟩
    · rw [if_pos hne, hdecode]
      rfl
    · rw [if_neg (not_not.mpr heq), hdecode, run_access hname, run_access hextra]
      dsimp only
      split
      · rfl
      · rename_i hdata
        rw [span?_eq (Nat.not_lt.mp hdata)]
        rfl

theorem run_content (a : Archive) (r : Record) : (content a.data r).run = some (a.content r) := by
  rw [content, a.content_eq_unpack]
  split
  · rfl
  · exact run_bind (run_payload a r) fun payload _ => run_ofExcept _

theorem ofBytes_eq (data location : Bytes) :
    ofBytes data location = some (Archive.ofBytes data location) := by
  rw [ofBytes, run_index, Archive.ofBytes]
  rfl

theorem readFile_eq (a : Archive) (p : Path) : readFile a p = some (a.read p) := by
  rw [readFile, Archive.read]
  cases a.records[p]? with
  | none => rfl
  | some r =>
    dsimp only
    rw [run_content]
    rfl

end Checked

/-! ## What is served -/

section

variable {a : Archive} {r : Record} {payload content : Bytes} {p : Path}

theorem Archive.payload_eq_ok (h : a.payload r = .ok payload) :
    payload.length = r.compressedSize.toNat ∧ payload <:+: a.data.toList := by
  rw [Archive.payload] at h
  split at h
  · cases h
  · dsimp only at h
    split at h
    · cases h
    · rename_i hdata
      obtain rfl := Except.ok.inj h
      exact ⟨length_slice (Nat.not_lt.mp hdata), slice_infix _ _ _⟩

/-- Unpacked content has the size and the checksum of the record. -/
theorem Record.unpack_eq_ok (hlength : payload.length = r.compressedSize.toNat)
    (h : r.unpack payload = .ok content) : content.length = r.size.toNat ∧
      Crc32.checksum content = r.crc ∧ (r.method = Method.stored → content = payload) := by
  have hcheck {unpacked : Bytes} (h : (if Crc32.checksum unpacked = r.crc then pure unpacked
      else throw .checksum : Except Fault Bytes) = .ok content) :
      unpacked = content ∧ Crc32.checksum content = r.crc := by
    split at h
    · rename_i hchecksum
      obtain rfl := Except.ok.inj h
      exact ⟨rfl, hchecksum⟩
    · cases h
  rw [unpack] at h
  split at h
  · split at h
    · rename_i hsize
      obtain ⟨rfl, hchecksum⟩ := hcheck h
      exact ⟨hsize ▸ hlength, hchecksum, fun _ => rfl⟩
    · cases h
  · rename_i hmethod
    split at h
    · obtain ⟨unpacked, hinflate, h⟩ := Outcome.bind_eq_ok_iff.mp h
      obtain ⟨rfl, hchecksum⟩ := hcheck h
      exact ⟨Deflate.length_of_inflateExactly (Outcome.mapError_eq_ok_iff.mp hinflate), hchecksum,
        fun hstored => absurd hstored hmethod⟩
    · cases h

/-- What is read is what the record says, and stored data are part of the archive. -/
theorem Archive.exists_record_of_read (h : a.read p = .ok content) : ∃ r, a.records[p]? = some r ∧
    content.length = r.size.toNat ∧ Crc32.checksum content = r.crc ∧
      (r.method = Method.stored → content <:+: a.data.toList) := by
  rw [read] at h
  cases hrecord : a.records[p]? with
  | none =>
    rw [hrecord] at h
    cases h
  | some r =>
    rw [hrecord] at h
    have hcontent := Outcome.mapError_eq_ok_iff.mp h
    rw [content_eq_unpack] at hcontent
    split at hcontent
    · cases hcontent
    · obtain ⟨payload, hpayload, hunpack⟩ := Outcome.bind_eq_ok_iff.mp hcontent
      obtain ⟨hlength, hinfix⟩ := payload_eq_ok hpayload
      obtain ⟨hsize, hchecksum, hstored⟩ := r.unpack_eq_ok hlength hunpack
      exact ⟨r, rfl, hsize, hchecksum, fun hmethod => hstored hmethod ▸ hinfix⟩

end

/-- The record of a file is what its header in the directory says, and it has one. -/
theorem Archive.record_of_ofBytes {data location : Bytes} {a : Archive} {p : Path} {r : Record}
    (h : ofBytes data location = .ok a) (hr : a.records[p]? = some r) :
    (∃ hd, (hd, p) ∈ directoryHeaders data.toArray) ∧
      ∀ hd, (hd, p) ∈ directoryHeaders data.toArray → hd.record = r := by
  obtain ⟨l, hl, hvalid, -, hrecords⟩ := exists_listing_of_ofBytes h
  rw [hrecords] at hr
  obtain ⟨⟨hd, name⟩, hx, hentry, -⟩ := (hl.records p r).mp hr
  have hname : name = p := by
    rw [← storedName_entryOf name]
    exact congrArg storedName hentry
  have hpath : p.fault? = none := by
    have hfault := (hvalid _ hx).1
    rwa [hentry] at hfault
  refine ⟨⟨hd, hname ▸ hx⟩, fun hd' hx' => ?_⟩
  have hfile : entryOf p = { path := p, kind := .file } := by rw [entryOf, pathOf_file hpath]
  exact Option.some.inj (((hl.records p _).mpr ⟨_, hx', hfile, rfl⟩).symm.trans hr)

/-- Any bytes are safe to open and to read from: neither looks outside of them. What is read has the
size and the checksum of the header of its path, and is part of the bytes if it is stored there as
it is. -/
theorem Archive.read_within (data location : Bytes) :
    Checked.ofBytes data location = some (ofBytes data location) ∧
    ∀ a, ofBytes data location = .ok a → ∀ p,
      Checked.readFile a p = some (a.read p) ∧
      ∀ content, a.read p = .ok content →
        (∃ h, (h, p) ∈ directoryHeaders data.toArray) ∧
        ∀ h, (h, p) ∈ directoryHeaders data.toArray →
          content.length = h.size.toNat ∧ Crc32.checksum content = h.crc ∧
            (h.method = Method.stored → content <:+: data) := by
  refine ⟨Checked.ofBytes_eq data location, fun a ha p =>
    ⟨Checked.readFile_eq a p, fun content hread => ?_⟩⟩
  obtain ⟨r, hr, hsize, hchecksum, hstored⟩ := exists_record_of_read hread
  obtain ⟨hlisted, hrecord⟩ := record_of_ofBytes ha hr
  refine ⟨hlisted, fun h hh => ?_⟩
  obtain rfl := hrecord h hh
  obtain ⟨x, -, rfl⟩ := ofBytes_eq_ok_iff.mp ha
  exact ⟨hsize, hchecksum, hstored⟩

/-- A file of the sample is read within its bytes, and is part of them. -/
theorem Archive.read_within_sample : ∃ a, ofBytes Sample.image.bytes [] = .ok a ∧
    Checked.readFile a "d/t" = some (.ok "text") ∧ ("text" : Bytes) <:+: Sample.image.bytes := by
  obtain ⟨l, entries, hl, hindex⟩ := Sample.valid_image.exists_opened Sample.kinds_image
  have hopen : ofBytes Sample.image.bytes [] = .ok (.ofIndex _ [] (l.records, entries)) :=
    ofBytes_eq_ok_iff.mpr ⟨_, hindex, rfl⟩
  have hmem : Sample.text ∈ Sample.image.members := by simp [Sample.image]
  have hread : (ofIndex Sample.image.bytes [] (l.records, entries)).read "d/t" = .ok "text" :=
    Sample.valid_image.read_ofIndex hl hmem rfl [] entries
  obtain ⟨hwithin, hserved⟩ := (read_within Sample.image.bytes []).2 _ hopen "d/t"
  obtain ⟨⟨h, hh⟩, hall⟩ := hserved _ hread
  have hrecord : h.record = Sample.text.header.record :=
    (record_of_ofBytes hopen (Image.record_of_shows hl hmem rfl)).2 h hh
  have hstored : h.method = Method.stored := congrArg Record.method hrecord
  exact ⟨_, hopen, hwithin.trans (congrArg some hread), (hall h hh).2.2 hstored⟩

end JarRepair.Zip

import JarRepair.Proofs.Deflate.Compress
import JarRepair.Proofs.Zip.Header
import JarRepair.Proofs.Zip.Slice
import JarRepair.Zip.Writer

/-! # Finding the parts of a zip file

The writer puts the parts one behind the other, and notes where each begins. The reader finds each
of them where it was put: the end record at the end, from there the central headers in turn, and
behind the local header that one of these points to the data. -/

namespace JarRepair.Zip

/-! ## Local parts -/

namespace Writer.Entry

theorem length_localPart (e : Writer.Entry) : e.localPart.length = e.localLength := by
  rw [localPart, List.length_append, List.length_append, LocalHeader.length_encode, localLength]

theorem length_centralPart (offset : Nat) (e : Writer.Entry) :
    (e.centralPart offset).length = CentralHeader.length + e.name.length := by
  rw [centralPart, List.length_append, CentralHeader.length_encode]

end Writer.Entry

open Writer (Entry)

/-- The entries with their offsets if the first one is at `offset`. -/
def offsetsFrom (offset : Nat) : List Entry → List (Nat × Entry)
  | [] => []
  | e :: entries => (offset, e) :: offsetsFrom (offset + e.localLength) entries

theorem withOffsets_eq (entries : List Entry) : withOffsets entries = offsetsFrom 0 entries := by
  suffices h : ∀ offset found, (entries.foldl (fun (x : Nat × List (Nat × Entry)) e =>
      (x.1 + e.localLength, (x.1, e) :: x.2)) (offset, found)).2 =
        (offsetsFrom offset entries).reverse ++ found by
    have hall := congrArg List.reverse (h 0 [])
    rwa [List.append_nil, List.reverse_reverse] at hall
  induction entries with
  | nil => exact fun _ _ => rfl
  | cons e entries ih =>
    intro offset found
    rw [List.foldl_cons, ih, offsetsFrom, List.reverse_cons, List.append_assoc,
      List.singleton_append]

theorem map_snd_offsetsFrom (offset : Nat) (entries : List Entry) :
    (offsetsFrom offset entries).map Prod.snd = entries := by
  induction entries generalizing offset with
  | nil => rfl
  | cons e entries ih => rw [offsetsFrom, List.map_cons, ih]

/-- An offset is where the local part of its entry begins. -/
theorem exists_of_mem_offsetsFrom {offset : Nat} {entries : List Entry} {x : Nat × Entry}
    (hx : x ∈ offsetsFrom offset entries) :
    ∃ before after, body entries = before ++ (x.2.localPart ++ after) ∧
      x.1 = offset + before.length := by
  induction entries generalizing offset with
  | nil => simp [offsetsFrom] at hx
  | cons e entries ih =>
    rw [body, List.flatMap_cons]
    rcases List.mem_cons.mp hx with rfl | hx
    · exact ⟨[], body entries, rfl, rfl⟩
    · obtain ⟨before, after, hbody, hoffset⟩ := ih hx
      refine ⟨e.localPart ++ before, after, ?_, ?_⟩
      · rw [← body, hbody, List.append_assoc]
      · rw [hoffset, List.length_append, e.length_localPart, Nat.add_assoc]

/-! ## The directory -/

/-- What the directory says of an entry at an offset is added to a listing. -/
def Listing.addEntry (l : Listing) (x : Nat × Entry) : Except Fault Listing :=
  l.add (x.2.centralHeader x.1) x.2.name

/-- The central headers are read one after the other. -/
theorem read_directory {data before after : Bytes} {items : List (Nat × Entry)} {limit : Nat}
    (hnames : ∀ x ∈ items, x.2.name.length ≤ 65535)
    (hdata : data = before ++ (items.flatMap (fun x => x.2.centralPart x.1) ++ after))
    (hlimit : before.length + (items.flatMap fun x => x.2.centralPart x.1).length ≤ limit)
    (index : Nat) (l : Listing) :
    Listing.read data.toArray limit items.length index before.length l =
      items.foldlM Listing.addEntry l := by
  induction items generalizing before index l with
  | nil => rfl
  | cons x items ih =>
    obtain ⟨offset, e⟩ := x
    rw [List.flatMap_cons, List.append_assoc] at hdata
    rw [List.flatMap_cons, List.length_append, e.length_centralPart] at hlimit
    have hparts := hdata
    rw [Writer.Entry.centralPart, List.append_assoc] at hparts
    have hheader :
        slice data.toArray before.length CentralHeader.length = (e.centralHeader offset).encode :=
      slice_of_eq hparts rfl (CentralHeader.length_encode _).symm
    have hlength : e.name.length.toUInt16.toNat = e.name.length :=
      toNat_toUInt16 (hnames _ List.mem_cons_self)
    have htrailer : (e.centralHeader offset).trailer = e.name.length := hlength
    have hname : slice data.toArray (before.length + CentralHeader.length)
        (e.centralHeader offset).nameLength.toNat = e.name := by
      rw [← List.append_assoc] at hparts
      refine slice_of_eq hparts ?_ hlength
      rw [List.length_append, CentralHeader.length_encode]
    rw [List.length_cons, Listing.read, if_neg (by omega), hheader, CentralHeader.decode?_encode]
    dsimp only
    have hadd : l.add (e.centralHeader offset) e.name = l.addEntry (offset, e) := rfl
    rw [if_neg (by omega), hname, hadd, List.foldlM_cons]
    cases l.addEntry (offset, e) with
    | error fault => rfl
    | ok l =>
      have hposition : before.length + CentralHeader.length + (e.centralHeader offset).trailer =
          (before ++ e.centralPart offset).length := by
        rw [htrailer, List.length_append, e.length_centralPart, Nat.add_assoc]
      dsimp only
      rw [hposition]
      refine ih (fun x hx => hnames x (List.mem_cons_of_mem _ hx)) ?_ ?_ (index + 1) l
      · rw [hdata, List.append_assoc]
      · rw [List.length_append, e.length_centralPart]
        omega

/-- The end record is found at once if no comment follows it. -/
theorem endRecord_of_eq {data before : Bytes} {r : EndRecord} (h : data = before ++ r.encode) :
    endRecord data.toArray = .ok (before.length, r) := by
  have hsize : data.toArray.size = before.length + EndRecord.length := by
    rw [List.size_toArray, h, List.length_append, EndRecord.length_encode]
  have hlast : data.toArray.size - EndRecord.length = before.length := by omega
  have hslice : slice data.toArray before.length EndRecord.length = r.encode :=
    slice_of_eq (by rw [h, List.append_nil]) rfl (EndRecord.length_encode r).symm
  rw [endRecord, if_neg (by omega)]
  simp only [hlast, findEnd?, hslice, EndRecord.decode?_encode]

theorem length_layout (entries : List Entry) : (layout entries).length =
    (body entries).length + (directory entries).length + EndRecord.length := by
  rw [layout, List.length_append, List.length_append, EndRecord.length_encode]

/-- An end record of one disk that needs no zip64 leads to the directory. -/
theorem index_of_endRecord {data : Array UInt8} {limit : Nat} {r : EndRecord}
    (hend : endRecord data = .ok (limit, r)) (hdisk : r.disk = 0)
    (hdirectoryDisk : r.directoryDisk = 0) (hcount : r.count ≠ word64)
    (hsize : r.directorySize ≠ dword64) (hoffset : r.directoryOffset ≠ dword64)
    (hbounds : r.directoryOffset.toNat + r.directorySize.toNat ≤ limit) :
    index data = do
      let listing ← Listing.read data limit r.count.toNat 0 r.directoryOffset.toNat {}
      return (listing.records, ← listing.finish) := by
  rw [index, hend]
  simp only [bind, Except.bind]
  rw [if_neg (by simp [hdisk, hdirectoryDisk]), if_neg (by simp [hcount, hsize, hoffset]),
    if_neg (Nat.not_lt.mpr hbounds)]

/-- The directory of a zip file is indexed entry by entry. -/
theorem index_layout {entries : List Entry} (hcount : entries.length < 65535)
    (hnames : ∀ e ∈ entries, e.name.length ≤ 65535)
    (himage : (layout entries).length < 4294967296) :
    index (layout entries).toArray = do
      let listing ← (withOffsets entries).foldlM Listing.addEntry {}
      return (listing.records, ← listing.finish) := by
  rw [length_layout, show EndRecord.length = 22 from rfl] at himage
  have hitems : (withOffsets entries).map Prod.snd = entries := by
    rw [withOffsets_eq, map_snd_offsetsFrom]
  have hcount' : entries.length.toUInt16.toNat = (withOffsets entries).length := by
    have hlength := congrArg List.length hitems
    rw [List.length_map] at hlength
    rw [toNat_toUInt16 (by omega), hlength]
  have hsize : (directory entries).length.toUInt32.toNat = (directory entries).length :=
    toNat_toUInt32 (by omega)
  have hoffset : (body entries).length.toUInt32.toNat = (body entries).length :=
    toNat_toUInt32 (by omega)
  have hread : Listing.read (layout entries).toArray (body entries ++ directory entries).length
      (withOffsets entries).length 0 (body entries).length {} =
        (withOffsets entries).foldlM Listing.addEntry {} :=
    read_directory (fun x hx => hnames x.2 (hitems ▸ List.mem_map_of_mem hx))
      (List.append_assoc _ _ _) (Nat.le_of_eq (List.length_append ..).symm) 0 {}
  rw [← hcount', ← hoffset] at hread
  have hend : endRecord (layout entries).toArray = .ok ((body entries ++ directory entries).length,
      endOf entries.length (directory entries).length (body entries).length) := endRecord_of_eq rfl
  rw [index_of_endRecord hend rfl rfl ?_ ?_ ?_ ?_]
  · exact congrArg (· >>= fun listing => listing.finish >>= fun es => pure (listing.records, es))
      hread
  · intro h
    have hnat := congrArg UInt16.toNat h
    rw [show (endOf _ _ _).count.toNat = _ from toNat_toUInt16 (by omega),
      show word64.toNat = 65535 from rfl] at hnat
    omega
  · intro h
    have hnat := congrArg UInt32.toNat h
    rw [show (endOf _ _ _).directorySize.toNat = _ from hsize,
      show dword64.toNat = 4294967295 from rfl] at hnat
    omega
  · intro h
    have hnat := congrArg UInt32.toNat h
    rw [show (endOf _ _ _).directoryOffset.toNat = _ from hoffset,
      show dword64.toNat = 4294967295 from rfl] at hnat
    omega
  · show (body entries).length.toUInt32.toNat + (directory entries).length.toUInt32.toNat ≤ _
    exact Nat.le_of_eq (by rw [hsize, hoffset, List.length_append])

/-! ## Data -/

/-- What the directory says of an entry at an offset. -/
def recordOf (offset : Nat) (e : Entry) : Record where
  flags := flagUtf8
  method := e.method
  crc := e.crc
  compressedSize := e.payload.length.toUInt32
  size := e.size.toUInt32
  offset := offset.toUInt32

/-- The payload of an entry is behind its local header. -/
theorem payload_eq {a : Archive} {e : Entry} {before after : Bytes} (hname : e.name.length ≤ 65535)
    (hdata : a.data = (before ++ (e.localPart ++ after)).toArray)
    (hbefore : before.length < 4294967295) (hpayload : e.payload.length < 4294967295) :
    a.payload (recordOf before.length e) = .ok e.payload := by
  have hoffset : (recordOf before.length e).offset.toNat = before.length :=
    toNat_toUInt32 (by omega)
  have hsize : (recordOf before.length e).compressedSize.toNat = e.payload.length :=
    toNat_toUInt32 (by omega)
  have hlength : e.localHeader.nameLength.toNat = e.name.length := toNat_toUInt16 hname
  have hparts : before ++ (e.localPart ++ after) =
      before ++ (e.localHeader.encode ++ (e.name ++ (e.payload ++ after))) := by
    simp only [Writer.Entry.localPart, List.append_assoc]
  have hheader : slice a.data before.length LocalHeader.length = e.localHeader.encode := by
    rw [hdata]
    exact slice_of_eq hparts rfl (LocalHeader.length_encode _).symm
  have hstart : before.length + LocalHeader.length + e.name.length =
      (before ++ (e.localHeader.encode ++ e.name)).length := by
    rw [List.length_append, List.length_append, LocalHeader.length_encode, Nat.add_assoc]
  have hparts' : before ++ (e.localPart ++ after) =
      before ++ (e.localHeader.encode ++ e.name) ++ (e.payload ++ after) := by
    simp only [Writer.Entry.localPart, List.append_assoc]
  have hslice : slice a.data (before.length + LocalHeader.length + e.name.length) e.payload.length =
      e.payload := by
    rw [hdata]
    exact slice_of_eq hparts' hstart rfl
  have hbounds :
      before.length + LocalHeader.length + e.name.length + e.payload.length ≤ a.data.size := by
    rw [hdata, List.size_toArray, List.length_append, List.length_append, e.length_localPart,
      Writer.Entry.localLength]
    omega
  have hextra : e.localHeader.extraLength.toNat = 0 := rfl
  rw [Archive.payload, hoffset, hheader, LocalHeader.decode?_encode]
  dsimp only
  rw [hlength, hextra, Nat.add_zero, hsize, if_neg (Nat.not_lt.mpr hbounds), hslice]

section

variable {a : Archive} {r : Record} {data packed : Bytes}

theorem content_stored (hflags : r.flags &&& flagEncrypted = 0) (hpayload : a.payload r = .ok data)
    (hmethod : r.method = Method.stored) (hsize : r.compressedSize = r.size)
    (hcrc : Crc32.checksum data = r.crc) : a.content r = .ok data := by
  rw [Archive.content, hpayload]
  simp only [bind, Except.bind]
  rw [if_neg (fun h => h hflags), if_pos hmethod, if_pos hsize]
  exact if_pos hcrc

theorem content_deflated (hflags : r.flags &&& flagEncrypted = 0)
    (hpayload : a.payload r = .ok packed) (hmethod : r.method = Method.deflated)
    (hinflate : Deflate.inflateExactly packed r.size.toNat = .ok data)
    (hcrc : Crc32.checksum data = r.crc) : a.content r = .ok data := by
  have hstored : r.method ≠ Method.stored := by
    rw [hmethod]
    decide
  rw [Archive.content, hpayload]
  simp only [bind, Except.bind]
  rw [if_neg (fun h => h hflags), if_neg hstored, if_pos hmethod, hinflate]
  exact if_pos hcrc

theorem ofFile_eq_plain (h : Deflate.shorten? data = none) (p : Archive.Path) :
    Entry.ofFile p data =
      { name := p, crc := Crc32.checksum data, size := data.length, payload := data } := by
  simp only [Writer.Entry.ofFile, h]

/-- The data of a file comes back, in whichever form it was put. -/
theorem content_eq {p : Bytes} {offset : Nat} (hsize : data.length ≤ 4294967295)
    (hpayload : a.payload (recordOf offset (Entry.ofFile p data)) = .ok
      (Entry.ofFile p data).payload) :
    a.content (recordOf offset (Entry.ofFile p data)) = .ok data := by
  have hflags : flagUtf8 &&& flagEncrypted = 0 := by decide
  cases hshorten : Deflate.shorten? data with
  | none =>
    rw [ofFile_eq_plain hshorten] at hpayload ⊢
    exact content_stored hflags hpayload rfl rfl rfl
  | some packed =>
    rw [Writer.Entry.ofFile, hshorten] at hpayload ⊢
    obtain ⟨rfl, -⟩ := Deflate.shorten?_eq_some_iff.mp hshorten
    refine content_deflated hflags hpayload rfl ?_ rfl
    show Deflate.inflateExactly (Deflate.compress data) data.length.toUInt32.toNat = .ok data
    rw [toNat_toUInt32 hsize]
    exact Deflate.inflateExactly_compress data

end

end JarRepair.Zip

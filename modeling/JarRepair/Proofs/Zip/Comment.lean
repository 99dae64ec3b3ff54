import JarRepair.Proofs.Zip.Image

/-! # Comments behind the end record

A comment is passed over by the search for the end record, which never reads how long the comment
is. So a comment of any length changes nothing, as long as the search meets no signature in it and
no file is declared to reach as far as the comment. -/

namespace JarRepair.Zip

open JarRepair.Archive (Path)

namespace EndRecord

/-- The end record in front of a comment. -/
def withComment (r : EndRecord) (comment : Bytes) : EndRecord :=
  { r with commentLength := comment.length.toUInt16 }

/-- The end record up to the length of the comment. -/
def start (r : EndRecord) : Bytes :=
  dword signature ++ word r.disk ++ word r.directoryDisk ++ word r.diskCount ++ word r.count ++
    dword r.directorySize ++ dword r.directoryOffset

theorem length_start (r : EndRecord) : r.start.length = 20 := by
  simp only [start, List.length_append, length_word, length_dword]

theorem encode_eq (r : EndRecord) : r.encode = r.start ++ word r.commentLength := rfl

end EndRecord

/-- A zip file with a comment behind its end record. -/
def commented (before : Bytes) (r : EndRecord) (comment : Bytes) : Bytes :=
  before ++ ((r.withComment comment).encode ++ comment)

/-- Where the length of the comment is: all before it stays when a comment is added. -/
def commentPosition (before : Bytes) : Nat := before.length + 20

section

variable {before comment : Bytes} {r : EndRecord}

theorem take_commented (before comment : Bytes) (r : EndRecord) :
    (commented before r comment).take (commentPosition before) =
      (before ++ r.encode).take (commentPosition before) := by
  have htake (rest : Bytes) :
      (before ++ (r.start ++ rest)).take (commentPosition before) = before ++ r.start := by
    rw [← List.append_assoc, commentPosition, ← r.length_start, ← List.length_append,
      List.take_left]
  rw [commented, EndRecord.encode_eq, EndRecord.encode_eq, List.append_assoc, htake]
  exact htake _

/-! ## The directory -/

/-- A directory is read alike from data that agree up to its end. -/
theorem Listing.read_congr {data data' : Array UInt8} {limit : Nat}
    (h : data.toList.take limit = data'.toList.take limit) (n index position : Nat) (l : Listing) :
    read data limit n index position l = read data' limit n index position l := by
  induction n generalizing index position l with
  | zero => rfl
  | succ n ih =>
    rw [read, read]
    by_cases hheader : limit < position + CentralHeader.length
    · rw [if_pos hheader, if_pos hheader]
    · rw [if_neg hheader, if_neg hheader, slice_congr h (Nat.not_lt.mp hheader)]
      cases CentralHeader.decode? (slice data' position CentralHeader.length) with
      | none => rfl
      | some hd =>
        dsimp only
        by_cases htrailer : limit < position + CentralHeader.length + hd.trailer
        · rw [if_pos htrailer, if_pos htrailer]
        · have hname : position + CentralHeader.length + hd.nameLength.toNat ≤ limit := by
            rw [CentralHeader.trailer] at htrailer
            omega
          rw [if_neg htrailer, if_neg htrailer, slice_congr h hname]
          cases l.add hd (slice data' (position + CentralHeader.length) hd.nameLength.toNat) with
          | error fault => rfl
          | ok l => exact ih (index + 1) _ l

/-- Behind the end record the search meets no signature. -/
def Passed (before : Bytes) (r : EndRecord) (comment : Bytes) : Prop :=
  ∀ j, before.length < j → j + EndRecord.length ≤ (commented before r comment).length →
    dwordAt (commented before r comment) j ≠ EndRecord.signature

/-- The index does not depend on a comment. -/
theorem index_commented (hcomment : comment.length ≤ EndRecord.maxComment)
    (hpassed : Passed before r comment) :
    index (commented before r comment).toArray = index (before ++ r.encode).toArray := by
  have hend :
      endRecord (commented before r comment).toArray = .ok (before.length, r.withComment comment) :=
    endRecord_of_comment rfl hcomment hpassed
  have htake :
      (commented before r comment).take before.length =
        (before ++ r.encode).take before.length := by
    rw [commented, List.take_left, List.take_left]
  have hread : Listing.read (commented before r comment).toArray before.length r.count.toNat 0
      r.directoryOffset.toNat {} =
        Listing.read (before ++ r.encode).toArray before.length r.count.toNat 0
          r.directoryOffset.toNat {} :=
    Listing.read_congr htake _ _ _ _
  rw [index, index, hend, endRecord_of_eq rfl]
  simp only [bind, Except.bind]
  rw [← hread]
  rfl

/-! ## Files -/

/-- Where the data of a file ends as its headers say, if it has a local header. -/
def Record.reach (data : Array UInt8) (r : Record) : Nat :=
  match LocalHeader.decode? (slice data r.offset.toNat LocalHeader.length) with
  | none => r.offset.toNat + LocalHeader.length
  | some h => r.offset.toNat + LocalHeader.length + h.nameLength.toNat + h.extraLength.toNat +
      r.compressedSize.toNat

/-- A file that is placed as its header says ends behind its data. -/
theorem Member.Places.reach_eq {m : Member} {data payload name extra : Bytes} {h : LocalHeader}
    (hplaces : m.Places data payload h name extra) : m.header.record.reach data.toArray =
      m.header.offset.toNat + LocalHeader.length + name.length + extra.length +
        m.header.compressedSize.toNat := by
  obtain ⟨⟨before, after, hdata, hoffset⟩, hname, hextra⟩ := hplaces
  have hheader : slice data.toArray m.header.record.offset.toNat LocalHeader.length = h.encode := by
    simp only [List.append_assoc] at hdata
    exact slice_of_eq hdata hoffset (LocalHeader.length_encode h).symm
  rw [Record.reach, hheader, LocalHeader.decode?_encode]
  dsimp only
  rw [hname, hextra]
  rfl

/-- A file that ends behind the end of the data is not read. -/
theorem Archive.content_of_reach {a : Archive} {r : Record} {h : LocalHeader}
    (hflags : r.flags &&& flagEncrypted = 0)
    (hdecode : LocalHeader.decode? (slice a.data r.offset.toNat LocalHeader.length) = some h)
    (hreach : a.data.size < r.reach a.data) : a.content r = .error .dataBounds := by
  have hpayload : a.payload r = .error .dataBounds := by
    rw [Record.reach, hdecode] at hreach
    rw [payload, hdecode]
    exact if_pos hreach
  rw [content, if_neg (not_not.mpr hflags), hpayload]
  rfl

/-- A file that ends by `limit` is the same in archives whose data agree up to there. -/
theorem Archive.content_congr {a a' : Archive} {r : Record} {limit : Nat}
    (h : a'.data.toList.take limit = a.data.toList.take limit) (hsize : limit ≤ a.data.size)
    (hsize' : limit ≤ a'.data.size) (hreach : r.reach a.data ≤ limit) :
    a'.content r = a.content r := by
  have hpayload : a'.payload r = a.payload r := by
    rw [Record.reach] at hreach
    rw [payload, payload]
    cases hdecode : LocalHeader.decode? (slice a.data r.offset.toNat LocalHeader.length) with
    | none =>
      rw [hdecode] at hreach
      rw [slice_congr h hreach, hdecode]
    | some hd =>
      rw [hdecode] at hreach
      dsimp only at hreach ⊢
      rw [slice_congr h (by omega), hdecode]
      dsimp only
      rw [if_neg (by omega), if_neg (by omega), slice_congr h hreach]
  rw [content, content, hpayload]

/-- A comment that the search passes over changes neither the entries nor what is served: each file
is read as before if it ends where the length of the comment is, or earlier. -/
theorem Archive.ofBytes_commented {location : Bytes} {a : Archive}
    (hopen : ofBytes (before ++ r.encode) location = .ok a)
    (hcomment : comment.length ≤ EndRecord.maxComment) (hpassed : Passed before r comment) :
    ∃ a', ofBytes (commented before r comment) location = .ok a' ∧ a'.entries = a.entries ∧
      (∀ p, a'.contains p = a.contains p) ∧
      ∀ p, (∀ x, a.records[p]? = some x → x.reach a.data ≤ commentPosition before) →
      a'.read p = a.read p := by
  obtain ⟨x, hindex, rfl⟩ := ofBytes_eq_ok_iff.mp hopen
  have hindex' := (index_commented hcomment hpassed).trans hindex
  refine ⟨_, ofBytes_eq_ok_iff.mpr ⟨x, hindex', rfl⟩, rfl, fun _ => rfl, fun p hreach => ?_⟩
  have hsize : commentPosition before ≤ (before ++ r.encode).toArray.size := by
    rw [List.size_toArray, List.length_append, EndRecord.length_encode]
    exact Nat.add_le_add_left (by decide) _
  have hsize' : commentPosition before ≤ (commented before r comment).toArray.size := by
    rw [List.size_toArray, commented, List.length_append, List.length_append,
      EndRecord.length_encode]
    exact Nat.add_le_add_left (Nat.le_add_right_of_le (by decide)) _
  have hcontent (y : Record) (hy : x.1[p]? = some y) :
      (ofIndex (commented before r comment) location x).content y =
        (ofIndex (before ++ r.encode) location x).content y :=
    content_congr (take_commented before comment r) hsize hsize' (hreach y hy)
  cases hrecord : x.1[p]? with
  | none =>
    have hmissing (data : Bytes) : (ofIndex data location x).records[p]? = none := hrecord
    rw [read, read, hmissing, hmissing]
    rfl
  | some y => rw [read_eq_of_record hrecord, read_eq_of_record hrecord, hcontent y hrecord]

end

/-! ## Comments that change what is read -/

namespace Sample

/-- A file whose data is declared to be behind the end of the zip file. -/
def overhanging : Member where
  entry := { path := "a", kind := .file }
  content := "text"
  header := header Method.stored "text" "text" 0 1 0 0
  valid := by decide
  plain := ⟨by decide, by decide, by decide⟩
  nameLength := by decide
  extraLength := rfl
  commentLength := rfl

def enclosed : Member where
  entry := { path := "t", kind := .file }
  content := "hi"
  header := header Method.stored "hi" "hi" 31 1 0 0
  valid := by decide
  plain := ⟨by decide, by decide, by decide⟩
  nameLength := by decide
  extraLength := rfl
  commentLength := rfl

/-- The local extra field of the first file covers all the rest. -/
def parts : Bytes :=
  (localHeader 1 149).encode ++ Bytes.ascii "a" ++
    ((localHeader 1 0).encode ++ Bytes.ascii "t" ++ Bytes.ascii "hi")

def front : Bytes := parts ++ (overhanging.encode ++ enclosed.encode)

def last : EndRecord where
  disk := 0
  directoryDisk := 0
  diskCount := 2
  count := 2
  directorySize := 94
  directoryOffset := 64
  commentLength := 0

/-- The comment is the data of the first file. -/
def completed : Image where
  body := parts
  members := [overhanging, enclosed]
  last := last.withComment "text"
  comment := "text"

/-- An end record of an empty directory. -/
def decoy : EndRecord :=
  { last with diskCount := 0, count := 0, directorySize := 0, directoryOffset := 180 }

/-- The comment is taken for the end record. -/
def hidden : Image where
  body := front ++ (last.withComment decoy.encode).encode
  members := []
  last := decoy

theorem bytes_completed : completed.bytes = commented front last "text" := by
  simp only [Image.bytes, Image.directory, completed, commented, front, List.flatMap_cons,
    List.flatMap_nil, List.append_nil, List.append_assoc]

theorem bytes_hidden : hidden.bytes = commented front last decoy.encode := by
  simp only [Image.bytes, Image.directory, hidden, commented, List.flatMap_nil, List.nil_append,
    List.append_nil, List.append_assoc]

theorem length_front : front.length = 158 := by
  simp only [front, parts, List.length_append, LocalHeader.length_encode, Member.length_encode]
  rfl

/-- The search passes over a comment that is too short for an end record and the signature. -/
theorem passed_text : Passed front last "text" := by
  have hsize : (commented front last "text").length = front.length + EndRecord.length + 4 := by
    rw [commented, List.length_append, List.length_append, EndRecord.length_encode, ← Nat.add_assoc,
      show (Bytes.ascii "text").length = 4 from rfl]
  refine forall_behind (n := 4) hsize ?_
  rw [length_front]
  decide +kernel

theorem places_overhanging : overhanging.Places completed.bytes "text" (localHeader 1 149) "a"
    ((localHeader 1 0).encode ++
      ("t" ++ ("hi" ++ (completed.directory ++ completed.last.encode)))) where
  at_offset := by
    refine ⟨[], [], ?_, rfl⟩
    simp only [Image.bytes, completed, parts, List.append_assoc, List.nil_append, List.append_nil]
  nameLength := rfl
  extraLength := by
    simp only [Image.directory, completed, List.flatMap_cons, List.flatMap_nil, List.length_append,
      LocalHeader.length_encode, Member.length_encode, EndRecord.length_encode]
    rfl

/-- The second file is there whatever follows it. -/
theorem places_enclosed (after : Bytes) :
    enclosed.Places (parts ++ after) "hi" (localHeader 1 0) "t" [] where
  at_offset := by
    refine ⟨(localHeader 1 149).encode ++ Bytes.ascii "a", after, ?_, ?_⟩
    · simp only [parts, List.append_assoc, List.nil_append]
    · rw [List.length_append, LocalHeader.length_encode]
      rfl
  nameLength := rfl
  extraLength := rfl

theorem in_enclosed (after : Bytes) : enclosed.In (parts ++ after) :=
  ⟨rfl, rfl, rfl, _, _, _, _, .stored rfl rfl, places_enclosed after, rfl⟩

theorem valid_completed : completed.Valid where
  disk := rfl
  directoryDisk := rfl
  count := rfl
  few := by decide
  directorySize := by
    simp only [Image.directory, completed, List.flatMap_cons, List.flatMap_nil, List.length_append,
      Member.length_encode]
    rfl
  directorySize_ne := by decide
  directoryOffset := by
    simp only [completed, parts, List.length_append, LocalHeader.length_encode]
    rfl
  directoryOffset_ne := by decide
  comment := by decide
  signature := by
    have hposition : completed.endPosition = front.length := by
      rw [front, List.length_append, List.length_append]
      rfl
    rw [hposition, bytes_completed]
    exact passed_text
  once := List.pairwise_pair.mpr nofun
  stored := by
    have hoverhanging : overhanging.In completed.bytes :=
      ⟨rfl, rfl, rfl, _, _, _, _, .stored rfl rfl, places_overhanging, rfl⟩
    intro m hm _
    simp only [completed, List.mem_cons, List.not_mem_nil, or_false] at hm
    rcases hm with rfl | rfl
    · exact hoverhanging
    · exact in_enclosed _

theorem valid_hidden : hidden.Valid where
  disk := rfl
  directoryDisk := rfl
  count := rfl
  few := by decide
  directorySize := rfl
  directorySize_ne := by decide
  directoryOffset := by
    rw [hidden, List.length_append, length_front, EndRecord.length_encode]
    rfl
  directoryOffset_ne := by decide
  comment := by decide
  signature := by
    have hsize : hidden.bytes.length = hidden.endPosition + EndRecord.length + 0 := by
      rw [Image.bytes, Image.endPosition, List.length_append, List.length_append,
        List.length_append, EndRecord.length_encode, show hidden.comment.length = 0 from rfl]
      omega
    exact forall_behind hsize fun k hk => absurd hk (Nat.not_lt_zero k)
  once := .nil
  stored := fun _ hm => absurd hm List.not_mem_nil

/-- With the first comment or without one the directory says the same. -/
theorem exists_index_front : ∃ (l : Listing) (entries : List Archive.Entry),
    l.Shows (completed.members.map Member.item) ∧
      index completed.bytes.toArray = .ok (l.records, entries) ∧
      index (front ++ last.encode).toArray = .ok (l.records, entries) := by
  have hkinds (p : Path) (hdirectory : { path := p, kind := .directory } ∈ completed.entries) :
      { path := p, kind := .file } ∉ completed.entries := by
    simp [Image.entries, completed, overhanging, enclosed] at hdirectory
  obtain ⟨l, entries, hl, hindex⟩ := valid_completed.exists_opened hkinds
  refine ⟨l, entries, hl, hindex, ?_⟩
  rw [← index_commented (by decide) passed_text, ← bytes_completed, hindex]

/-- Without the comment the data of the file are behind the end. -/
theorem content_overhanging (x : Std.TreeMap Path Record × List Archive.Entry) :
    (Archive.ofIndex (front ++ last.encode) [] x).content overhanging.header.record =
      .error .dataBounds := by
  have hparts : front ++ last.encode = [] ++ ((localHeader 1 149).encode ++ (Bytes.ascii "a" ++
      ((localHeader 1 0).encode ++ (Bytes.ascii "t" ++ (Bytes.ascii "hi" ++
        (overhanging.encode ++ (enclosed.encode ++ last.encode))))))) := by
    simp only [front, parts, List.append_assoc, List.nil_append]
  have hoffset : overhanging.header.record.offset.toNat = ([] : Bytes).length := rfl
  have hdecode : LocalHeader.decode? (slice (front ++ last.encode).toArray
      overhanging.header.record.offset.toNat LocalHeader.length) = some (localHeader 1 149) := by
    rw [slice_of_eq hparts hoffset (LocalHeader.length_encode _).symm, LocalHeader.decode?_encode]
  have hsize : (front ++ last.encode).toArray.size = 180 := by
    rw [List.size_toArray, List.length_append, length_front, EndRecord.length_encode]
    rfl
  refine Archive.content_of_reach rfl hdecode ?_
  show (front ++ last.encode).toArray.size < overhanging.header.record.reach
      (front ++ last.encode).toArray
  rw [hsize, Record.reach, hdecode]
  decide

end Sample

/-- A short comment leaves the entries and a file before it as they are. -/
theorem ofBytes_commented_text :
    ∃ a a', Archive.ofBytes (Sample.front ++ Sample.last.encode) [] = .ok a ∧
    Archive.ofBytes (commented Sample.front Sample.last "text") [] = .ok a' ∧
    a'.entries = a.entries ∧ a'.read "t" = a.read "t" ∧ a.read "t" = .ok "hi" := by
  obtain ⟨l, entries, hl, -, hfront⟩ := Sample.exists_index_front
  have hrecord : l.records[("t" : Path)]? = some Sample.enclosed.header.record :=
    Image.record_of_shows hl (m := Sample.enclosed) (by simp [Sample.completed]) rfl
  have hbare : Archive.ofBytes (Sample.front ++ Sample.last.encode) [] =
      .ok (.ofIndex _ [] (l.records, entries)) := Archive.ofBytes_eq_ok_iff.mpr ⟨_, hfront, rfl⟩
  have hparts : Sample.front ++ Sample.last.encode =
      Sample.parts ++ (Sample.overhanging.encode ++ Sample.enclosed.encode ++ Sample.last.encode) :=
    List.append_assoc ..
  obtain ⟨a', hopen, hentries, -, hread⟩ :=
    Archive.ofBytes_commented hbare (by decide) Sample.passed_text
  refine ⟨_, a', hbare, hopen, hentries, hread "t" ?_, ?_⟩
  · intro r hr
    obtain rfl := Option.some.inj (hrecord.symm.trans hr)
    show Sample.enclosed.header.record.reach (Sample.front ++ Sample.last.encode).toArray ≤ _
    rw [hparts, (Sample.places_enclosed _).reach_eq, commentPosition, Sample.length_front]
    decide
  · have hcontent :
        (Archive.ofIndex (Sample.front ++ Sample.last.encode) [] (l.records, entries)).content
        Sample.enclosed.header.record = .ok "hi" :=
      (Sample.in_enclosed _).content_eq (congrArg List.toArray hparts)
    rw [Archive.read_eq_of_record hrecord, hcontent]
    rfl

/-- A comment can add to a file that is declared to reach into it, and it can hide the directory. -/
theorem ofBytes_commented_changes : Sample.last.commentLength = 0 ∧ ∃ a a₁ a₂,
    Archive.ofBytes (Sample.front ++ Sample.last.encode) [] = .ok a ∧
    Archive.ofBytes (commented Sample.front Sample.last "text") [] = .ok a₁ ∧
    Archive.ofBytes (commented Sample.front Sample.last Sample.decoy.encode) [] = .ok a₂ ∧
    (a.read "a" ≠ .ok "text" ∧ a₁.read "a" = .ok "text") ∧
    (a.contains "a" = true ∧ a₂.contains "a" = false) := by
  obtain ⟨l, entries, hl, hcompleted, hfront⟩ := Sample.exists_index_front
  have hmem : Sample.overhanging ∈ Sample.completed.members := by simp [Sample.completed]
  have hrecord : l.records[("a" : Path)]? = some Sample.overhanging.header.record :=
    Image.record_of_shows hl hmem rfl
  obtain ⟨l₂, entries₂, hl₂, hhidden⟩ :=
    Sample.valid_hidden.exists_opened fun p h => absurd h List.not_mem_nil
  rw [Sample.bytes_completed] at hcompleted
  rw [Sample.bytes_hidden] at hhidden
  refine ⟨rfl, _, _, _, Archive.ofBytes_eq_ok_iff.mpr ⟨_, hfront, rfl⟩,
    Archive.ofBytes_eq_ok_iff.mpr ⟨_, hcompleted, rfl⟩,
    Archive.ofBytes_eq_ok_iff.mpr ⟨_, hhidden, rfl⟩, ⟨?_, ?_⟩, ?_, ?_⟩
  · rw [Archive.read_eq_of_record hrecord, Sample.content_overhanging]
    exact nofun
  · rw [← Sample.bytes_completed]
    exact Sample.valid_completed.read_ofIndex hl hmem rfl [] entries
  · show l.records.contains "a" = true
    rw [Std.TreeMap.contains_eq_isSome_getElem?, hrecord]
    rfl
  · show l₂.records.contains "a" = false
    rw [Bool.eq_false_iff, ne_eq, hl₂.contains_iff]
    rintro ⟨x, hx, -⟩
    exact absurd hx List.not_mem_nil

end JarRepair.Zip

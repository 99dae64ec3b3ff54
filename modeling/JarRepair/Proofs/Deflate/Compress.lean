import JarRepair.Proofs.Deflate.Heads
import JarRepair.Proofs.Deflate.Packing
import JarRepair.Proofs.Deflate.Pieces

/-! # Compressed data

Compressing gives a complete stream for the data: each block stands for its part of them in
whichever form it is written, and the blocks follow each other to the end of the data. So inflating
undoes compressing. -/

namespace JarRepair.Deflate

open Format

/-! ## Symbols of tokens -/

namespace Token

variable {data : Array UInt8} {i j : Nat} {tokens : List Token} {t : Token}

/-- A copy has a length and a distance that there are symbols for. -/
def Regular : Token → Prop
  | .literal _ => True
  | .copy length distance =>
    minCopy ≤ length ∧ length ≤ maxCopy ∧ 0 < distance ∧ distance ≤ maxDistance

theorem Covers.regular (h : Covers data i tokens j) : ∀ t ∈ tokens, t.Regular := by
  induction h with
  | nil => simp
  | literal _ _ ih => exact List.forall_mem_cons.mpr ⟨trivial, ih⟩
  | copy hcopy _ ih =>
    exact List.forall_mem_cons.mpr ⟨⟨hcopy.min_le, hcopy.le_max, hcopy.pos, hcopy.near⟩, ih⟩

theorem Regular.literalSymbol_lt (h : t.Regular) : t.literalSymbol < 286 := by
  cases t with
  | literal b => exact Nat.lt_trans b.toNat_lt (by decide)
  | copy length distance =>
    obtain ⟨base, extra, -, hcode, -⟩ := amount_length h.1 h.2.1 []
    have hlt := (List.getElem?_eq_some_iff.mp hcode).1
    rw [show lengthCodes.length = 29 from rfl] at hlt
    rw [literalSymbol]
    omega

theorem Regular.distanceSymbol_lt (h : t.Regular) : ∀ s ∈ t.distanceSymbol?, s < 30 := by
  cases t with
  | literal b => exact fun s hs => nomatch hs
  | copy length distance =>
    obtain ⟨base, extra, -, hcode, -⟩ := amount_distance h.2.2.1 h.2.2.2 []
    rintro s hs
    obtain rfl := Option.some.inj hs
    exact (List.getElem?_eq_some_iff.mp hcode).1

end Token

/-! ## Codes of a block -/

section

variable {tokens : List Token}

theorem serve_fixed (h : ∀ t ∈ tokens, t.Regular) :
    Serve fixedLiteralLengths fixedDistanceLengths tokens := by
  have hliteral : ∀ s < 288, fixedLiteralLengths.getD s 0 ≠ 0 := by decide +kernel
  have hdistance : ∀ s < 32, fixedDistanceLengths.getD s 0 ≠ 0 := by decide +kernel
  refine ⟨fits_fixedLiteralLengths, fits_fixedDistanceLengths,
    hliteral _ (by decide), fun t ht => ?_, fun t ht s hs => ?_⟩
  · exact hliteral _ (Nat.lt_trans (h t ht).literalSymbol_lt (by decide))
  · exact hdistance _ (Nat.lt_trans ((h t ht).distanceSymbol_lt s hs) (by decide))

/-- How many bits a word of a symbol that has one takes. -/
theorem Fits.length_word_le {lengths : List Nat} {s n : Nat} (h : Fits lengths)
    (hs : lengths.getD s 0 ≠ 0) (hn : ∀ l ∈ lengths, l ≤ n) :
    ((Words.ofLengths lengths).word s).length ≤ n :=
  hn _ (List.mem_of_getElem? (h.isWord_word hs).length)

theorem length_symbolFor_le {codes : List (Nat × Nat)} {n : Nat} (hn : ∀ c ∈ codes, c.2 ≤ n)
    (v : Nat) :
    (symbolFor codes v).2.length ≤ n := by
  simp only [symbolFor, length_lowBits, List.getD_eq_getElem?_getD]
  rcases hcode : codes[(codes.takeWhile fun c => decide (c.1 ≤ v)).length - 1]? with _ | c
  · exact Nat.zero_le n
  · exact hn c (List.mem_of_getElem? hcode)

/-- A token takes no more bits than its words, and those that the symbols leave open. -/
theorem Serve.length_bodyBits_le {literals distances : List Nat} {n m : Nat}
    (h : Serve literals distances tokens) (hn : ∀ l ∈ literals, l ≤ n)
    (hm : ∀ l ∈ distances, l ≤ m) :
    (bodyBits (.ofLengths literals distances) tokens).length ≤
      (n + m + 18) * tokens.length + n := by
  obtain ⟨hliterals, hdistances, hends, hliteral, hdistance⟩ := h
  induction tokens with
  | nil => exact (hliterals.length_word_le hends hn).trans (Nat.le_add_left _ _)
  | cons t tokens ih =>
    obtain ⟨hword, hliteral⟩ := List.forall_mem_cons.mp hliteral
    obtain ⟨hword', hdistance⟩ := List.forall_mem_cons.mp hdistance
    have htoken : (t.bits (.ofLengths literals distances)).length ≤ n + m + 18 := by
      have hlength := hliterals.length_word_le hword hn
      cases t with
      | literal b => exact hlength.trans (by omega)
      | copy length distance =>
        have hlength' := hdistances.length_word_le (hword' _ rfl) hm
        have hextra : (symbolFor lengthCodes length).2.length ≤ 5 :=
          length_symbolFor_le (by decide) length
        have hextra' : (symbolFor distanceCodes distance).2.length ≤ 13 :=
          length_symbolFor_le (by decide) distance
        rw [Token.literalSymbol] at hlength
        simp only [Token.bits, WordPair.ofLengths, List.length_append]
        omega
    have hothers := ih hliteral hdistance
    rw [bodyBits_cons, List.length_append, List.length_cons, Nat.mul_succ]
    omega

end

/-! ## Blocks of data -/

namespace Block

/-- A block stands for the data from one position to another. -/
structure Stands (data : Bytes) (i : Nat) (b : Block) (j : Nat) : Prop where
  covers : Token.Covers data.toArray i b.tokens j
  take_eq : data.take j = data.take i ++ b.data
  few : b.tokens.length ≤ maxTokens

/-- Blocks follow each other to the end of the data, where the last one ends. -/
inductive Chain (data : Bytes) : Nat → List Block → Prop
  | last {i : Nat} {b : Block} : b.last = true → b.Stands data i data.length → Chain data i [b]
  | next {i j : Nat} {b : Block} {blocks : List Block} :
    b.last = false → b.Stands data i j → Chain data j blocks → Chain data i (b :: blocks)

theorem chain_divide {data : Bytes} {tokens : List Token} {fuel i : Nat}
    (hfuel : tokens.length < fuel) (h : Token.Covers data.toArray i tokens data.length) :
    Chain data i (divide fuel (data.drop i) tokens) := by
  induction fuel generalizing i tokens with
  | zero => exact absurd hfuel (Nat.not_lt_zero _)
  | succ fuel ih =>
    have hsplit := List.take_append_drop maxTokens tokens
    have hcovers := h
    rw [← hsplit] at hcovers
    obtain ⟨j, hnow, hlater⟩ := hcovers.of_append
    have hj := hnow.eq_add
    have hfew : (tokens.take maxTokens).length ≤ maxTokens := List.length_take_le _ _
    rw [List.sum_eq_foldl] at hj
    rw [divide]
    split_ifs with hlast
    · obtain ⟨hempty, -⟩ := Bool.and_eq_true_iff.mp hlast
      rw [List.isEmpty_iff.mp hempty] at hlater
      cases hlater
      exact .last rfl ⟨hnow, by simp, hfew⟩
    · have hne : tokens ≠ [] := by
        rintro rfl
        exact hlast rfl
      have hlength := List.length_pos_iff.mpr hne
      refine .next rfl ⟨hnow, by rw [hj, List.take_add], hfew⟩ ?_
      rw [List.drop_drop, ← hj]
      refine ih ?_ hlater
      rw [List.length_drop, maxTokens]
      omega

theorem chain_ofData (data : Bytes) : Chain data 0 (ofData data) :=
  chain_divide (Nat.lt_succ_self _) (Token.covers_ofData data)

/-! ## Forms of a block -/

variable {data : Bytes} {rest : List Bool} {i j : Nat} {b : Block} {p : Packer}

theorem Stands.content (h : b.Stands data i j) {literals distances : List Nat}
    (hserve : Serve literals distances b.tokens) (rest : List Bool) :
    Content literals distances (data.take i)
      (bodyBits (.ofLengths literals distances) b.tokens ++ rest) (data.take j) rest :=
        h.covers.content hserve rest

theorem Stands.body_fixed (h : b.Stands data i j) (rest : List Bool) :
    ∃ mid, Number 2 (b.fixedBits ++ rest) 1 mid ∧ Body 1 (data.take i) mid (data.take j) rest :=
  ⟨_, ⟨by decide, rfl⟩, .fixed (h.content (serve_fixed h.covers.regular) rest)⟩

theorem serve_given {tokens : List Token} (h : ∀ t ∈ tokens, t.Regular)
    {literals distances : List Nat}
    (hliterals : Chosen maxCodeLength
      (countSymbols 286 (endOfBlock :: tokens.map Token.literalSymbol)) literals)
    (hdistances : Chosen maxCodeLength (countSymbols 30 (tokens.filterMap Token.distanceSymbol?))
      distances) :
    Serve literals distances tokens where
  fits_literals := hliterals.fits (Nat.le_refl _)
  fits_distances := hdistances.fits (Nat.le_refl _)
  ends := hliterals.used _ (countSymbols_ne_zero List.mem_cons_self (by decide))
  literal t ht := hliterals.used _ (countSymbols_ne_zero
    (List.mem_cons_of_mem _ (List.mem_map_of_mem ht)) (h t ht).literalSymbol_lt)
  distance t ht s hs := hdistances.used _ (countSymbols_ne_zero
    (List.mem_filterMap.mpr ⟨t, ht, hs⟩) ((h t ht).distanceSymbol_lt s hs))

theorem Stands.body_given (h : b.Stands data i j) (rest : List Bool) :
    ∃ mid, Number 2 (b.givenBits ++ rest) 2 mid ∧ Body 2 (data.take i) mid (data.take j) rest := by
  have hliterals : Chosen maxCodeLength _
      (lengthsFor maxCodeLength
        (countSymbols 286 (endOfBlock :: b.tokens.map Token.literalSymbol))) :=
    chosen_countSymbols _ (Nat.le_refl _) (by decide) (by decide)
  have hdistances : Chosen maxCodeLength _
      (lengthsFor maxCodeLength (countSymbols 30 (b.tokens.filterMap Token.distanceSymbol?))) :=
    chosen_countSymbols _ (Nat.le_refl _) (by decide) (by decide)
  have hserve := serve_given h.covers.regular hliterals hdistances
  have hmax := hliterals.length_le
  have hmax' := hdistances.length_le
  rw [size_countSymbols] at hmax hmax'
  have hmin : endOfBlock < (lengthsFor maxCodeLength
      (countSymbols 286 (endOfBlock :: b.tokens.map Token.literalSymbol))).length := by
    refine Nat.lt_of_not_le fun hle => hserve.ends ?_
    rw [List.getD_eq_getElem?_getD, List.getElem?_eq_none hle, Option.getD_none]
  have hgiven := given_codeBits hmin hmax hdistances.length_pos hmax' hliterals.le
    hdistances.le hserve.ends
    hliterals.usable hdistances.usable
  refine ⟨_, ⟨by decide, by rw [givenBits, List.append_assoc, List.append_assoc]; rfl⟩,
    .given (hgiven _) (h.content hserve rest)⟩

/-- The head of stored bytes is their number and its complement. -/
theorem flatMap_storedBytes (hlength : b.data.length < 65536) : b.storedBytes.flatMap byteBits =
    lowBits 16 b.data.length ++
      (lowBits 16 (65535 - b.data.length) ++ b.data.flatMap byteBits) := by
  obtain ⟨hbegun, hbits⟩ := Packer.bits_pushAll Packer.begun_empty
    (lowBits 16 b.data.length ++ (lowBits 16 b.data.length).map (!·))
  obtain ⟨n, hn, hbytes⟩ := Packer.flatMap_bytes hbegun
  have hempty : ({} : Packer).bits = [] := rfl
  rw [hbits, hempty, List.nil_append] at hbytes
  have hall := congrArg List.length hbytes
  simp only [length_flatMap_byteBits, List.length_append, List.length_map, length_lowBits,
    List.length_replicate] at hall
  obtain rfl : n = 0 := by omega
  have hcomplement : lowBits 16 (65535 - b.data.length) = (lowBits 16 b.data.length).map (!·) :=
    lowBits_complement hlength
  rw [storedBytes, List.flatMap_append, hbytes, List.replicate_zero, List.append_nil,
    List.append_assoc, hcomplement]

/-- Stored bytes start where a byte starts. -/
theorem Stands.body_stored (h : b.Stands data i j) (hlength : b.data.length < 65536) {n : Nat}
    (hn : n < 8) (hrest : rest.length % 8 = 0) : Body 0 (data.take i)
      (List.replicate n false ++ (b.storedBytes.flatMap byteBits ++ rest)) (data.take j) rest := by
  have hskip :
      (List.replicate n false ++ (b.storedBytes.flatMap byteBits ++ rest)).length % 8 = n := by
    simp only [List.length_append, List.length_replicate, length_flatMap_byteBits]
    omega
  rw [h.take_eq]
  refine .stored ?_
  rw [hskip, List.drop_left' List.length_replicate, flatMap_storedBytes hlength, List.append_assoc,
    List.append_assoc]
  exact ⟨_, ⟨hlength, rfl⟩, ⟨by omega, rfl⟩⟩

/-- Stored bytes are taken only if there are not more of them than a number of 16 bits says. -/
theorem Stands.length_lt (h : b.Stands data i j)
    (hstored : b.data.length + 4 ≤ bytesFor b.fixedBits) : b.data.length < 65536 := by
  have hliteral : ∀ l ∈ fixedLiteralLengths, l ≤ 9 := by decide +kernel
  have hdistance : ∀ l ∈ fixedDistanceLengths, l ≤ 5 := by decide +kernel
  have hbody := (serve_fixed h.covers.regular).length_bodyBits_le hliteral hdistance
  have hfew := h.few
  have hbits : b.fixedBits.length = 2 + (bodyBits .fixed b.tokens).length := List.length_append
  rw [← WordPair.fixed] at hbody
  rw [maxTokens] at hfew
  rw [bytesFor, hbits] at hstored
  omega

/-! ## Writing blocks -/

/-- The bits of a block have been appended: whether it is the last one, and what stands for its part
of the data, if what follows fills up the last byte. -/
def Appends (data : Bytes) (i j : Nat) (last : Bool) (p q : Packer) : Prop :=
  q.Begun ∧ ∃ bits, q.bits = p.bits ++ last :: bits ∧ ∀ rest, (q.bits ++ rest).length % 8 = 0 →
    ∃ type mid, Number 2 (bits ++ rest) type mid ∧ Body type (data.take i) mid (data.take j) rest

theorem appends_coded (hp : p.Begun) (last : Bool) {coded : List Bool}
    (hcoded : ∀ rest, ∃ type mid, Number 2 (coded ++ rest) type mid ∧
      Body type (data.take i) mid (data.take j) rest) :
    Appends data i j last p ((p.push last).pushAll coded) := by
  obtain ⟨hfirst, hbits⟩ := Packer.bits_push hp last
  obtain ⟨hall, hbits'⟩ := Packer.bits_pushAll hfirst coded
  refine ⟨hall, coded, ?_, fun rest _ => hcoded rest⟩
  rw [hbits', hbits, List.append_assoc, List.singleton_append]

theorem Stands.appends_stored (h : b.Stands data i j) (hlength : b.data.length < 65536)
    (hp : p.Begun) (last : Bool) {q : Packer}
    (hq : q = ((p.push last).pushAll [false, false]).align) :
    Appends data i j last p { q with done := q.done ++ b.storedBytes.toArray } := by
  obtain ⟨hfirst, hbits⟩ := Packer.bits_push hp last
  obtain ⟨htype, hbits'⟩ := Packer.bits_pushAll hfirst [false, false]
  obtain ⟨hbegun, hcount, n, hn, hzeros⟩ := Packer.bits_align htype
  rw [← hq] at hbegun hcount hzeros
  have hall := Packer.bits_append_bytes hcount b.storedBytes
  have hfull :
      ({ q with done := q.done ++ b.storedBytes.toArray } : Packer).bits.length % 8 = 0 := by
    rw [Packer.length_bits]
    dsimp only
    omega
  refine ⟨⟨hbegun.count_lt, hbegun.value_lt⟩, false :: false :: (List.replicate n false ++
    b.storedBytes.flatMap byteBits), ?_, fun rest hrest => ?_⟩
  · rw [hall, hzeros, hbits', hbits]
    simp only [List.append_assoc, List.cons_append, List.nil_append]
  · rw [List.length_append] at hrest
    have hfill : rest.length % 8 = 0 := by omega
    have hbody := h.body_stored hlength hn hfill
    rw [← List.append_assoc] at hbody
    exact ⟨0, _, ⟨by decide, rfl⟩, hbody⟩

theorem Stands.appends_push (hp : p.Begun) (h : b.Stands data i j) :
    Appends data i j b.last p (push p b) := by
  have hcoded (rest : List Bool) : ∃ type mid,
      Number 2
        ((if bytesFor b.fixedBits ≤ bytesFor b.givenBits then b.fixedBits else b.givenBits) ++ rest)
        type mid ∧ Body type (data.take i) mid (data.take j) rest := by
    split
    · exact ⟨1, h.body_fixed rest⟩
    · exact ⟨2, h.body_given rest⟩
  have hle :
      bytesFor (if bytesFor b.fixedBits ≤ bytesFor b.givenBits then b.fixedBits else b.givenBits) ≤
      bytesFor b.fixedBits := by
    split <;> omega
  rw [push]
  generalize
    (if bytesFor b.fixedBits ≤ bytesFor b.givenBits then b.fixedBits else b.givenBits) = coded
    at hcoded hle ⊢
  split
  · rename_i hstored
    exact h.appends_stored (h.length_lt (hstored.trans hle)) hp b.last rfl
  · exact appends_coded hp b.last hcoded

/-- The bits of blocks stand for the data from where the first one starts. -/
theorem Chain.exists_bits {blocks : List Block} (h : Chain data i blocks) (hp : p.Begun) :
    (blocks.foldl push p).Begun ∧ ∃ bits, (blocks.foldl push p).bits = p.bits ++ bits ∧
      ∀ rest, ((blocks.foldl push p).bits ++ rest).length % 8 = 0 →
        Blocks (data.take i) (bits ++ rest) data rest := by
  induction h generalizing p with
  | @last i b hlast hb =>
    obtain ⟨hbegun, bits, hbits, hbody⟩ := hb.appends_push hp
    rw [hlast] at hbits
    refine ⟨hbegun, _, hbits, fun rest hrest => ?_⟩
    obtain ⟨type, mid, htype, hbody⟩ := hbody rest hrest
    rw [List.take_length] at hbody
    exact .last htype hbody
  | @next i j b blocks hlast hb _ ih =>
    obtain ⟨hbegun, bits, hbits, hbody⟩ := hb.appends_push hp
    obtain ⟨hbegun', bits', hbits', hblocks⟩ := ih hbegun
    rw [hlast] at hbits
    refine ⟨hbegun', false :: (bits ++ bits'), ?_, fun rest hrest => ?_⟩
    · rw [List.foldl_cons, hbits', hbits, List.append_assoc, List.cons_append]
    · rw [List.foldl_cons, hbits', List.append_assoc] at hrest
      obtain ⟨type, mid, htype, hbody⟩ := hbody (bits' ++ rest) hrest
      rw [List.cons_append, List.append_assoc]
      refine .next htype hbody (hblocks rest ?_)
      rwa [hbits', List.append_assoc]

end Block

/-! ## Compressing -/

/-- What data are compressed to is a stream for them. -/
theorem stream_compress (data : Bytes) : Stream (compress data) data := by
  obtain ⟨hbegun, bits, hbits, hblocks⟩ := (Block.chain_ofData data).exists_bits Packer.begun_empty
  obtain ⟨n, -, hbytes⟩ := Packer.flatMap_bytes hbegun
  have hlength := congrArg List.length hbytes
  rw [length_flatMap_byteBits] at hlength
  refine ⟨List.replicate n false, ?_⟩
  rw [compress, hbytes, hbits]
  exact hblocks _ (by omega)

/-- Inflating undoes compressing. -/
theorem inflateExactly_compress (data : Bytes) :
    inflateExactly (compress data) data.length = .ok data :=
  inflateExactly_eq_ok_iff.mpr ⟨stream_compress data, rfl⟩

end JarRepair.Deflate

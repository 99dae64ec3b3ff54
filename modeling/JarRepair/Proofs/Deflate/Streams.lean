import JarRepair.Proofs.Deflate.Content

/-! # Complete streams

Data inflate completely just if a stream is at the front of them, and the output is what the stream
stands for. -/

namespace JarRepair.Deflate

open Format

variable {bits rest : List Bool} {out out' : Bytes} {s s' : BitSource} {a a' : Array UInt8}
  {fuel : Nat}

/-! ## Stored bytes -/

theorem lowBits_append (m n v : Nat) :
    lowBits m v ++ lowBits n (v / 2 ^ m) = lowBits (m + n) v := by
  induction m generalizing v with
  | zero => simp [lowBits]
  | succ m ih =>
    rw [Nat.succ_add, lowBits, lowBits, List.cons_append, ← ih, Nat.div_div_eq_div_mul,
      Nat.pow_succ']

theorem lowBits_mod (n v : Nat) : lowBits n (v % 2 ^ n) = lowBits n v := by
  induction n generalizing v with
  | zero => rfl
  | succ n ih =>
    rw [lowBits, lowBits, ← ih (v / 2), Nat.pow_succ']
    congr 2
    · rw [Nat.mod_mul_right_mod]
    · rw [Nat.mod_mul_right_div_self]

theorem byteBits_wordOf (hi lo : UInt8) :
    byteBits lo ++ byteBits hi = lowBits 16 (wordOf hi lo).toNat := by
  have hlo := lo.toNat_lt
  rw [toNat_wordOf, ← lowBits_append 8 8, byteBits, byteBits,
    ← lowBits_mod 8 (hi.toNat * 256 + lo.toNat)]
  congr 2 <;> omega

theorem number_word_iff {hi lo : UInt8} {v : Nat} :
    Number 16 (byteBits lo ++ (byteBits hi ++ bits)) v rest ↔ v = (wordOf hi lo).toNat ∧
      rest = bits := by
  have hword : Number 16 (byteBits lo ++ (byteBits hi ++ bits)) (wordOf hi lo).toNat bits :=
    ⟨(wordOf hi lo).toNat_lt, by rw [← List.append_assoc, byteBits_wordOf]⟩
  constructor
  · exact fun h => h.unique hword
  · rintro ⟨rfl, rfl⟩
    exact hword

theorem byteBits_inj {b c : UInt8} (h : byteBits b = byteBits c) : b = c := by
  have hb : Number 8 (byteBits b) b.toNat [] := ⟨b.toNat_lt, (List.append_nil _).symm⟩
  have hc : Number 8 (byteBits b) c.toNat [] := ⟨c.toNat_lt, by rw [h, List.append_nil, byteBits]⟩
  exact UInt8.toNat_inj.mp (hb.unique hc).1

/-- Bytes that are at the front by their bits. -/
theorem bits_append_eq_iff {content data : Bytes} :
    content.flatMap byteBits ++ rest = data.flatMap byteBits ↔ ∃ behind, data = content ++ behind ∧
      rest = behind.flatMap byteBits := by
  constructor
  · intro h
    induction content generalizing data with
    | nil => exact ⟨data, rfl, h⟩
    | cons b content ih =>
      rcases data with _ | ⟨c, data⟩
      · have hlength := congrArg List.length h
        simp at hlength
      · rw [List.flatMap_cons, List.flatMap_cons, List.append_assoc] at h
        obtain ⟨hb, hbehind⟩ := List.append_inj h (by simp)
        obtain rfl := byteBits_inj hb
        obtain ⟨behind, rfl, rfl⟩ := ih hbehind
        exact ⟨behind, rfl, rfl⟩
  · rintro ⟨behind, rfl, rfl⟩
    rw [List.flatMap_append]

theorem bits_align {s : BitSource} (hs : s.Short) :
    s.bits.drop (s.bits.length % 8) = s.align.bits := by
  rw [BitSource.Short] at hs
  have hahead : s.bits.length % 8 = s.ahead.length := by
    rw [length_bits]
    omega
  rw [hahead, BitSource.bits, List.drop_left]
  rfl

theorem bytes_of_stored (hahead : s.ahead = []) (hrun : stored a s = .ok (a', s')) :
    s'.Short ∧ ∃ content, a'.toList = a.toList ++ content ∧ Stored s.bits content s'.bits := by
  obtain ⟨ahead, bytes⟩ := s
  obtain rfl : ahead = [] := hahead
  rw [stored] at hrun
  split at hrun
  · rename_i l₀ l₁ n₀ n₁ rest hrest
    dsimp only at hrest hrun
    subst hrest
    split at hrun
    · cases hrun
    · split at hrun
      · rename_i hsum henough
        cases hrun
        have hlength : (rest.take (wordOf l₁ l₀).toNat).length = (wordOf l₁ l₀).toNat :=
          List.length_take_of_le (Bytes.atLeast_iff.mp henough)
        refine ⟨Nat.succ_pos 7, rest.take (wordOf l₁ l₀).toNat, Array.toList_append, _,
          number_word_iff.mpr ⟨hlength, rfl⟩, number_word_iff.mpr ⟨by omega, ?_⟩⟩
        exact bits_append_eq_iff.mpr ⟨_, (List.take_append_drop _ _).symm, rfl⟩
      · cases hrun
  · cases hrun

theorem stored_of_bytes {content : Bytes} (hahead : s.ahead = []) (h : Stored s.bits content rest) :
    ∃ s', stored a s = .ok (a ++ content.toArray, s') ∧ s'.bits = rest := by
  obtain ⟨mid, hnumber, hcomplement⟩ := h
  obtain ⟨ahead, bytes⟩ := s
  obtain rfl : ahead = [] := hahead
  have hlength := hnumber.length_eq
  have hlength' := hcomplement.length_eq
  have hlt := hnumber.1
  rw [length_bits] at hlength
  dsimp only [List.length_nil] at hlength
  have hfour : 4 ≤ bytes.length := by omega
  obtain ⟨l₀, l₁, n₀, n₁, bytes, rfl⟩ :
      ∃ l₀ l₁ n₀ n₁ behind, bytes = l₀ :: l₁ :: n₀ :: n₁ :: behind := by
    rcases bytes with _ | ⟨l₀, _ | ⟨l₁, _ | ⟨n₀, _ | ⟨n₁, behind⟩⟩⟩⟩
    · simp at hfour
    · simp at hfour
    · simp at hfour
    · simp at hfour
    · exact ⟨l₀, l₁, n₀, n₁, behind, rfl⟩
  obtain ⟨hcontent, rfl⟩ := number_word_iff.mp hnumber
  obtain ⟨hword, hbits⟩ := number_word_iff.mp hcomplement
  obtain ⟨behind, rfl, rfl⟩ := bits_append_eq_iff.mp hbits
  refine ⟨{ rest := behind }, ?_, rfl⟩
  rw [stored]
  dsimp only
  rw [← hcontent, ← hword,
    if_neg (by omega), if_pos (Bytes.atLeast_iff.mpr (by simp)), List.take_left, List.drop_left]

/-! ## Blocks -/

theorem Format.Body.length_le {type : Nat} (h : Body type out bits out' rest) :
    rest.length ≤ bits.length := by
  cases h with
  | stored hstored =>
    obtain ⟨mid, hnumber, hcomplement⟩ := hstored
    have hlength := hnumber.length_eq
    have hlength' := hcomplement.length_eq
    rw [List.length_drop] at hlength
    rw [List.length_append] at hlength'
    omega
  | fixed hcontent => exact hcontent.length_le
  | given hgiven hcontent => exact hcontent.length_le.trans hgiven.length_le

theorem continues_stored (bound : Nat) :
    Continues bound (fun a s => stored a s.align) (Body 0) where
  sound hs hrun := by
    obtain ⟨hs', content, hcontent, hstored⟩ := bytes_of_stored rfl hrun
    rw [← bits_align hs] at hstored
    rw [hcontent]
    exact ⟨hs', .stored hstored⟩
  complete := by
    intro a s out rest hs _ h
    generalize hbits : s.bits = bits at h
    generalize hout : a.toList = out at h
    cases h with
    | stored hstored =>
      subst hbits hout
      rw [bits_align hs] at hstored
      obtain ⟨s', hrun, hs'⟩ := stored_of_bytes (a := a) rfl hstored
      exact ⟨s', by rw [hrun]; simp, hs'⟩
  fails := by
    intro a s r _ hrun
    rw [stored] at hrun
    split at hrun
    · dsimp only at hrun
      split at hrun
      · cases hrun
        simp
      · split at hrun
        · cases hrun
        · cases hrun
          simp
    · cases hrun
      simp

theorem continues_fixed (fuel : Nat) : Continues fuel (coded .fixed fuel) (Body 1) := by
  have hcoded := continues_coded fits_fixedLiteralLengths fits_fixedDistanceLengths fuel
  refine ⟨fun hs hrun => (hcoded.sound hs hrun).imp_right .fixed, fun hs hbound h => ?_,
    hcoded.fails⟩
  cases h with
  | fixed hcontent => exact hcoded.complete hs hbound hcontent

theorem continues_given (fuel : Nat) : Continues fuel (block fuel 2) (Body 2) where
  sound := by
    intro a s a' s' hs hrun
    rw [block] at hrun
    split at hrun
    · rename_i codes s₁ hread
      obtain ⟨hs₁, literals, distances, hgiven, rfl⟩ := parses_read.sound hs hread
      obtain ⟨hs', hcontent⟩ := (continues_coded hgiven.fits.1 hgiven.fits.2 fuel).sound hs₁ hrun
      exact ⟨hs', .given hgiven hcontent⟩
    · cases hrun
  complete := by
    intro a s out rest hs hbound h
    cases h with
    | given hgiven hcontent =>
      have hle := hgiven.length_le
      obtain ⟨s₁, hread, rfl⟩ := parses_read.complete ⟨_, _, hgiven, rfl⟩
      have hs₁ := (parses_read.sound hs hread).1
      obtain ⟨s', hrun, hs'⟩ := (continues_coded hgiven.fits.1 hgiven.fits.2 fuel).complete hs₁
        (Nat.lt_of_le_of_lt hle hbound) hcontent
      exact ⟨s', by rw [block, hread]; exact hrun, hs'⟩
  fails := by
    intro a s r hs hrun
    rw [block] at hrun
    split at hrun
    · rename_i codes s₁ hread
      obtain ⟨hs₁, literals, distances, hgiven, rfl⟩ := parses_read.sound hs hread
      exact (continues_coded hgiven.fits.1 hgiven.fits.2 fuel).fails hs₁ hrun
    · rename_i ending hread
      cases hrun
      exact parses_read.fails hs hread

theorem continues_block (fuel type : Nat) : Continues fuel (block fuel type) (Body type) := by
  rcases type with _ | _ | _ | type
  · exact continues_stored fuel
  · exact continues_fixed fuel
  · exact continues_given fuel
  · refine ⟨fun _ hrun => ?_, fun _ _ h => ?_, fun _ hrun => ?_⟩
    · cases hrun
    · cases h
    · cases hrun
      simp

theorem parses_blockHead : Parses blockHead fun bits head rest =>
    ∃ mid, bits = head.1 :: mid ∧ Number 2 mid head.2 rest := by
  refine (parses_bit.bind fun last _ _ _ => (parses_number 2).bind fun type _ _ _ =>
    parses_pure (last, type)).congr fun bits head rest => ?_
  constructor
  · rintro ⟨last, mid, rfl, type, _, htype, rfl, rfl⟩
    exact ⟨mid, rfl, htype⟩
  · rintro ⟨mid, rfl, htype⟩
    exact ⟨head.1, mid, rfl, head.2, rest, htype, rfl, rfl⟩

theorem blocks_of_complete {steps : Nat} (hs : s.Short)
    (hrun : blocks steps fuel a s = { output := a', ending := .complete }) :
    ∃ rest, Blocks a.toList s.bits a'.toList rest := by
  induction fuel generalizing a s with
  | zero => cases hrun
  | succ fuel ih =>
    rw [blocks] at hrun
    split at hrun
    · rename_i ending hhead
      exact absurd (congrArg Inflated.ending hrun) (parses_blockHead.fails hs hhead)
    · rename_i last type s₁ hhead
      obtain ⟨hs₁, mid, hbits, htype⟩ := parses_blockHead.sound hs hhead
      dsimp only at hbits htype
      split at hrun
      · rename_i r hblock
        exact absurd (congrArg Inflated.ending hrun) ((continues_block steps type).fails hs₁ hblock)
      · rename_i a₁ s₂ hblock
        obtain ⟨hs₂, hbody⟩ := (continues_block steps type).sound hs₁ hblock
        rw [hbits]
        split at hrun
        · rename_i hlast
          cases hrun
          rw [hlast]
          exact ⟨_, .last htype hbody⟩
        · rename_i hlast
          obtain ⟨rest, hrest⟩ := ih hs₂ hrun
          rw [Bool.not_eq_true] at hlast
          rw [hlast]
          exact ⟨rest, .next htype hbody hrest⟩

/-- As each block takes a bit, there are steps enough. -/
theorem complete_of_blocks {steps : Nat} (hs : s.Short) (hsteps : s.bits.length < steps)
    (hfuel : s.bits.length < fuel) (h : Blocks a.toList s.bits out' rest) :
    blocks steps fuel a s = { output := out'.toArray, ending := .complete } := by
  generalize hout : a.toList = out at h
  generalize hbits : s.bits = bits at h hsteps hfuel
  induction h generalizing a s fuel with
  | last htype hbody =>
    subst hout
    have htakes := htype.length_eq
    obtain ⟨fuel, rfl⟩ := Nat.exists_eq_succ_of_ne_zero (Nat.ne_zero_of_lt hfuel)
    obtain ⟨s₁, hhead, rfl⟩ := parses_blockHead.complete (a := (true, _)) ⟨_, hbits, htype⟩
    have hs₁ := (parses_blockHead.sound hs hhead).1
    rw [List.length_cons] at hsteps
    obtain ⟨s', hblock, -⟩ := (continues_block steps _).complete hs₁ (by omega) hbody
    rw [blocks, hhead]
    dsimp only
    rw [hblock]
    rfl
  | next htype hbody _ ih =>
    subst hout
    have htakes := htype.length_eq
    have hle := hbody.length_le
    obtain ⟨fuel, rfl⟩ := Nat.exists_eq_succ_of_ne_zero (Nat.ne_zero_of_lt hfuel)
    obtain ⟨s₁, hhead, rfl⟩ := parses_blockHead.complete (a := (false, _)) ⟨_, hbits, htype⟩
    have hs₁ := (parses_blockHead.sound hs hhead).1
    rw [List.length_cons] at hsteps hfuel
    obtain ⟨s₂, hblock, rfl⟩ := (continues_block steps _).complete hs₁ (by omega) hbody
    have hs₂ := ((continues_block steps _).sound hs₁ hblock).1
    rw [blocks, hhead]
    dsimp only
    rw [hblock]
    exact ih hs₂ (List.toList_toArray) rfl (by omega) (by omega)

/-- Inflating is complete just for data that start with a stream, and gives its content. -/
theorem inflate_eq_complete_iff {data content : Bytes} :
    inflate data = { output := content.toArray, ending := .complete } ↔ Stream data content := by
  have hshort : ({ rest := data } : BitSource).Short := Nat.succ_pos 7
  constructor
  · intro hrun
    exact blocks_of_complete hshort hrun
  · rintro ⟨rest, hblocks⟩
    have hlength : ({ rest := data } : BitSource).bits.length < 8 * data.length + 1 := by
      rw [length_bits]
      exact Nat.lt_succ_of_le (Nat.zero_add _).le
    exact complete_of_blocks hshort hlength hlength hblocks

end JarRepair.Deflate

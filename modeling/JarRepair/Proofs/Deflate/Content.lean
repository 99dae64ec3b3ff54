import JarRepair.Proofs.Deflate.Lengths
import JarRepair.Proofs.Words

/-! # The content of a block

Symbols are read as the format has them, and output is continued with the bytes that they stand for.
Each symbol takes a bit, so with more steps than bits no block is cut short. -/

namespace JarRepair.Deflate

open Format

variable {literals distances : List Nat} {bits rest : List Bool} {out out' : Bytes}

/-! ## Symbols -/

theorem fits_fixedLiteralLengths : Fits fixedLiteralLengths where
  length_le := by decide +kernel
  weight_le := by decide +kernel

theorem fits_fixedDistanceLengths : Fits fixedDistanceLengths where
  length_le := by decide +kernel
  weight_le := by decide +kernel

theorem parses_extended (codes : List (Nat × Nat)) (symbol : Nat) :
    Parses (extended codes symbol) (Amount codes symbol) := by
  rw [extended]
  split
  · rename_i base extra hcode
    refine ((parses_number extra).bind fun n _ _ _ => parses_pure (base + n)).congr
      fun bits v rest => ?_
    constructor
    · rintro ⟨n, _, hn, rfl, rfl⟩
      exact ⟨base, extra, n, hcode, hn, rfl⟩
    · rintro ⟨_, _, n, hcode', hn, rfl⟩
      rw [hcode] at hcode'
      cases hcode'
      exact ⟨n, rest, hn, rfl, rfl⟩
  · rename_i hnone
    refine parses_corrupt.congr fun bits v rest => ⟨False.elim, ?_⟩
    rintro ⟨base, extra, n, hcode, -⟩
    rw [hnone] at hcode
    cases hcode

theorem Format.Amount.length_le {codes : List (Nat × Nat)} {symbol v : Nat}
    (h : Amount codes symbol bits v rest) : rest.length ≤ bits.length := by
  obtain ⟨base, extra, n, -, hn, -⟩ := h
  have hlength := hn.length_eq
  omega

section

variable {s : Nat} {symbol : Symbol}

theorem Format.means_literal_iff (h : s < endOfBlock) :
    Means distances s bits symbol rest ↔ symbol = .literal s.toUInt8 ∧ rest = bits := by
  rw [endOfBlock] at h
  constructor
  · rintro (b | _ | _)
    · exact ⟨by simp, rfl⟩
    · contradiction
    · omega
  · rintro ⟨rfl, rfl⟩
    have hb : Means distances s.toUInt8.toNat rest (.literal s.toUInt8) rest := .literal _ rest
    rwa [toNat_toUInt8 h] at hb

theorem Format.means_endOfBlock_iff :
    Means distances endOfBlock bits symbol rest ↔ symbol = .endOfBlock ∧ rest = bits := by
  constructor
  · generalize hs : endOfBlock = s
    rintro (b | _ | _)
    · exact absurd b.toNat_lt (hs ▸ Nat.lt_irrefl _)
    · exact ⟨rfl, rfl⟩
    · rw [endOfBlock] at hs
      omega
  · rintro ⟨rfl, rfl⟩
    exact .endOfBlock _

theorem Format.means_copy_iff {l : Nat} : Means distances (257 + l) bits symbol rest ↔
    ∃ length mid, Amount lengthCodes l bits length mid ∧ ∃ d mid', Coded distances mid d mid' ∧
      ∃ distance, Amount distanceCodes d mid' distance rest ∧ symbol = .copy length distance := by
  constructor
  · generalize hs : 257 + l = s
    rintro (b | _ | ⟨hlength, hd, hdistance⟩)
    · have hb := b.toNat_lt
      omega
    · rw [endOfBlock] at hs
      omega
    · obtain rfl := Nat.add_left_cancel hs
      exact ⟨_, _, hlength, _, _, hd, _, hdistance, rfl⟩
  · rintro ⟨length, mid, hlength, d, mid', hd, distance, hdistance, rfl⟩
    exact .copy hlength hd hdistance

theorem Format.Means.length_le (h : Means distances s bits symbol rest) :
    rest.length ≤ bits.length := by
  cases h with
  | literal => exact Nat.le_refl _
  | endOfBlock => exact Nat.le_refl _
  | copy hlength hd hdistance =>
    exact hdistance.length_le.trans (hd.length_lt.le.trans hlength.length_le)

theorem Format.Next.length_lt (h : Next literals distances bits symbol rest) :
    rest.length < bits.length := by
  obtain ⟨s, mid, hs, hmeans⟩ := h
  exact Nat.lt_of_le_of_lt hmeans.length_le hs.length_lt

theorem Format.Next.distance_pos {length distance : Nat}
    (h : Next literals distances bits (.copy length distance) rest) : 0 < distance := by
  obtain ⟨s, mid, -, _ | _ | ⟨-, -, base, extra, n, hcode, -, rfl⟩⟩ := h
  have hbase : ∀ x ∈ distanceCodes, 0 < x.1 := by decide
  exact Nat.add_pos_left (hbase _ (List.mem_of_getElem? hcode)) n

end

/-- How far back a symbol reaches. -/
def Symbol.reach : Symbol → Nat
  | .copy _ distance => distance
  | _ => 0

theorem parses_symbol (hliterals : Fits literals) (hdistances : Fits distances) (produced : Nat) :
    Parses ((Codes.ofLengths literals distances).symbol produced) fun bits symbol rest =>
      Next literals distances bits symbol rest ∧ symbol.reach ≤ produced := by
  refine (hliterals.parses_symbol.bind (Q := fun s mid symbol rest =>
    Means distances s mid symbol rest ∧ symbol.reach ≤ produced) fun s _ _ _ => ?_).congr
    fun bits symbol rest => ?_
  · split
    · rename_i hliteral
      simp only [means_literal_iff hliteral]
      refine (parses_pure _).congr fun bits symbol rest => (and_iff_left_of_imp ?_).symm
      rintro ⟨rfl, -⟩
      exact Nat.zero_le _
    · rename_i hmore
      split
      · rename_i hend
        simp only [hend, means_endOfBlock_iff]
        refine (parses_pure _).congr fun bits symbol rest => (and_iff_left_of_imp ?_).symm
        rintro ⟨rfl, -⟩
        exact Nat.zero_le _
      · rename_i hend
        obtain ⟨l, rfl⟩ : ∃ l, s = 257 + l := by
          rw [endOfBlock] at hmore hend
          exact ⟨s - 257, by omega⟩
        simp only [means_copy_iff, Nat.add_sub_cancel_left]
        refine ((parses_extended lengthCodes l).bind fun length _ _ _ =>
          hdistances.parses_symbol.bind fun d _ _ _ => (parses_extended distanceCodes d).bind
          fun distance _ _ _ =>
            Parses.unless fun hfar => parses_pure (Symbol.copy length distance)).congr
          fun bits symbol rest => ?_
        constructor
        · rintro ⟨length, mid, hlength, d, mid', hd, distance, _, hdistance, hfar, rfl, rfl⟩
          exact ⟨⟨length, mid, hlength, d, mid', hd, distance, hdistance, rfl⟩,
            Nat.le_of_not_lt hfar⟩
        · rintro ⟨⟨length, mid, hlength, d, mid', hd, distance, hdistance, rfl⟩, hreach⟩
          exact ⟨length, mid, hlength, d, mid', hd, distance, rest, hdistance,
            Nat.not_lt.mpr hreach, rfl, rfl⟩
  · constructor
    · rintro ⟨s, mid, hs, hmeans, hreach⟩
      exact ⟨⟨s, mid, hs, hmeans⟩, hreach⟩
    · rintro ⟨⟨s, mid, hs, hmeans⟩, hreach⟩
      exact ⟨s, mid, hs, hmeans, hreach⟩

/-! ## Copies -/

/-- A copy of one byte is appended before the rest. -/
theorem Format.Copied.cons {distance n : Nat} {b : UInt8} (hpos : 0 < distance)
    (hle : distance ≤ out.length) (hb : out[out.length - distance]? = some b)
    (h : Copied distance n (out ++ [b]) out') :
    Copied distance (n + 1) out out' := by
  have hlength := h.length_eq
  rw [List.length_append, List.length_singleton] at hlength
  refine ⟨by omega, fun k hk => ?_, fun k hk hlt => ?_⟩
  · rw [h.getElem?_eq_of_lt k (by rw [List.length_append]; omega), List.getElem?_append_left hk]
  · rcases Nat.eq_or_lt_of_le hk with rfl | hk
    · rw [h.getElem?_eq_of_lt _ (by simp),
        h.getElem?_eq_of_lt _ (by rw [List.length_append]; omega),
        List.getElem?_concat_length, List.getElem?_append_left (by omega), hb]
    · exact h.getElem?_eq k (by rw [List.length_append, List.length_singleton]; omega) hlt

theorem copied_copyBack {distance : Nat} {a : Array UInt8} (hpos : 0 < distance)
    (hle : distance ≤ a.size) (n : Nat) :
    Copied distance n a.toList (copyBack distance n a).toList := by
  induction n generalizing a with
  | zero => exact ⟨rfl, fun _ _ => rfl, fun k hk hlt => absurd hlt (Nat.not_lt.mpr hk)⟩
  | succ n ih =>
    have hbyte : a.toList[a.toList.length - distance]? = some (a.getD (a.size - distance) 0) := by
      rw [Array.length_toList, Array.getElem?_toList, Array.getD_eq_getD_getElem?,
        Array.getElem?_eq_getElem (by omega), Option.getD_some]
    have hrest := ih (a := a.push (a.getD (a.size - distance) 0)) (by rw [Array.size_push]; omega)
    rw [Array.toList_push] at hrest
    exact hrest.cons hpos (by rwa [Array.length_toList]) hbyte

theorem Format.Copied.unique {distance length : Nat} (hpos : 0 < distance)
    (hle : distance ≤ out.length) {a b : Bytes} (ha : Copied distance length out a)
    (hb : Copied distance length out b) : a = b := by
  refine List.ext_getElem? fun k => ?_
  induction k using Nat.strongRecOn with
  | ind k ih =>
    rcases Nat.lt_or_ge k out.length with hk | hk
    · rw [ha.getElem?_eq_of_lt k hk, hb.getElem?_eq_of_lt k hk]
    · rcases Nat.lt_or_ge k a.length with hlt | hge
      · rw [ha.getElem?_eq k hk hlt,
          hb.getElem?_eq k hk (by rw [hb.length_eq, ← ha.length_eq]; exact hlt),
          ih (k - distance) (by omega)]
      · rw [List.getElem?_eq_none hge,
          List.getElem?_eq_none (by rw [hb.length_eq, ← ha.length_eq]; exact hge)]

/-! ## Output and relations -/

/-- Output is continued as a relation says, from sources with less than `bound` bits. -/
structure Continues (bound : Nat)
    (p : Array UInt8 → BitSource → Except Inflated (Array UInt8 × BitSource))
    (R : Bytes → List Bool → Bytes → List Bool → Prop) : Prop where
  sound : ∀ {a s a' s'}, s.Short → p a s = .ok (a', s') → s'.Short ∧
    R a.toList s.bits a'.toList s'.bits
  complete : ∀ {a s out rest}, s.Short → s.bits.length < bound → R a.toList s.bits out rest →
    ∃ s', p a s = .ok (out.toArray, s') ∧ s'.bits = rest
  fails : ∀ {a s r}, s.Short → p a s = .error r → r.ending ≠ .complete

variable {s s' : BitSource} {a a' : Array UInt8} {fuel : Nat}

/-! ## The content of a block -/

theorem Format.Content.length_le (h : Content literals distances out bits out' rest) :
    rest.length ≤ bits.length := by
  induction h with
  | endOfBlock hnext => exact hnext.length_lt.le
  | literal hnext _ ih => exact ih.trans hnext.length_lt.le
  | copy hnext _ _ _ ih => exact ih.trans hnext.length_lt.le

theorem content_of_coded (hliterals : Fits literals) (hdistances : Fits distances) (hs : s.Short)
    (hrun : coded (.ofLengths literals distances) fuel a s = .ok (a', s')) :
    s'.Short ∧ Content literals distances a.toList s.bits a'.toList s'.bits := by
  have hparses := parses_symbol hliterals hdistances a.size
  induction fuel generalizing a s with
  | zero => cases hrun
  | succ fuel ih =>
    rw [coded] at hrun
    split at hrun
    · cases hrun
    · rename_i b s₁ hsymbol
      obtain ⟨hs₁, hnext, -⟩ := hparses.sound hs hsymbol
      obtain ⟨hs', hcontent⟩ := ih hs₁ hrun (parses_symbol hliterals hdistances _)
      rw [Array.toList_push] at hcontent
      exact ⟨hs', .literal hnext hcontent⟩
    · rename_i length distance s₁ hsymbol
      obtain ⟨hs₁, hnext, hreach⟩ := hparses.sound hs hsymbol
      obtain ⟨hs', hcontent⟩ := ih hs₁ hrun (parses_symbol hliterals hdistances _)
      exact ⟨hs', .copy hnext hreach (copied_copyBack hnext.distance_pos hreach length) hcontent⟩
    · rename_i s₁ hsymbol
      obtain ⟨hs₁, hnext, -⟩ := hparses.sound hs hsymbol
      cases hrun
      exact ⟨hs₁, .endOfBlock hnext⟩

/-- As each symbol takes a bit, there are steps enough. -/
theorem coded_of_content (hliterals : Fits literals) (hdistances : Fits distances)
    (hfuel : s.bits.length < fuel) (h : Content literals distances a.toList s.bits out' rest) :
    ∃ s', coded (.ofLengths literals distances) fuel a s = .ok (out'.toArray, s') ∧
      s'.bits = rest := by
  generalize hout : a.toList = out at h
  generalize hbits : s.bits = bits at h hfuel
  -- The induction is on what the block says; the fuel only has to stay above the bits that are
  -- left.
  induction h generalizing a s fuel with
  | endOfBlock hnext =>
    subst hout hbits
    obtain ⟨fuel, rfl⟩ := Nat.exists_eq_succ_of_ne_zero (Nat.ne_zero_of_lt hfuel)
    obtain ⟨s', hsymbol, hs'⟩ :=
      (parses_symbol hliterals hdistances a.size).complete ⟨hnext, Nat.zero_le _⟩
    exact ⟨s', by rw [coded, hsymbol], hs'⟩
  | literal hnext _ ih =>
    subst hout hbits
    have htakes := hnext.length_lt
    obtain ⟨fuel, rfl⟩ := Nat.exists_eq_succ_of_ne_zero (Nat.ne_zero_of_lt hfuel)
    obtain ⟨s₁, hsymbol, rfl⟩ :=
      (parses_symbol hliterals hdistances a.size).complete ⟨hnext, Nat.zero_le _⟩
    have hlater : s₁.bits.length < fuel := by omega
    obtain ⟨s', hcoded, hs'⟩ := ih Array.toList_push rfl hlater
    exact ⟨s', by rw [coded, hsymbol]; exact hcoded, hs'⟩
  | @copy _ _ _ _ _ _ length _ hnext hle hcopied _ ih =>
    subst hout hbits
    have htakes := hnext.length_lt
    have hcopy := copied_copyBack hnext.distance_pos hle length
    obtain ⟨fuel, rfl⟩ := Nat.exists_eq_succ_of_ne_zero (Nat.ne_zero_of_lt hfuel)
    obtain ⟨s₁, hsymbol, rfl⟩ := (parses_symbol hliterals hdistances a.size).complete ⟨hnext, hle⟩
    have hlater : s₁.bits.length < fuel := by omega
    obtain ⟨s', hcoded, hs'⟩ := ih (hcopy.unique hnext.distance_pos hle hcopied) rfl hlater
    exact ⟨s', by rw [coded, hsymbol]; exact hcoded, hs'⟩

theorem continues_coded (hliterals : Fits literals) (hdistances : Fits distances) (fuel : Nat) :
    Continues fuel (coded (.ofLengths literals distances) fuel) (Content literals distances) where
  sound := content_of_coded hliterals hdistances
  complete _ := coded_of_content hliterals hdistances
  fails := by
    intro a s r hs hrun
    have hparses := parses_symbol hliterals hdistances a.size
    induction fuel generalizing a s with
    | zero =>
      cases hrun
      simp
    | succ fuel ih =>
      rw [coded] at hrun
      split at hrun
      · rename_i ending hsymbol
        cases hrun
        exact hparses.fails hs hsymbol
      · rename_i hsymbol
        exact ih (hparses.sound hs hsymbol).1 hrun (parses_symbol hliterals hdistances _)
      · rename_i hsymbol
        exact ih (hparses.sound hs hsymbol).1 hrun (parses_symbol hliterals hdistances _)
      · cases hrun

end JarRepair.Deflate

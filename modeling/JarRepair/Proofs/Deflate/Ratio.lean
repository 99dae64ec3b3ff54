import Mathlib.Algebra.Order.Ring.Nat
import JarRepair.Deflate.Inflate
import JarRepair.Proofs.Outcome

/-! # How much a stream can produce

The most that a bit can produce is half of the longest copy: a copy takes one bit at least for its
length and one for its distance. So the output never outgrows what the bits read can have produced,
and the check of a declared size refuses no stream that has this size. -/

namespace JarRepair.Deflate

variable {α β : Type}

/-! ## Bits that a parser takes -/

/-- A parser that succeeds has taken `n` bits at least, and its result is in `Q`. -/
def Takes (n : Nat) (p : BitParser α) (Q : α → Prop := fun _ => True) : Prop :=
  ∀ s a s', p s = .ok (a, s') → s'.bits.length + n ≤ s.bits.length ∧ Q a

theorem bind_apply (p : BitParser α) (f : α → BitParser β) (s : BitSource) :
    (p >>= f) s = (p s >>= fun r => f r.1 r.2) := rfl

section

variable {n m : Nat} {p : BitParser α} {f : α → BitParser β} {Q : α → Prop} {R : β → Prop}

theorem bind_run_eq_ok_iff {s s' : BitSource} {b : β} :
    (p >>= f) s = .ok (b, s') ↔ ∃ a s₁, p s = .ok (a, s₁) ∧ f a s₁ = .ok (b, s') := by
  rw [bind_apply, Outcome.bind_eq_ok_iff, Prod.exists]

theorem takes_pure {a : α} (h : Q a) : Takes 0 (pure a : BitParser α) Q := by
  rintro s _ _ ⟨⟩
  exact ⟨Nat.le_refl _, h⟩

theorem takes_throw (e : Ending) : Takes 0 (throw e : BitParser α) Q := nofun

theorem Takes.bind (h : Takes n p Q) (hf : ∀ a, Q a → Takes m (f a) R) :
    Takes (n + m) (p >>= f) R := by
  intro s b s' hrun
  obtain ⟨a, s₁, hp, hb⟩ := bind_run_eq_ok_iff.mp hrun
  obtain ⟨hfirst, ha⟩ := h s a s₁ hp
  obtain ⟨hrest, hR⟩ := hf a ha s₁ b s' hb
  exact ⟨by omega, hR⟩

/-- What comes after the first parser may take nothing. -/
theorem Takes.first (h : Takes n p Q) (hf : ∀ a, Q a → Takes 0 (f a) R) : Takes n (p >>= f) R :=
  h.bind hf

theorem Takes.zero (h : Takes n p Q) : Takes 0 p Q := fun s a s' hrun =>
  (h s a s' hrun).imp_left (Nat.le_trans (Nat.add_le_add_left (Nat.zero_le n) _))

theorem takes_throw_bind (e : Ending) : Takes 0 (throw e >>= f) R := nofun

/-- What comes after a check. -/
theorem Takes.unless {c : Prop} [Decidable c] {e : Ending} (h : Takes 0 p Q) :
    Takes 0 (if c then do throw (α := PUnit) e; p else p) Q := by
  split
  · exact takes_throw_bind e
  · exact h

end

theorem takes_bit : Takes 1 bit := by
  intro s b s' hrun
  rw [bit] at hrun
  split at hrun
  · rename_i hnext
    cases hrun
    rw [BitSource.bits_of_next? hnext]
    exact ⟨Nat.le_refl _, trivial⟩
  · simp at hrun

theorem takes_number (n : Nat) : Takes 0 (number n) fun v => v < 2 ^ n := by
  induction n with
  | zero => exact takes_pure Nat.one_pos
  | succ n ih =>
    refine (takes_bit.first fun b _ => ih.first fun v hv => takes_pure ?_).zero
    have hb := Bool.toNat_le b
    rw [Nat.pow_succ]
    omega

theorem takes_branch {zero one : Tree} (hzero : Takes 0 zero.walk) (hone : Takes 0 one.walk) :
    Takes 1 (Tree.node zero one).walk := by
  refine takes_bit.first fun b _ => ?_
  cases b with
  | false => exact hzero
  | true => exact hone

theorem takes_walk (t : Tree) : Takes 0 t.walk := by
  induction t with
  | leaf symbol => exact takes_pure trivial
  | gap => exact takes_pure trivial
  | node zero one hzero hone => exact (takes_branch hzero hone).zero

/-! ## Codes -/

/-- No word of the code is empty. -/
def Tree.Branches (t : Tree) : Prop := ∃ zero one, t = .node zero one

theorem Tree.branches_ofLengths (lengths : List Nat) : (ofLengths lengths).Branches := by
  rw [ofLengths]
  split
  · exact ⟨_, _, rfl⟩
  · rename_i symbols hne
    rcases hsymbols : inOrder lengths with _ | ⟨⟨length, symbol⟩, rest⟩
    · exact absurd hsymbols hne
    · have hmem : (length, symbol) ∈ inOrder lengths := hsymbols ▸ List.mem_cons_self
      obtain ⟨l, -, hl⟩ := List.mem_flatMap.mp hmem
      obtain rfl : length = l + 1 := by simpa using (List.mem_filter.mp hl).2
      exact ⟨_, _, rfl⟩

theorem Tree.Branches.takes_symbol {t : Tree} (h : t.Branches) : Takes 1 t.symbol := by
  obtain ⟨zero, one, rfl⟩ := h
  refine (takes_branch (takes_walk zero) (takes_walk one)).first fun found _ => ?_
  cases found with
  | none => exact takes_throw .corrupt
  | some symbol => exact takes_pure trivial

/-- Neither code of a block has an empty word. -/
structure Codes.Branches (codes : Codes) : Prop where
  literals : codes.literals.Branches
  distances : codes.distances.Branches

theorem Codes.branches_fixed : Codes.fixed.Branches :=
  ⟨Tree.branches_ofLengths fixedLiteralLengths, Tree.branches_ofLengths fixedDistanceLengths⟩

theorem takes_codeLengths (t : Tree) (total fuel : Nat) (found : List Nat) :
    Takes 0 (codeLengths t total fuel found) := by
  induction fuel generalizing found with
  | zero => exact takes_pure trivial
  | succ fuel ih =>
    rw [codeLengths]
    split
    · exact takes_pure trivial
    · refine (takes_walk t).first fun symbol _ => ?_
      dsimp only
      split
      · exact ih _
      · split
        · refine (takes_number 2).first fun n _ => ?_
          split
          · exact takes_throw_bind .corrupt
          · exact (ih _).unless
        · exact (takes_number 3).first fun n _ => (ih _).unless
        · exact (takes_number 7).first fun n _ => (ih _).unless

theorem takes_givenLengths (n : Nat) : Takes 0 (givenLengths n) := by
  induction n with
  | zero => exact takes_pure trivial
  | succ n ih => exact (takes_number 3).first fun l _ => ih.first fun ls _ => takes_pure trivial

theorem takes_read : Takes 0 Codes.read Codes.Branches := by
  refine (takes_number 5).first fun literals _ => (takes_number 5).first fun distances _ => ?_
  refine (takes_number 4).first fun given _ => Takes.unless ?_
  refine (takes_givenLengths _).first fun lengths _ => Takes.unless ?_
  refine (takes_codeLengths _ _ _ _).first fun all _ => Takes.unless (Takes.unless ?_)
  exact takes_pure ⟨Tree.branches_ofLengths _, Tree.branches_ofLengths _⟩

/-! ## Symbols -/

/-- How many bytes a bit can produce. -/
def perBit : Nat := 129

/-- How many bytes a symbol produces. -/
def Symbol.size : Symbol → Nat
  | .literal _ => 1
  | .copy length _ => length
  | .endOfBlock => 0

theorem takes_extended {codes : List (Nat × Nat)} {limit : Nat}
    (h : ∀ x ∈ codes, x.1 + 2 ^ x.2 ≤ limit + 1) (symbol : Nat) :
    Takes 0 (extended codes symbol) (· ≤ limit) := by
  rw [extended]
  split
  · rename_i base extra hcode
    refine (takes_number extra).first fun v hv => takes_pure ?_
    have hlimit := h (base, extra) (List.mem_of_getElem? hcode)
    dsimp only at hlimit
    omega
  · exact takes_throw .corrupt

theorem lengthCodes_le : ∀ x ∈ lengthCodes, x.1 + 2 ^ x.2 ≤ maxCopy + 1 := by decide

theorem distanceCodes_le : ∀ x ∈ distanceCodes, x.1 + 2 ^ x.2 ≤ 32768 + 1 := by decide

variable {codes : Codes} {s s' : BitSource} {out out' : Array UInt8}

theorem Codes.Branches.takes_copy (h : codes.Branches) (produced literal : Nat) :
    Takes 1 (do
      let length ← extended lengthCodes (literal - 257)
      let distance ← extended distanceCodes (← codes.distances.symbol)
      if produced < distance then throw .corrupt
      return Symbol.copy length distance) fun symbol => symbol.size ≤ maxCopy := by
  refine (takes_extended lengthCodes_le _).bind (m := 1) fun length hlength => ?_
  refine h.distances.takes_symbol.first fun code _ => ?_
  refine (takes_extended distanceCodes_le code).first fun distance _ => ?_
  exact Takes.unless (p := pure (Symbol.copy length distance)) (takes_pure hlength)

/-- A symbol produces no more than the bits that it takes can produce. -/
theorem Codes.Branches.size_symbol (h : codes.Branches) {produced : Nat} {symbol : Symbol}
    (hrun : codes.symbol produced s = .ok (symbol, s')) :
    symbol.size + perBit * s'.bits.length ≤ perBit * s.bits.length := by
  obtain ⟨literal, s₁, hliteral, hrun⟩ := bind_run_eq_ok_iff.mp hrun
  obtain ⟨hfirst, -⟩ := h.literals.takes_symbol s literal s₁ hliteral
  rw [perBit]
  split at hrun
  · cases hrun
    rw [Symbol.size]
    omega
  · split at hrun
    · cases hrun
      rw [Symbol.size]
      omega
    · obtain ⟨hrest, hsize⟩ := h.takes_copy produced literal s₁ symbol s' hrun
      rw [maxCopy] at hsize
      omega

/-! ## Blocks -/

/-- What was produced, and what the bits left can still produce, is within a budget. -/
def Within (budget : Nat) : Except Inflated (Array UInt8 × BitSource) → Prop
  | .ok (out, s) => out.size + perBit * s.bits.length ≤ budget
  | .error r => r.output.size ≤ budget

theorem Within.mono {budget budget' : Nat} {r : Except Inflated (Array UInt8 × BitSource)}
    (h : Within budget r) (hle : budget ≤ budget') : Within budget' r := by
  cases r with
  | error r => exact Nat.le_trans h hle
  | ok r => exact Nat.le_trans h hle

theorem size_copyBack (distance n : Nat) (out : Array UInt8) :
    (copyBack distance n out).size = out.size + n := by
  induction n generalizing out with
  | zero => rfl
  | succ n ih =>
    rw [copyBack, ih, Array.size_push]
    omega

theorem Codes.Branches.within_coded (h : codes.Branches) (fuel : Nat) (out : Array UInt8)
    (s : BitSource) :
    Within (out.size + perBit * s.bits.length) (coded codes fuel out s) := by
  induction fuel generalizing out s with
  | zero => exact Nat.le_add_right _ _
  | succ fuel ih =>
    rw [coded]
    split
    · exact Nat.le_add_right _ _
    · rename_i b s₁ hsymbol
      have hsize := h.size_symbol hsymbol
      refine (ih _ s₁).mono ?_
      rw [Symbol.size] at hsize
      rw [Array.size_push]
      omega
    · rename_i length distance s₁ hsymbol
      have hsize := h.size_symbol hsymbol
      refine (ih _ s₁).mono ?_
      rw [Symbol.size] at hsize
      rw [size_copyBack]
      omega
    · rename_i s₁ hsymbol
      have hsize := h.size_symbol hsymbol
      exact Nat.add_le_add_left (Nat.le_trans (Nat.le_add_left _ _) hsize) _

theorem length_flatMap_byteBits (data : Bytes) :
    (data.flatMap byteBits).length = 8 * data.length := by
  simp [List.length_flatMap, Nat.mul_comm]

theorem length_bits (s : BitSource) : s.bits.length = s.ahead.length + 8 * s.rest.length := by
  rw [BitSource.bits, List.length_append, length_flatMap_byteBits]

/-- A stored byte takes eight bits. -/
theorem within_stored (out : Array UInt8) (s : BitSource) :
    Within (out.size + perBit * s.bits.length) (stored out s) := by
  rw [stored]
  split
  · rename_i l₀ l₁ n₀ n₁ rest hrest
    dsimp only
    split
    · exact Nat.le_add_right _ _
    · split
      · rw [Within]
        simp only [Array.size_append, List.size_toArray, List.length_take, List.length_drop,
          length_bits, hrest, List.length_cons, List.length_nil, perBit]
        omega
      · rw [Within]
        simp only [Array.size_append, List.size_toArray, length_bits, hrest,
          List.length_cons, perBit]
        omega
  · exact Nat.le_add_right _ _

theorem within_block (fuel type : Nat) (out : Array UInt8) (s : BitSource) :
    Within (out.size + perBit * s.bits.length) (block fuel type out s) := by
  rw [block.eq_def]
  split
  · refine (within_stored out s.align).mono (Nat.add_le_add_left (Nat.mul_le_mul_left perBit ?_) _)
    rw [length_bits, length_bits]
    exact Nat.add_le_add_right (Nat.zero_le _) _
  · exact Codes.branches_fixed.within_coded fuel out s
  · split
    · rename_i codes s₁ hread
      obtain ⟨hle, hcodes⟩ := takes_read s codes s₁ hread
      exact (hcodes.within_coded fuel out s₁).mono
        (Nat.add_le_add_left (Nat.mul_le_mul_left perBit hle) _)
    · exact Nat.le_add_right _ _
  · exact Nat.le_add_right _ _

theorem takes_blockHead : Takes 0 blockHead :=
  (takes_bit.first fun _ _ => (takes_number 2).first fun _ _ => takes_pure trivial).zero

theorem size_blocks (bits fuel : Nat) (out : Array UInt8) (s : BitSource) :
    (blocks bits fuel out s).output.size ≤ out.size + perBit * s.bits.length := by
  induction fuel generalizing out s with
  | zero => exact Nat.le_add_right _ _
  | succ fuel ih =>
    rw [blocks]
    split
    · exact Nat.le_add_right _ _
    · rename_i last type s₁ hhead
      obtain ⟨hle, -⟩ := takes_blockHead s _ s₁ hhead
      have hwithin := (within_block bits type out s₁).mono
        (Nat.add_le_add_left (Nat.mul_le_mul_left perBit hle) _)
      split
      · rename_i r hblock
        rwa [hblock] at hwithin
      · rename_i out₁ s₂ hblock
        rw [hblock] at hwithin
        split
        · exact Nat.le_trans (Nat.le_add_right _ _) hwithin
        · exact Nat.le_trans (ih out₁ s₂) hwithin

/-! ## Streams -/

/-- However it ends, a stream has produced no more than its bytes can produce. -/
theorem size_inflate (data : Bytes) : (inflate data).output.size ≤ data.length * maxRatio := by
  have hsize := size_blocks (8 * data.length + 1) (8 * data.length + 1) #[] { rest := data }
  rw [length_bits] at hsize
  simp only [Array.size_empty, List.length_nil, perBit] at hsize
  rw [inflate, maxRatio]
  omega

/-- A complete stream is accepted with the size of its content. -/
theorem inflateExactly_of_complete {data content : Bytes}
    (h : inflate data = { output := content.toArray, ending := .complete }) :
    inflateExactly data content.length = .ok content := by
  have hsize := size_inflate data
  rw [h, List.size_toArray] at hsize
  have haccept :
      ({ output := content.toArray, ending := .complete } : Inflated).accept content.length =
      .ok content := by
    simp [Inflated.accept, Inflated.compared]
  rw [inflateExactly, if_neg (Nat.not_lt.mpr (Nat.le_add_right_of_le hsize)), h, haccept]

/-- Content that is accepted has the size that was declared. -/
theorem length_of_inflateExactly {data content : Bytes} {declared : Nat}
    (h : inflateExactly data declared = .ok content) : content.length = declared := by
  rw [inflateExactly] at h
  split at h
  · exact nomatch h
  · rw [Inflated.accept] at h
    split at h
    · exact nomatch h
    · split at h
      · exact nomatch h
      · exact nomatch h
      · split at h
        · rename_i hsize
          obtain rfl := Except.ok.inj h
          rwa [Array.length_toList]
        · exact nomatch h

end JarRepair.Deflate

import JarRepair.Proofs.Deflate.Format
import JarRepair.Proofs.Deflate.Ratio

/-! # Parsers and relations

A parser reads a relation if it succeeds just where the relation puts something at the front of the
bits, with the value that it has there, and leaves the bits behind it. Such parsers are put together
as their relations are; here are those for numbers and words. -/

namespace JarRepair.Deflate

open Format

variable {α β : Type}

/-- A source has less than a byte ahead. -/
def BitSource.Short (s : BitSource) : Prop := s.ahead.length < 8

/-- A parser reads what is related to the bits, and all of that. Where it fails, it does not say
that data are complete. -/
structure Parses (p : BitParser α) (R : List Bool → α → List Bool → Prop) : Prop where
  sound : ∀ {s a s'}, s.Short → p s = .ok (a, s') → s'.Short ∧ R s.bits a s'.bits
  complete : ∀ {s a rest}, R s.bits a rest → ∃ s', p s = .ok (a, s') ∧ s'.bits = rest
  fails : ∀ {s e}, s.Short → p s = .error e → e ≠ .complete

section

variable {p : BitParser α} {f : α → BitParser β} {P P' : List Bool → α → List Bool → Prop}
  {Q : α → List Bool → β → List Bool → Prop}

theorem Parses.congr (h : Parses p P) (hiff : ∀ bits a rest, P bits a rest ↔ P' bits a rest) :
    Parses p P' where
  sound hs hrun := (h.sound hs hrun).imp_right (hiff _ _ _).mp
  complete hP := h.complete ((hiff _ _ _).mpr hP)
  fails := h.fails

theorem parses_pure (a : α) : Parses (pure a) fun bits a' rest => a' = a ∧ rest = bits where
  sound hs hrun := by
    cases hrun
    exact ⟨hs, rfl, rfl⟩
  complete := by
    rintro s a' rest ⟨rfl, rfl⟩
    exact ⟨s, rfl, rfl⟩
  fails _ hrun := by cases hrun

theorem parses_corrupt : Parses (throw .corrupt : BitParser α) fun _ _ _ => False where
  sound _ hrun := by cases hrun
  complete h := h.elim
  fails _ hrun := by
    cases hrun
    decide

theorem Parses.bind (hp : Parses p P) (hf : ∀ a bits rest, P bits a rest → Parses (f a) (Q a)) :
    Parses (p >>= f) fun bits b rest => ∃ a mid, P bits a mid ∧ Q a mid b rest where
  sound hs hrun := by
    obtain ⟨a, s₁, hfirst, hrest⟩ := bind_run_eq_ok_iff.mp hrun
    obtain ⟨hs₁, hP⟩ := hp.sound hs hfirst
    obtain ⟨hs', hQ⟩ := (hf a _ _ hP).sound hs₁ hrest
    exact ⟨hs', a, s₁.bits, hP, hQ⟩
  complete := by
    rintro s b rest ⟨a, mid, hP, hQ⟩
    obtain ⟨s₁, hfirst, rfl⟩ := hp.complete hP
    obtain ⟨s', hrest, hs'⟩ := (hf a _ _ hP).complete hQ
    exact ⟨s', bind_run_eq_ok_iff.mpr ⟨a, s₁, hfirst, hrest⟩, hs'⟩
  fails := by
    intro s e hs hrun
    rw [bind_apply] at hrun
    rcases hfirst : p s with e' | ⟨a, s₁⟩
    · rw [hfirst] at hrun
      cases hrun
      exact hp.fails hs hfirst
    · rw [hfirst] at hrun
      obtain ⟨hs₁, hP⟩ := hp.sound hs hfirst
      exact (hf a _ _ hP).fails hs₁ hrun

/-- What comes after a check. -/
theorem Parses.unless {c : Prop} [Decidable c] (h : ¬c → Parses p P) :
    Parses (if c then do throw (α := PUnit) .corrupt; p else p)
      fun bits a rest => ¬c ∧ P bits a rest where
  sound hs hrun := by
    split at hrun
    · cases hrun
    · rename_i hc
      exact ((h hc).sound hs hrun).imp_right (And.intro hc)
  complete := by
    rintro s a rest ⟨hc, hP⟩
    rw [if_neg hc]
    exact (h hc).complete hP
  fails hs hrun := by
    split at hrun
    · cases hrun
      decide
    · rename_i hc
      exact (h hc).fails hs hrun

end

/-! ## Numbers -/

theorem parses_bit : Parses bit fun bits b rest => bits = b :: rest where
  sound := by
    intro s b s' hs hrun
    rw [bit] at hrun
    split at hrun
    · rename_i r hnext
      cases hrun
      refine ⟨?_, BitSource.bits_of_next? hnext⟩
      rw [BitSource.Short] at hs ⊢
      rcases s with ⟨_ | ⟨c, ahead⟩, _ | ⟨byte, rest⟩⟩ <;> simp only [BitSource.next?] at hnext
      · cases hnext
      · cases hnext
        simp
      · cases hnext
        exact Nat.lt_of_succ_lt hs
      · cases hnext
        exact Nat.lt_of_succ_lt hs
    · cases hrun
  complete := by
    intro s b rest hbits
    rcases hnext : s.next? with _ | ⟨c, s'⟩
    · rw [BitSource.next?_eq_none_iff.mp hnext] at hbits
      cases hbits
    · rw [BitSource.bits_of_next? hnext] at hbits
      obtain ⟨rfl, rfl⟩ := List.cons.inj hbits
      exact ⟨s', by rw [bit, hnext], rfl⟩
  fails := by
    intro s e _ hrun
    rw [bit] at hrun
    split at hrun
    · cases hrun
    · cases hrun
      decide

theorem number_zero_iff {bits rest : List Bool} {v : Nat} :
    Number 0 bits v rest ↔ v = 0 ∧ rest = bits := by
  rw [Number, Nat.pow_zero, Nat.lt_one_iff, lowBits, List.nil_append, eq_comm (a := bits)]

theorem number_succ_iff {n v : Nat} {bits rest : List Bool} : Number (n + 1) bits v rest ↔
    ∃ b mid, bits = b :: mid ∧ ∃ v', Number n mid v' rest ∧ v = 2 * v' + b.toNat := by
  constructor
  · rintro ⟨hv, rfl⟩
    refine ⟨v % 2 == 1, lowBits n (v / 2) ++ rest, rfl, v / 2, ⟨?_, rfl⟩, ?_⟩
    · rw [Nat.pow_succ] at hv
      omega
    · rcases Nat.mod_two_eq_zero_or_one v with h | h <;> simp [h] <;> omega
  · rintro ⟨b, _, rfl, v', ⟨hv', rfl⟩, rfl⟩
    have hb := Bool.toNat_le b
    refine ⟨by rw [Nat.pow_succ]; omega, ?_⟩
    rw [lowBits, List.cons_append]
    congr 2
    · cases b <;> simp
    · congr 1
      omega

theorem Format.Number.unique {n v v' : Nat} {bits rest rest' : List Bool} (h : Number n bits v rest)
    (h' : Number n bits v' rest') : v = v' ∧ rest = rest' := by
  induction n generalizing bits v v' with
  | zero =>
    obtain ⟨rfl, rfl⟩ := number_zero_iff.mp h
    obtain ⟨rfl, rfl⟩ := number_zero_iff.mp h'
    exact ⟨rfl, rfl⟩
  | succ n ih =>
    obtain ⟨b, mid, rfl, v, hv, rfl⟩ := number_succ_iff.mp h
    obtain ⟨_, _, hbits, v', hv', rfl⟩ := number_succ_iff.mp h'
    obtain ⟨rfl, rfl⟩ := List.cons.inj hbits
    obtain ⟨rfl, rfl⟩ := ih hv hv'
    exact ⟨rfl, rfl⟩

theorem Format.Number.length_eq {n v : Nat} {bits rest : List Bool} (h : Number n bits v rest) :
    bits.length = n + rest.length := by
  rw [h.2, List.length_append, length_lowBits]

theorem parses_number (n : Nat) : Parses (number n) (Number n) := by
  induction n with
  | zero =>
    refine (parses_pure 0).congr fun bits v rest => number_zero_iff.symm
  | succ n ih =>
    refine (parses_bit.bind fun b _ _ _ => ih.bind fun v _ _ _ =>
      parses_pure (2 * v + b.toNat)).congr
      fun bits v rest => ?_
    rw [number_succ_iff]
    constructor
    · rintro ⟨b, mid, rfl, v', _, hv', rfl, rfl⟩
      exact ⟨b, mid, rfl, v', hv', rfl⟩
    · rintro ⟨b, mid, rfl, v', hv', rfl⟩
      exact ⟨b, mid, rfl, v', rest, hv', rfl, rfl⟩

/-! ## Words -/

theorem Format.Coded.symbol_lt {lengths : List Nat} {symbol : Nat} {bits rest : List Bool}
    (h : Coded lengths bits symbol rest) : symbol < lengths.length := by
  obtain ⟨w, hw, -⟩ := h
  exact (List.getElem?_eq_some_iff.mp hw.length).1

theorem Format.Coded.length_lt {lengths : List Nat} {symbol : Nat} {bits rest : List Bool}
    (h : Coded lengths bits symbol rest) : rest.length < bits.length := by
  obtain ⟨w, hw, rfl⟩ := h
  have hpos := List.length_pos_iff.mpr hw.nonempty
  rw [List.length_append]
  omega

theorem Tree.parses_walk (t : Tree) :
    Parses t.walk fun bits o rest => ∃ w, t.Ends w o ∧ bits = w ++ rest := by
  induction t with
  | leaf symbol =>
    refine (parses_pure (some symbol)).congr fun bits o rest => ?_
    constructor
    · rintro ⟨rfl, rfl⟩
      exact ⟨[], .leaf symbol, rfl⟩
    · rintro ⟨w, hw, rfl⟩
      cases hw
      exact ⟨rfl, rfl⟩
  | gap =>
    refine (parses_pure none).congr fun bits o rest => ?_
    constructor
    · rintro ⟨rfl, rfl⟩
      exact ⟨[], .gap, rfl⟩
    · rintro ⟨w, hw, rfl⟩
      cases hw
      exact ⟨rfl, rfl⟩
  | node zero one hzero hone =>
    refine (parses_bit.bind
      (Q := fun b mid o rest => ∃ w, (bif b then one else zero).Ends w o ∧ mid = w ++ rest)
      fun b _ _ _ => ?_).congr fun bits o rest => ?_
    · cases b with
      | false => exact hzero
      | true => exact hone
    · constructor
      · rintro ⟨_ | _, _, rfl, w, hw, rfl⟩
        · exact ⟨false :: w, .zero hw, rfl⟩
        · exact ⟨true :: w, .one hw, rfl⟩
      · rintro ⟨w, hw, rfl⟩
        cases hw with
        | zero hw => exact ⟨false, _, rfl, _, hw, rfl⟩
        | one hw => exact ⟨true, _, rfl, _, hw, rfl⟩

theorem Fits.parses_symbol {lengths : List Nat} (h : Fits lengths) :
    Parses (Tree.ofLengths lengths).symbol (Coded lengths) := by
  refine ((Tree.parses_walk _).bind (Q := fun o mid symbol rest => o = some symbol ∧ rest = mid)
    fun o _ _ _ => ?_).congr fun bits symbol rest => ?_
  · cases o with
    | none => exact parses_corrupt.congr fun _ _ _ => by simp
    | some symbol => exact (parses_pure symbol).congr fun _ _ _ => by simp [eq_comm]
  · constructor
    · rintro ⟨_, _, ⟨w, hw, rfl⟩, rfl, rfl⟩
      exact ⟨w, h.ends_iff.mp hw, rfl⟩
    · rintro ⟨w, hw, rfl⟩
      exact ⟨some symbol, rest, ⟨w, h.ends_iff.mpr hw, rfl⟩, rfl, rfl⟩

/-- Where all patterns of bits are used up, a walk ends at a symbol. -/
theorem Fits.parses_walk {lengths : List Nat} (h : Fits lengths)
    (hfull : weight lengths = fullWeight) :
    Parses (Tree.ofLengths lengths).walk fun bits o rest =>
      ∃ symbol, o = some symbol ∧ Coded lengths bits symbol rest := by
  refine (Tree.parses_walk _).congr fun bits o rest => ?_
  constructor
  · rintro ⟨w, hw, rfl⟩
    obtain ⟨symbol, rfl⟩ := (h.full hfull).symbol_of_ends hw
    exact ⟨symbol, rfl, w, h.ends_iff.mp hw, rfl⟩
  · rintro ⟨symbol, rfl, w, hw, rfl⟩
    exact ⟨w, h.ends_iff.mpr hw, rfl⟩

end JarRepair.Deflate

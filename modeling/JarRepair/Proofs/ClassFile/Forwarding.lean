import Mathlib.Data.List.Forall2
import Mathlib.Data.List.TakeWhile
import JarRepair.ClassFile.Bridge
import JarRepair.Proofs.Words

/-! # Code that forwards

The code of a bridge splits into instructions of a few forms: any number that load or cast, one that
invokes a member, and at the end one that returns. The reader takes an instruction at a time and so
finds the only way in which code splits. -/

namespace JarRepair.ClassFile

namespace Instruction

/-! ## One instruction -/

/-- The bytes of an instruction: its opcode and the operands that opcode has. -/
inductive Written : Instruction → Bytes → Prop where
  | load {op i : UInt8} (h : 0x15 ≤ op ∧ op ≤ 0x19) : Written .move [op, i]
  | shortLoad {op : UInt8} (h : 0x1a ≤ op ∧ op ≤ 0x2d) : Written .move [op]
  | wideLoad {op i j : UInt8} (h : 0x15 ≤ op ∧ op ≤ 0x19) : Written .move [0xc4, op, i, j]
  | checkCast {i j : UInt8} : Written .move [0xc0, i, j]
  | invoke {op hi lo : UInt8} (h : 0xb6 ≤ op ∧ op ≤ 0xb8) :
      Written (.invoke (wordOf hi lo)) [op, hi, lo]
  | invokeInterface {hi lo count zero : UInt8} :
      Written (.invoke (wordOf hi lo)) [0xb9, hi, lo, count, zero]
  | return {op : UInt8} (h : 0xac ≤ op ∧ op ≤ 0xb1) : Written .return [op]

section

variable {op : UInt8}

theorem isLoad_iff : isLoad op = true ↔ 0x15 ≤ op ∧ op ≤ 0x19 := by simp [isLoad]

theorem isShortLoad_iff : isShortLoad op = true ↔ 0x1a ≤ op ∧ op ≤ 0x2d := by simp [isShortLoad]

theorem isInvoke_iff : isInvoke op = true ↔ 0xb6 ≤ op ∧ op ≤ 0xb8 := by simp [isInvoke]

theorem isReturn_iff : isReturn op = true ↔ 0xac ≤ op ∧ op ≤ 0xb1 := by simp [isReturn]

/-! An opcode of one form is of no other. -/

theorem others_of_isLoad (h : isLoad op = true) : isReturn op = false ∧ isShortLoad op = false := by
  grind [isLoad, isReturn, isShortLoad]

theorem others_of_isShortLoad (h : isShortLoad op = true) :
    isReturn op = false ∧ isLoad op = false := by
  grind [isShortLoad, isReturn, isLoad]

theorem others_of_isInvoke (h : isInvoke op = true) :
    isReturn op = false ∧ isShortLoad op = false ∧ isLoad op = false ∧ op ≠ wide ∧ op ≠ checkCast ∧
      op ≠ invokeInterface := by
  grind [isInvoke, isReturn, isShortLoad, isLoad, wide, checkCast, invokeInterface]

theorem others_of_isReturn (h : isReturn op = true) :
    isShortLoad op = false ∧ isLoad op = false ∧ op ≠ wide ∧ op ≠ checkCast ∧ isInvoke op = false ∧
      op ≠ invokeInterface := by
  grind [isReturn, isShortLoad, isLoad, wide, checkCast, isInvoke, invokeInterface]

end

theorem Written.length_pos {i : Instruction} {text : Bytes} (h : Written i text) :
    0 < text.length := by
  cases h <;> simp

theorem read?_append {i : Instruction} {text : Bytes} (h : Written i text) (rest : Bytes) :
    read? (text ++ rest) = some (i, rest) := by
  cases h with
  | @load op _ h =>
    have hload := isLoad_iff.mpr h
    simp [read?, others_of_isLoad hload, hload]
  | @shortLoad op h =>
    have hshort := isShortLoad_iff.mpr h
    simp [read?, others_of_isShortLoad hshort, hshort]
  | wideLoad h => simp [read?, isReturn, isShortLoad, isLoad, wide, h]
  | checkCast => simp [read?, isReturn, isShortLoad, isLoad, wide, checkCast]
  | @invoke op _ _ h =>
    have hinvoke := isInvoke_iff.mpr h
    simp [read?, others_of_isInvoke hinvoke, hinvoke]
  | invokeInterface =>
    simp [read?, isReturn, isShortLoad, isLoad, wide, checkCast, isInvoke, invokeInterface]
  | «return» h => simp [read?, isReturn_iff.mpr h]

theorem exists_of_read? {i : Instruction} {code rest : Bytes} (h : read? code = some (i, rest)) :
    ∃ text, Written i text ∧ code = text ++ rest := by
  revert h
  fun_cases read? code with
  | case1 | case5 | case7 | case8 | case10 | case12 | case14 | case15 => exact nofun
  | case2 op code hop =>
    rintro ⟨⟩
    exact ⟨[op], .return (isReturn_iff.mp hop), rfl⟩
  | case3 op code _ hop =>
    rintro ⟨⟩
    exact ⟨[op], .shortLoad (isShortLoad_iff.mp hop), rfl⟩
  | case4 op _ _ hop i code =>
    rintro ⟨⟩
    exact ⟨[op, i], .load (isLoad_iff.mp hop), rfl⟩
  | case6 op i j code hop =>
    rintro ⟨⟩
    exact ⟨[wide, op, i, j], .wideLoad (isLoad_iff.mp hop), rfl⟩
  | case9 i j code =>
    rintro ⟨⟩
    exact ⟨[checkCast, i, j], .checkCast, rfl⟩
  | case11 op _ _ _ _ _ hop hi lo code =>
    rintro ⟨⟩
    exact ⟨[op, hi, lo], .invoke (isInvoke_iff.mp hop), rfl⟩
  | case13 hi lo count zero code =>
    rintro ⟨⟩
    exact ⟨[invokeInterface, hi, lo, count, zero], .invokeInterface, rfl⟩

/-! ## All instructions -/

theorem readAll?_of_read? {i : Instruction} {code rest : Bytes} (h : read? code = some (i, rest))
    (fuel : Nat) (found : List Instruction) :
    readAll? (fuel + 1) found code = readAll? fuel (i :: found) rest := by
  cases code with
  | nil => simp [read?] at h
  | cons op code => rw [readAll?, h]; exact nofun

theorem readAll?_eq_none {code : Bytes} (hcode : code ≠ []) (h : read? code = none) (fuel : Nat)
    (found : List Instruction) : readAll? fuel found code = none := by
  cases fuel with
  | zero => rw [readAll?]; exact hcode
  | succ fuel => rw [readAll?, h]; exact hcode

/-- The instructions that code splits into. -/
def split? (code : Bytes) : Option (List Instruction) := readAll? code.length [] code

/-- Fuel for every byte is enough, and more changes nothing. -/
theorem readAll?_eq {fuel : Nat} {found : List Instruction} {code : Bytes}
    (hfuel : code.length ≤ fuel) :
    readAll? fuel found code = (split? code).map (found.reverse ++ ·) := by
  induction hn : code.length using Nat.strongRecOn generalizing code found fuel with
  | _ n ih =>
    subst hn
    by_cases hcode : code = []
    · subst hcode
      cases fuel <;> simp [split?, readAll?]
    · cases hread : read? code with
      | none =>
        rw [split?, readAll?_eq_none hcode hread, readAll?_eq_none hcode hread, Option.map_none]
      | some next =>
        obtain ⟨i, rest⟩ := next
        obtain ⟨text, hi, rfl⟩ := exists_of_read? hread
        have hlt : rest.length < (text ++ rest).length := by simpa using hi.length_pos
        obtain ⟨fuel, rfl⟩ := Nat.exists_eq_add_one_of_ne_zero (n := fuel) (by omega)
        obtain ⟨k, hk⟩ := Nat.exists_eq_add_one_of_ne_zero (n := (text ++ rest).length) (by omega)
        rw [split?, hk, readAll?_of_read? hread, readAll?_of_read? hread, ih _ hlt (by omega) rfl,
          ih _ hlt (by omega) rfl, Option.map_map]
        simp [Function.comp_def]

theorem split?_of_read? {i : Instruction} {code rest : Bytes} (h : read? code = some (i, rest)) :
    split? code = (split? rest).map (i :: ·) := by
  obtain ⟨text, hi, rfl⟩ := exists_of_read? h
  have hlt : rest.length < (text ++ rest).length := by simpa using hi.length_pos
  obtain ⟨k, hk⟩ := Nat.exists_eq_add_one_of_ne_zero (n := (text ++ rest).length) (by omega)
  rw [split?, hk, readAll?_of_read? h, readAll?_eq (by omega)]
  rfl

theorem split?_eq_none {code : Bytes} (hcode : code ≠ []) (h : read? code = none) :
    split? code = none := readAll?_eq_none hcode h _ _

/-- Code splits into instructions exactly if it is their bytes in a row. -/
theorem split?_eq_some_iff {code : Bytes} {is : List Instruction} :
    split? code = some is ↔ ∃ texts, List.Forall₂ Written is texts ∧ code = texts.flatten := by
  constructor
  · intro h
    induction hn : code.length using Nat.strongRecOn generalizing code is with
    | _ n ih =>
      cases hread : read? code with
      | none =>
        by_cases hcode : code = []
        · subst hcode
          obtain rfl : [] = is := Option.some.inj h
          exact ⟨[], .nil, rfl⟩
        · rw [split?_eq_none hcode hread] at h
          simp at h
      | some next =>
        obtain ⟨i, rest⟩ := next
        rw [split?_of_read? hread, Option.map_eq_some_iff] at h
        obtain ⟨is, his, rfl⟩ := h
        obtain ⟨text, hi, rfl⟩ := exists_of_read? hread
        have hpos := hi.length_pos
        rw [List.length_append] at hn
        obtain ⟨texts, htexts, rfl⟩ := ih rest.length (by omega) his rfl
        exact ⟨text :: texts, .cons hi htexts, rfl⟩
  · rintro ⟨texts, htexts, rfl⟩
    induction htexts with
    | nil => rfl
    | @cons i text is texts hi _ ih =>
      rw [List.flatten_cons, split?_of_read? (read?_append hi _), ih, Option.map_some]

end Instruction

/-! ## The member -/

open Instruction (Written split? split?_eq_some_iff)

/-- What comes of instructions if `found` has been invoked before them. -/
def verdict : (found : Option UInt16) → List Instruction → Option UInt16
  | found, .move :: is => verdict found is
  | none, .invoke member :: is => verdict (some member) is
  | found, [.return] => found
  | _, _ => none

theorem verdict_some (member : UInt16) (is : List Instruction) :
    verdict (some member) is =
      if is.dropWhile (· == .move) = [.return] then some member else none := by
  induction is with
  | nil => rfl
  | cons i is ih =>
    cases i with
    | move => simpa [verdict] using ih
    | invoke => rfl
    | «return» => cases is <;> simp [verdict]

theorem forwardedMember?_eq (is : List Instruction) : forwardedMember? is = verdict none is := by
  induction is with
  | nil => rfl
  | cons i is ih =>
    cases i with
    | move => exact ih
    | invoke member => rw [forwardedMember?, verdict, verdict_some]
    | «return» => cases is <;> rfl

theorem dropWhile_move_eq_iff {is : List Instruction} :
    is.dropWhile (· == .move) = [.return] ↔ ∃ b, is = List.replicate b .move ++ [.return] := by
  constructor
  · intro h
    refine ⟨(is.takeWhile (· == .move)).length, ?_⟩
    rw [← h, ← List.eq_replicate_of_mem fun i hi => by simpa using List.mem_takeWhile_imp hi,
      List.takeWhile_append_dropWhile]
  · rintro ⟨b, rfl⟩
    induction b with
    | zero => rfl
    | succ b ih => exact ih

theorem forwardedMember?_eq_some_iff {is : List Instruction} {member : UInt16} :
    forwardedMember? is = some member ↔
      ∃ a b, is =
        List.replicate a .move ++ .invoke member :: (List.replicate b .move ++ [.return]) := by
  induction is with
  | nil => simp [forwardedMember?]
  | cons i is ih =>
    cases i with
    | move =>
      rw [forwardedMember?, ih]
      constructor
      · rintro ⟨a, b, rfl⟩
        exact ⟨a + 1, b, rfl⟩
      · rintro ⟨_ | a, b, h⟩
        · simp at h
        · exact ⟨a, b, (List.cons.inj h).2⟩
    | invoke found =>
      have hcases : forwardedMember? (.invoke found :: is) = some member ↔
          is.dropWhile (· == .move) = [.return] ∧ found = member := by
        rw [forwardedMember?]
        split <;> simp_all
      rw [hcases, dropWhile_move_eq_iff]
      constructor
      · rintro ⟨⟨b, rfl⟩, rfl⟩
        exact ⟨0, b, rfl⟩
      · rintro ⟨_ | a, b, h⟩
        · obtain ⟨hinvoke, rfl⟩ := List.cons.inj h
          exact ⟨⟨b, rfl⟩, Instruction.invoke.inj hinvoke⟩
        · simp [List.replicate_succ] at h
    | «return» =>
      simp only [forwardedMember?, reduceCtorEq, false_iff, not_exists]
      rintro (_ | a) b h
      · simp at h
      · simp [List.replicate_succ] at h

/-- Code that splits into moves, one invocation of the member among them, and a return at the
end. -/
def ForwardsTo (code : Bytes) (member : UInt16) : Prop :=
  ∃ a b texts, code = texts.flatten ∧ List.Forall₂ Written
    (List.replicate a .move ++ .invoke member :: (List.replicate b .move ++ [.return])) texts

theorem forwardsTo_iff {code : Bytes} {member : UInt16} :
    ForwardsTo code member ↔ (split? code).bind forwardedMember? = some member := by
  simp only [Option.bind_eq_some_iff, split?_eq_some_iff, forwardedMember?_eq_some_iff, ForwardsTo]
  constructor
  · rintro ⟨a, b, texts, hcode, htexts⟩
    exact ⟨_, ⟨texts, htexts, hcode⟩, a, b, rfl⟩
  · rintro ⟨_, ⟨texts, htexts, hcode⟩, a, b, rfl⟩
    exact ⟨a, b, texts, hcode, htexts⟩

/-! ## Code attributes -/

/-- The content of an attribute holds the code behind its length, and tables behind that. -/
def HoldsCode (info code : Bytes) : Prop :=
  ∃ sizes length tables, info = sizes ++ Bytes.dword length ++ code ++ tables ∧ sizes.length = 4 ∧
    code.length = length.toNat

theorem codeArray?_eq_some_iff {info code : Bytes} :
    codeArray? info = some code ↔ HoldsCode info code := by
  constructor
  · fun_cases codeArray? info with
    | case1 s₀ s₁ s₂ s₃ b₀ b₁ b₂ b₃ rest length hfits =>
      rintro ⟨⟩
      have hfits : length ≤ rest.length := Bytes.atLeast_iff.mp hfits
      exact ⟨[s₀, s₁, s₂, s₃], dwordOf b₀ b₁ b₂ b₃, rest.drop length, by simp, rfl,
        List.length_take_of_le hfits⟩
    | case2 | case3 => exact nofun
  · rintro ⟨sizes, length, tables, rfl, hsizes, hlength⟩
    obtain ⟨b₀, b₁, b₂, b₃, rfl⟩ := exists_dwordOf length
    obtain ⟨s₀, s₁, s₂, s₃, rfl⟩ : ∃ s₀ s₁ s₂ s₃, sizes = [s₀, s₁, s₂, s₃] := by
      match sizes, hsizes with
      | [s₀, s₁, s₂, s₃], _ => exact ⟨s₀, s₁, s₂, s₃, rfl⟩
    have hfits : Bytes.atLeast code.length (code ++ tables) = true :=
      Bytes.atLeast_iff.mpr (by simp)
    simp [codeArray?, ← hlength, hfits]

end JarRepair.ClassFile

import JarRepair.Proofs.ClassFile.Codec
import JarRepair.Proofs.ClassFile.Forwarding
import JarRepair.Proofs.ClassFile.References
import JarRepair.Proofs.Repair.Targets

/-! # Which methods are bridges

A method is taken for a bridge exactly if its code forwards to a member of its own class that has
another key and as many parameters. The code is scanned here a second time, by positions in the
attribute and with accesses that have no result where a byte is missing: the scan has a result for
any content, and it is the member that the instructions give. -/

namespace JarRepair.ClassFile

open JarRepair.Outcome
open Instruction

/-! ## The scan by positions -/

/-- Scans code from position `pc` up to `stop`, given what has been invoked and whether there was a
return. There is no result if a byte is looked at that `info` does not have. -/
def scanFrom (info : Bytes) (stop pc : Nat) (invoked : Option UInt16) (returned : Bool) :
    Option (Option UInt16) :=
  if pc < stop then
    if returned then some none
    else
      match info[pc]? with
      | none => none
      | some op =>
        if isLoad op then scanFrom info stop (pc + 2) invoked false
        else if isShortLoad op then scanFrom info stop (pc + 1) invoked false
        else if op = wide then
          if stop ≤ pc + 1 then some none
          else
            match info[pc + 1]? with
            | none => none
            | some op => if isLoad op then scanFrom info stop (pc + 4) invoked false else some none
        else if op = checkCast then scanFrom info stop (pc + 3) invoked false
        else if isInvoke op || op = invokeInterface then
          if invoked.isSome || stop < pc + 3 then some none
          else
            match word? info (pc + 1) with
            | none => none
            | some member =>
              scanFrom info stop (pc + if op = invokeInterface then 5 else 3) (some member) false
        else if isReturn op then scanFrom info stop (pc + 1) invoked true
        else some none
  else some (if pc = stop ∧ returned then invoked else none)
termination_by stop - pc
decreasing_by all_goals (try split) <;> omega

/-- Scans the code of an attribute with this content. -/
def scanCode (info : Bytes) : Option (Option UInt16) :=
  if info.length < codeHeader then some none
  else do
    let length := (dwordOf (← info[4]?) (← info[5]?) (← info[6]?) (← info[7]?)).toNat
    if info.length - codeHeader < length then some none
    else scanFrom info (codeHeader + length) codeHeader none false

/-- What is left to scan: the bytes from position `pc` up to `stop`. -/
structure Left (info : Bytes) (stop pc : Nat) (code : Bytes) : Prop where
  bytes : ∀ k b, code[k]? = some b → info[pc + k]? = some b
  length : pc + code.length = stop

section

variable {info code text rest : Bytes} {stop pc : Nat} {invoked : Option UInt16} {i : Instruction}

theorem Left.drop (h : Left info stop pc (text ++ rest)) :
    Left info stop (pc + text.length) rest where
  bytes k b hb := by
    rw [Nat.add_assoc]
    exact h.bytes _ b (by simpa [List.getElem?_append_right] using hb)
  length := by rw [← h.length, List.length_append, Nat.add_assoc]

theorem scanFrom_past (h : stop < pc) (invoked : Option UInt16) (returned : Bool) :
    scanFrom info stop pc invoked returned = some none := by
  rw [scanFrom, if_neg (by omega), if_neg (by omega)]

theorem scanFrom_stop : scanFrom info stop stop invoked false = some none := by
  rw [scanFrom, if_neg (by omega), if_neg (by simp)]

theorem scanFrom_returned (h : Left info stop pc code) :
    scanFrom info stop pc invoked true = some (if code = [] then invoked else none) := by
  have hlength := h.length
  rw [scanFrom]
  cases code with
  | nil =>
    have hpc : pc = stop := hlength
    simp [hpc]
  | cons b code =>
    rw [List.length_cons] at hlength
    simp [show pc < stop by omega]

/-- What the scan does with an instruction of one of the forms. -/
theorem scanFrom_append (hi : Written i text) (h : Left info stop pc (text ++ rest)) :
    scanFrom info stop pc invoked false =
      match i with
      | .move => scanFrom info stop (pc + text.length) invoked false
      | .invoke member =>
        if invoked.isSome then some none
        else scanFrom info stop (pc + text.length) (some member) false
      | .return => scanFrom info stop (pc + text.length) invoked true := by
  have hlength := h.length
  rw [List.length_append] at hlength
  have hlt : pc < stop := by have := hi.length_pos; omega
  rw [scanFrom, if_pos hlt]
  cases hi with
  | @load op i hop =>
    have h₀ : info[pc]? = some op := h.bytes 0 op rfl
    simp [h₀, isLoad_iff.mpr hop]
  | @shortLoad op hop =>
    have h₀ : info[pc]? = some op := h.bytes 0 op rfl
    have hshort := isShortLoad_iff.mpr hop
    simp [h₀, others_of_isShortLoad hshort, hshort]
  | @wideLoad op i j hop =>
    have h₀ : info[pc]? = some wide := h.bytes 0 wide rfl
    have h₁ : info[pc + 1]? = some op := h.bytes 1 op rfl
    have hlong : ¬ stop ≤ pc + 1 := by simp at hlength; omega
    simp [h₀, h₁, hlong, isLoad, isShortLoad, wide, hop]
  | @checkCast i j =>
    have h₀ : info[pc]? = some checkCast := h.bytes 0 checkCast rfl
    simp [h₀, isLoad, isShortLoad, wide, checkCast]
  | @invoke op hi lo hop =>
    have h₀ : info[pc]? = some op := h.bytes 0 op rfl
    have h₁ : info[pc + 1]? = some hi := h.bytes 1 hi rfl
    have h₂ : info[pc + 1 + 1]? = some lo := h.bytes 2 lo rfl
    have hlong : ¬ stop < pc + 3 := by simp at hlength; omega
    have hinvoke := isInvoke_iff.mpr hop
    simp [h₀, word?, h₁, h₂, others_of_isInvoke hinvoke, hinvoke, hlong]
  | @invokeInterface hi lo count zero =>
    have h₀ : info[pc]? = some invokeInterface := h.bytes 0 invokeInterface rfl
    have h₁ : info[pc + 1]? = some hi := h.bytes 1 hi rfl
    have h₂ : info[pc + 1 + 1]? = some lo := h.bytes 2 lo rfl
    have hlong : ¬ stop < pc + 3 := by simp at hlength; omega
    simp [h₀, word?, h₁, h₂, hlong, isLoad, isShortLoad, wide, checkCast, invokeInterface]
  | @«return» op hop =>
    have h₀ : info[pc]? = some op := h.bytes 0 op rfl
    have hreturn := isReturn_iff.mpr hop
    simp [h₀, others_of_isReturn hreturn, hreturn]

/-- Where no instruction begins, operands are missing that an opcode there needs. -/
theorem length_lt_of_read?_eq_none (opcode : Bytes) {n : Nat}
    (hread : read? (opcode ++ code) = none)
    (hn : ∀ operands : Bytes, operands.length = n → ∃ i, Written i (opcode ++ operands)) :
    code.length < n := by
  by_contra hlong
  obtain ⟨i, hi⟩ := hn (code.take n) (List.length_take_of_le (Nat.not_lt.mp hlong))
  rw [← List.take_append_drop n code, ← List.append_assoc, read?_append hi] at hread
  simp at hread

theorem Left.exists_word (h : Left info stop pc code) (hlong : pc + 2 ≤ stop) :
    ∃ word, word? info pc = some word := by
  have hlength := h.length
  rcases code with _ | ⟨hi, _ | ⟨lo, code⟩⟩
  · simp at hlength; omega
  · simp at hlength; omega
  · have hfirst : info[pc]? = some hi := h.bytes 0 hi rfl
    have hsecond : info[pc + 1]? = some lo := h.bytes 1 lo rfl
    exact ⟨wordOf hi lo, by simp [word?, hfirst, hsecond]⟩

/-- Where no instruction of one of the forms begins, the scan gives up or runs past the end. -/
theorem scanFrom_of_read?_eq_none (hread : read? code = none) (h : Left info stop pc code) :
    scanFrom info stop pc invoked false = some none := by
  have hlength := h.length
  cases code with
  | nil =>
    obtain rfl : pc = stop := hlength
    exact scanFrom_stop
  | cons op code =>
    have h₀ : info[pc]? = some op := h.bytes 0 op rfl
    have hshort {n : Nat}
        (hn : ∀ operands : Bytes, operands.length = n → ∃ i, Written i (op :: operands)) :
        code.length < n := length_lt_of_read?_eq_none [op] hread hn
    have halone (hop : ∃ i, Written i [op]) : False :=
      Nat.not_lt_zero _ (hshort fun _ hoperands => List.eq_nil_of_length_eq_zero hoperands ▸ hop)
    rw [List.length_cons] at hlength
    rw [scanFrom, if_pos (by omega), if_neg (by simp), h₀]
    dsimp only
    split
    · rename_i hload
      have hone : code.length < 1 := hshort fun operands hoperands => by
        obtain ⟨i, rfl⟩ := List.length_eq_one_iff.mp hoperands
        exact ⟨_, .load (isLoad_iff.mp hload)⟩
      exact scanFrom_past (by omega) _ _
    split
    · rename_i hop
      exact (halone ⟨_, .shortLoad (isShortLoad_iff.mp hop)⟩).elim
    split
    · rename_i hwide
      subst hwide
      split
      · rfl
      · obtain ⟨op, code, rfl⟩ := List.exists_cons_of_length_pos (l := code) (by omega)
        have h₁ : info[pc + 1]? = some op := h.bytes 1 op rfl
        rw [h₁]
        dsimp only
        split
        · rename_i hload
          have htwo : code.length < 2 :=
            length_lt_of_read?_eq_none [wide, op] hread fun operands hoperands => by
              obtain ⟨i, j, rfl⟩ := List.length_eq_two.mp hoperands
              exact ⟨_, .wideLoad (isLoad_iff.mp hload)⟩
          rw [List.length_cons] at hlength
          exact scanFrom_past (by omega) _ _
        · rfl
    split
    · rename_i hcast
      have htwo : code.length < 2 := hshort fun operands hoperands => by
        obtain ⟨i, j, rfl⟩ := List.length_eq_two.mp hoperands
        exact hcast ▸ ⟨_, .checkCast⟩
      exact scanFrom_past (by omega) _ _
    split
    · rename_i hop
      split
      · rfl
      · rename_i hgiven
        obtain ⟨-, hlong⟩ : invoked = none ∧ pc + 3 ≤ stop := by simpa using hgiven
        rcases Bool.or_eq_true_iff.mp hop with hinvoke | hinterface
        · have htwo : code.length < 2 := hshort fun operands hoperands => by
            obtain ⟨hi, lo, rfl⟩ := List.length_eq_two.mp hoperands
            exact ⟨_, .invoke (isInvoke_iff.mp hinvoke)⟩
          omega
        · obtain rfl : op = invokeInterface := by simpa using hinterface
          have hfour : code.length < 4 := hshort fun operands hoperands => by
            rcases operands with _ | ⟨hi, _ | ⟨lo, _ | ⟨count, _ | ⟨zero, _ | _⟩⟩⟩⟩ <;>
              simp at hoperands
            exact ⟨_, .invokeInterface⟩
          have hleft : Left info stop pc ([invokeInterface] ++ code) := h
          obtain ⟨member, hmember⟩ := hleft.drop.exists_word (by simpa using hlong)
          rw [show word? info (pc + 1) = some member from hmember, if_pos rfl]
          exact scanFrom_past (by omega) _ _
    split
    · rename_i hop
      exact (halone ⟨_, .return (isReturn_iff.mp hop)⟩).elim
    · rfl

/-- From any position the scan has a result, and it is the verdict on the instructions left. -/
theorem scanFrom_eq (h : Left info stop pc code) (invoked : Option UInt16) :
    scanFrom info stop pc invoked false = some ((split? code).bind (verdict invoked)) := by
  induction hn : code.length using Nat.strongRecOn generalizing code pc invoked with
  | _ n ih =>
    cases hread : read? code with
    | none =>
      rw [scanFrom_of_read?_eq_none hread h]
      by_cases hcode : code = []
      · subst hcode
        cases invoked <;> rfl
      · rw [split?_eq_none hcode hread, Option.bind_none]
    | some next =>
      obtain ⟨i, rest⟩ := next
      obtain ⟨text, hi, rfl⟩ := exists_of_read? hread
      have hpos := hi.length_pos
      rw [List.length_append] at hn
      rw [scanFrom_append hi h, split?_of_read? hread]
      cases i with
      | move =>
        dsimp only
        rw [ih rest.length (by omega) h.drop invoked rfl, Option.bind_map]
        rfl
      | invoke member =>
        dsimp only
        cases invoked with
        | none =>
          rw [if_neg (by simp), ih rest.length (by omega) h.drop _ rfl, Option.bind_map]
          rfl
        | some found =>
          rw [if_pos (by rfl), Option.bind_map]
          cases split? rest <;> rfl
      | «return» =>
        dsimp only
        rw [scanFrom_returned h.drop, Option.bind_map]
        by_cases hrest : rest = []
        · subst hrest
          cases invoked <;> rfl
        · -- Whatever follows a return, the verdict on it is that nothing is forwarded to.
          rw [if_neg hrest]
          cases hsplit : split? rest with
          | none => rfl
          | some is =>
            cases is with
            | nil =>
              obtain ⟨texts, htexts, rfl⟩ := split?_eq_some_iff.mp hsplit
              cases htexts
              exact absurd rfl hrest
            | cons i is => cases invoked <;> rfl

end

/-- For any content the scan stays inside of it, and finds what the code forwards to. -/
theorem scanCode_eq (info : Bytes) :
    scanCode info = some
      ((codeArray? info).bind fun code => (split? code).bind forwardedMember?) := by
  rw [scanCode]
  fun_cases codeArray? info with
  | case1 s₀ s₁ s₂ s₃ b₀ b₁ b₂ b₃ rest length hfits =>
    have hfits : length ≤ rest.length := Bytes.atLeast_iff.mp hfits
    have hleft : Left (s₀ :: s₁ :: s₂ :: s₃ :: b₀ :: b₁ :: b₂ :: b₃ :: rest) (codeHeader + length)
        codeHeader (rest.take length) := by
      refine ⟨fun k b hb => ?_, by rw [List.length_take_of_le hfits]⟩
      rw [List.getElem?_take] at hb
      split at hb
      · rw [codeHeader, Nat.add_comm]
        exact hb
      · simp at hb
    have hlong : ¬ rest.length < length := by omega
    have hscan := scanFrom_eq hleft none
    rw [← funext forwardedMember?_eq] at hscan
    rw [if_neg (by simp [codeHeader])]
    simpa [codeHeader, hlong, length] using hscan
  | case2 s₀ s₁ s₂ s₃ b₀ b₁ b₂ b₃ rest length hfits =>
    have hshort : rest.length < length := by
      rw [Bytes.atLeast_iff] at hfits
      omega
    rw [if_neg (by simp [codeHeader])]
    simp [codeHeader, hshort, length]
  | case3 info h =>
    have hshort : info.length < codeHeader := by
      rw [← Nat.not_le]
      intro hlong
      rcases info with
          _ | ⟨s₀, _ | ⟨s₁, _ | ⟨s₂, _ | ⟨s₃, _ | ⟨b₀, _ | ⟨b₁, _ | ⟨b₂, _ | ⟨b₃, rest⟩⟩⟩⟩⟩⟩⟩⟩
      case cons.cons.cons.cons.cons.cons.cons.cons => exact h s₀ s₁ s₂ s₃ b₀ b₁ b₂ b₃ rest rfl
      all_goals simp [codeHeader] at hlong
    simp [hshort]

/-! ## Bridges -/

/-- Method `m` is a bridge in class `c` to the method with the key. -/
structure Bridges (c : ClassFile) (m : Method) (key : MethodKey) : Prop where
  isSynthetic : Access.hasAny m.access Access.isSynthetic = true
  /-- The code is that of the first attribute named `Code`. -/
  forwards : ∃ before a after code index,
    m.attributes = before ++ a :: after ∧ (∀ b ∈ before, b.name ≠ codeName) ∧ a.name = codeName ∧
    HoldsCode a.info code ∧ ForwardsTo code index ∧
    c.pool.HoldsMember index { owner := c.name, name := key.name, descriptor := key.descriptor }
  ne_key : key ≠ m.key
  parameters : ∃ d d', Descriptor.parse m.descriptor = .ok d ∧
    Descriptor.parse key.descriptor = .ok d' ∧ d.parameters.length = d'.parameters.length

theorem forwards?_eq (m : Method) :
    m.forwards? = if Access.hasAny m.access Access.isSynthetic then
      (m.attribute? codeName).bind fun a => (scanCode a.info).join else none := by
  simp only [scanCode_eq, Option.join_some]
  rfl

theorem join_scanCode_eq_some_iff {info : Bytes} {index : UInt16} :
    (scanCode info).join = some index ↔ ∃ code, HoldsCode info code ∧ ForwardsTo code index := by
  rw [scanCode_eq, Option.join_some, Option.bind_eq_some_iff]
  simp only [codeArray?_eq_some_iff, forwardsTo_iff]

theorem forwards?_eq_some_iff {m : Method} {index : UInt16} :
    m.forwards? = some index ↔ Access.hasAny m.access Access.isSynthetic = true ∧
      ∃ before a after code, m.attributes = before ++ a :: after ∧
        (∀ b ∈ before, b.name ≠ codeName) ∧ a.name = codeName ∧ HoldsCode a.info code ∧
        ForwardsTo code index := by
  rw [forwards?_eq, Option.ite_none_right_eq_some, Option.bind_eq_some_iff]
  refine and_congr_right fun _ => ?_
  simp only [Method.attribute?, List.find?_eq_some_iff_append, join_scanCode_eq_some_iff,
    beq_iff_eq, Bool.not_eq_true', beq_eq_false_iff_ne]
  constructor
  · rintro ⟨a, ⟨hname, before, after, hattributes, hbefore⟩, code, hcode, hforwards⟩
    exact ⟨before, a, after, code, hattributes, hbefore, hname, hcode, hforwards⟩
  · rintro ⟨before, a, after, code, hattributes, hbefore, hname, hcode, hforwards⟩
    exact ⟨a, ⟨hname, before, after, hattributes, hbefore⟩, code, hcode, hforwards⟩

theorem parameterCount_eq_ok_iff {text : Bytes} {n : Nat} :
    parameterCount text = .ok n ↔ ∃ d, Descriptor.parse text = .ok d ∧ d.parameters.length = n := by
  rw [parameterCount]
  cases Descriptor.parse text <;> simp

/-- In a class that was read, a method is a bridge to the key that the resolver names for it if this
is not its own. -/
theorem bridgeTarget_eq_ok_iff {c : ClassFile} (hc : c.WellFormed) {m : Method} {key : MethodKey} :
    c.bridgeTarget m = .ok key ∧ key ≠ m.key ↔ c.Bridges m key := by
  rw [bridgeTarget]
  constructor
  · rintro ⟨h, hne⟩
    split at h
    · exact absurd (Except.ok.inj h).symm hne
    · rename_i index hforwards
      obtain ⟨hsynthetic, before, a, after, code, hattributes, hbefore, ha, hcode, hto⟩ :=
        forwards?_eq_some_iff.mp hforwards
      simp only [bind_eq_ok_iff, mapError_eq_ok_iff, Pool.member_eq_ok_iff hc.pool] at h
      obtain ⟨member, hmember, h⟩ := h
      split at h
      · exact absurd (pure_eq_ok_iff.mp h) hne
      · rename_i hother
        obtain ⟨howner, hkey⟩ := not_or.mp hother
        simp only [bind_eq_ok_iff, parameterCount_eq_ok_iff, pure_eq_ok_iff] at h
        obtain ⟨_, ⟨d, hd, rfl⟩, _, ⟨d', hd', rfl⟩, rfl⟩ := h
        split at hne
        · rename_i hcount
          rw [if_pos hcount]
          obtain ⟨owner, name, descriptor⟩ := member
          obtain rfl : owner = c.name := not_not.mp howner
          exact ⟨hsynthetic,
            ⟨before, a, after, code, index, hattributes, hbefore, ha, hcode, hto, hmember⟩,
            hne, d, d', hd, hd', hcount⟩
        · exact absurd rfl hne
  · rintro ⟨hsynthetic,
      ⟨before, a, after, code, index, hattributes, hbefore, ha, hcode, hto, hmember⟩,
      hne, d, d', hd, hd', hcount⟩
    refine ⟨?_, hne⟩
    rw [forwards?_eq_some_iff.mpr
      ⟨hsynthetic, before, a, after, code, hattributes, hbefore, ha, hcode, hto⟩]
    simp only [bind_eq_ok_iff, mapError_eq_ok_iff, Pool.member_eq_ok_iff hc.pool]
    refine ⟨_, hmember, ?_⟩
    rw [if_neg (not_or.mpr ⟨not_not.mpr rfl, hne⟩)]
    simp only [bind_eq_ok_iff, parameterCount_eq_ok_iff, pure_eq_ok_iff]
    exact ⟨_, ⟨d, hd, rfl⟩, _, ⟨d', hd', rfl⟩, by rw [if_pos hcount]⟩

theorem resolve_fst {σ : Type} (r : Resolver) (c : ClassFile) (m : Method) (s : Traced σ) :
    (r.resolve c m s).1 = r.target c m := by
  have h : (r.resolve c m).Ensures s.state (fun key _ => r.target c m = .ok key)
      (fun e _ => r.target c m = .error e) := ensures_resolve (fun _ => id) (fun _ => id)
  have h := h s.notes
  rcases hrun : r.resolve c m s with ⟨e | key, s'⟩ <;> rw [hrun] at h <;> exact h.symm

/-- In a class that was read, the resolver names another key for a method exactly if the method is a
bridge to it; and the scan this rests on stays inside of the attribute, whatever the attribute
holds. -/
theorem resolve_exact {data : Bytes} {c : ClassFile} (h : decode data = .ok c) {σ : Type}
    (m : Method) (s : Traced σ) :
    (∀ key, (Resolver.bridge.resolve c m s).1 = .ok key ∧ key ≠ m.key ↔ c.Bridges m key) ∧
      (∀ info, ∃ member, scanCode info = some member) ∧
      m.forwards? = if Access.hasAny m.access Access.isSynthetic then
        (m.attribute? codeName).bind fun a => (scanCode a.info).join else none := by
  refine ⟨fun key => ?_, fun info => ⟨_, scanCode_eq info⟩, forwards?_eq m⟩
  have hc : c.WellFormed := (decode_eq_ok_iff.mp h).1
  rw [resolve_fst, Resolver.bridge, mapError_eq_ok_iff, bridgeTarget_eq_ok_iff hc]

theorem resolve_exact_bridged : ∃ c m, decode Repair.bridged = .ok c ∧ m ∈ c.methods ∧
    m.key = { name := "m", descriptor := "()LO;" } ∧
    c.Bridges m { name := "m", descriptor := "()LA;" } := by
  have hresolved : ((decode Repair.bridged).toOption.bind fun c => c.methods[1]?.map fun m =>
      (m.key, (Resolver.bridge.resolve c m { state := () }).1.toOption)) =
      some
        ({ name := "m", descriptor := "()LO;" }, some { name := "m", descriptor := "()LA;" }) := by
    decide +kernel
  cases hread : decode Repair.bridged with
  | error failure => simp [hread, Except.toOption] at hresolved
  | ok c =>
    simp only [hread, Except.toOption, Option.bind_some, Option.map_eq_some_iff, Prod.mk.injEq]
      at hresolved
    obtain ⟨m, hm, hkey, hresolve⟩ := hresolved
    refine ⟨c, m, rfl, List.mem_of_getElem? hm, hkey, ?_⟩
    refine ((resolve_exact hread m { state := () }).1 _).mp ⟨?_, by rw [hkey]; decide⟩
    cases hrun : (Resolver.bridge.resolve c m { state := () }).1 with
    | error e => simp [hrun] at hresolve
    | ok key => simpa [hrun] using hresolve

end JarRepair.ClassFile

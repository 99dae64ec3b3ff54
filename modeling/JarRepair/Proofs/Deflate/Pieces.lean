import JarRepair.Proofs.Deflate.Streams

/-! # Output that comes in pieces

Output is fetched in pieces, and after each of them its size is compared with the declared one, so
that a forged size never takes much memory. What is made of the output does not depend on how it is
cut up. -/

namespace JarRepair.Deflate

variable {data out : Bytes} {declared room : Nat} {parts parts' : List Bytes} {ending : Ending}

/-- What is made of the output when there is no more. -/
def settle (declared : Nat) (out : Bytes) : Ending → Except Fault Bytes
  | .truncated => .error .truncated
  | .corrupt => .error .corrupt
  | .complete => if out.length = declared then .ok out else .error (.wrongSize out.length declared)

/-- Fetches pieces of output until there are no more, or more bytes than declared. -/
def collect (declared : Nat) (ending : Ending) :
    (out : Bytes) → (parts : List Bytes) → Except Fault Bytes
  | out, [] => settle declared out ending
  | out, part :: parts =>
    if declared < out.length + part.length then .error .tooLarge
    else collect declared ending (out ++ part) parts

theorem collect_eq (ending : Ending) (parts : List Bytes) (hout : out.length ≤ declared) :
    collect declared ending out parts =
      if declared < (out ++ parts.flatten).length then .error .tooLarge
      else settle declared (out ++ parts.flatten) ending := by
  induction parts generalizing out with
  | nil => rw [collect, List.flatten_nil, List.append_nil, if_neg (Nat.not_lt.mpr hout)]
  | cons part parts ih =>
    rw [collect, List.flatten_cons, ← List.append_assoc]
    split
    · rename_i hlarge
      rw [if_pos]
      rw [List.length_append, List.length_append]
      omega
    · rename_i hsmall
      exact ih (by rw [List.length_append]; omega)

theorem collect_congr (h : parts.flatten = parts'.flatten) :
    collect declared ending [] parts = collect declared ending [] parts' := by
  rw [collect_eq ending parts (Nat.zero_le declared),
    collect_eq ending parts' (Nat.zero_le declared), h]

/-! ## Chunks -/

/-- The first `n` pieces of one size; the last one may be shorter. -/
def chunks (room n : Nat) (out : Bytes) : List Bytes :=
  (List.range n).map fun k => (out.drop (k * room)).take room

theorem flatten_chunks (room n : Nat) (out : Bytes) :
    (chunks room n out).flatten = out.take (n * room) := by
  induction n with
  | zero => simp [chunks]
  | succ n ih =>
    rw [chunks] at ih ⊢
    rw [List.range_succ, List.map_append, List.flatten_append, ih, List.map_singleton,
      List.flatten_singleton, Nat.succ_mul, List.take_add]

/-- A chunk that is not full ends the output; it is there also if it has no bytes. Corrupt data
leave nothing of the chunk that they are in. -/
def Inflated.chunks (room : Nat) (r : Inflated) : List Bytes :=
  match r.ending with
  | .corrupt => Deflate.chunks room ((r.output.size - 1) / room) r.output.toList
  | _ => Deflate.chunks room (r.output.size / room + 1) r.output.toList

theorem Inflated.flatten_chunks {r : Inflated} (hroom : 0 < room) (hending : r.ending ≠ .corrupt) :
    (r.chunks room).flatten = r.output.toList := by
  have hall : r.output.toList.length ≤ (r.output.size / room + 1) * room := by
    rw [Array.length_toList, Nat.mul_comm]
    exact (Nat.lt_mul_div_succ _ hroom).le
  rw [chunks]
  split
  · rename_i hcorrupt
    exact absurd hcorrupt hending
  · rw [Deflate.flatten_chunks, List.take_of_length_le hall]

/-- Inflates data, and fetches the output as it is cut up. -/
def inflateParts (cut : Inflated → List Bytes) (data : Bytes) (declared : Nat) :
    Except Fault Bytes :=
  if data.length * maxRatio + maxCopy < declared then .error (.oversized declared data.length)
  else collect declared (inflate data).ending [] (cut (inflate data))

/-- Comparing sizes at the ends of chunks is fetching chunk by chunk. -/
theorem inflateExactly_eq_inflateParts (data : Bytes) (declared : Nat) :
    inflateExactly data declared = inflateParts (·.chunks chunk) data declared := by
  rw [inflateExactly, inflateParts]
  split
  · rfl
  · rw [collect_eq _ _ (Nat.zero_le declared), List.nil_append, Inflated.accept, Inflated.compared]
    obtain ⟨output, ending⟩ := inflate data
    cases ending with
    | complete =>
      rw [Inflated.flatten_chunks (by decide) (by simp), settle, Array.length_toList]
    | truncated =>
      rw [Inflated.flatten_chunks (by decide) (by simp), settle, Array.length_toList]
    | corrupt =>
      have hseen : (output.size - 1) / chunk * chunk ≤ output.size :=
        (Nat.div_mul_le_self _ _).trans (Nat.sub_le _ _)
      rw [Inflated.chunks, flatten_chunks, List.length_take, Array.length_toList,
        Nat.min_eq_left hseen, settle]

/-! ## Complete streams -/

theorem inflate_of_inflateExactly (h : inflateExactly data declared = .ok out) :
    inflate data = { output := out.toArray, ending := .complete } := by
  rw [inflateExactly] at h
  split at h
  · cases h
  · rw [Inflated.accept] at h
    generalize inflate data = r at h ⊢
    obtain ⟨output, ending⟩ := r
    split at h
    · cases h
    · cases ending with
      | truncated => cases h
      | corrupt => cases h
      | complete =>
        dsimp only at h
        split at h
        · obtain rfl := Except.ok.inj h
          rw [Array.toArray_toList]
        · cases h

/-- The content is that of the stream at the front, with its size and no other. -/
theorem inflateExactly_eq_ok_iff :
    inflateExactly data declared = .ok out ↔ Format.Stream data out ∧ declared = out.length := by
  constructor
  · intro hrun
    exact ⟨inflate_eq_complete_iff.mp (inflate_of_inflateExactly hrun),
      (length_of_inflateExactly hrun).symm⟩
  · rintro ⟨hstream, rfl⟩
    exact inflateExactly_of_complete (inflate_eq_complete_iff.mpr hstream)

/-- Data start with one stream at most. -/
theorem Format.Stream.unique {content content' : Bytes} (h : Format.Stream data content)
    (h' : Format.Stream data content') : content = content' := by
  rw [← inflate_eq_complete_iff] at h h'
  exact List.toArray_inj (congrArg Inflated.output (h.symm.trans h'))

/-- For data that start with a complete stream the check of the size is exact: inflating succeeds
with the size of the content and no other, and the early check refuses only sizes that are wrong.
Where the output is cut makes no difference. -/
theorem inflateExactly_of_stream {content : Bytes} (h : Format.Stream data content) :
    (∀ declared out, inflateExactly data declared = .ok out ↔ declared = content.length ∧
      out = content) ∧
      content.length ≤ data.length * maxRatio + maxCopy ∧
      ∀ declared cut, (cut (inflate data)).flatten = content →
        inflateParts cut data declared = inflateExactly data declared := by
  have hcomplete := inflate_eq_complete_iff.mpr h
  refine ⟨fun declared out => ?_, ?_, fun declared cut hcut => ?_⟩
  · rw [inflateExactly_eq_ok_iff]
    constructor
    · rintro ⟨hout, rfl⟩
      obtain rfl := hout.unique h
      exact ⟨rfl, rfl⟩
    · rintro ⟨rfl, rfl⟩
      exact ⟨h, rfl⟩
  · have hsize := size_inflate data
    rw [hcomplete, List.size_toArray] at hsize
    exact Nat.le_add_right_of_le hsize
  · have hchunks : (cut (inflate data)).flatten = ((inflate data).chunks chunk).flatten := by
      rw [Inflated.flatten_chunks (by decide) (by rw [hcomplete]; simp), hcut, hcomplete]
    rw [inflateExactly_eq_inflateParts, inflateParts, inflateParts, collect_congr hchunks]

/-- A literal and a copy of it, with a byte behind the stream. -/
def repeated : Bytes := [75, 76, 132, 0, 0, 7]

theorem inflateExactly_of_stream_repeated :
    Format.Stream repeated [97, 97, 97, 97, 97, 97, 97, 97] ∧
      ∀ declared out, inflateExactly repeated declared = .ok out ↔
        declared = 8 ∧ out = [97, 97, 97, 97, 97, 97, 97, 97] := by
  have hstream : Format.Stream repeated [97, 97, 97, 97, 97, 97, 97, 97] :=
    inflate_eq_complete_iff.mp (by decide +kernel)
  exact ⟨hstream, (inflateExactly_of_stream hstream).1⟩

end JarRepair.Deflate

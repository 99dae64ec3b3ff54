import JarRepair.ClassFile.Descriptor
import JarRepair.Proofs.Bytes
import JarRepair.Proofs.Outcome

/-! # The grammar of method descriptors

A descriptor is spelled `(`, its parameter types, `)`, its result. The grammar of types is stated
here without a parser: class names may hold brackets, parentheses and primitive letters, and only a
`;` ends them. The parser reads exactly the spellings of descriptors, and no text spells two. -/

namespace JarRepair.ClassFile.Descriptor

open JarRepair.Outcome

/-! ## Types -/

/-- A type without dimensions: a primitive letter, or a class name between `L` and `;`. -/
inductive Element : Bytes → Prop where
  | primitive {c : UInt8} (letter : c ∈ ("BCDFIJSZ" : Bytes)) : Element [c]
  | object {name : Bytes} (nonempty : name ≠ []) (closed : Bytes.char ';' ∉ name) :
      Element (Bytes.char 'L' :: name ++ [Bytes.char ';'])

inductive FieldType : Bytes → Prop where
  | element {t : Bytes} : Element t → FieldType t
  | array {t : Bytes} : FieldType t → FieldType (Bytes.char '[' :: t)

/-- A result is a field type or `V`, which is no field type. -/
def ResultType (t : Bytes) : Prop := FieldType t ∨ t = "V"

theorem Element.exists_cons {t : Bytes} (h : Element t) :
    ∃ c rest, t = c :: rest ∧ c ≠ Bytes.char '[' ∧ c ≠ Bytes.char ')' := by
  cases h with
  | @primitive c letter =>
    have hletters : ∀ c ∈ ("BCDFIJSZ" : Bytes), c ≠ Bytes.char '[' ∧ c ≠ Bytes.char ')' := by
      decide +kernel
    exact ⟨c, [], rfl, hletters c letter⟩
  | object => exact ⟨_, _, rfl, by decide, by decide⟩

/-- No field type is empty, so parameters make progress; none begins with what ends them. -/
theorem FieldType.exists_cons {t : Bytes} (h : FieldType t) :
    ∃ c rest, t = c :: rest ∧ c ≠ Bytes.char ')' := by
  cases h with
  | element h =>
    obtain ⟨c, rest, rfl, -, hc⟩ := h.exists_cons
    exact ⟨c, rest, rfl, hc⟩
  | array => exact ⟨_, _, rfl, by decide⟩

/-! ## Reading a type -/

theorem element?_eq_some_iff {d t rest : Bytes} :
    element? d = some (t, rest) ↔ Element t ∧ d = t ++ rest := by
  constructor
  · intro h
    cases d with
    | nil => simp [element?] at h
    | cons c d =>
      rw [element?] at h
      split at h
      · rename_i hc
        subst hc
        split at h
        · rename_i name after hcut
          obtain ⟨hclosed, rfl⟩ := Bytes.cut?_eq_some_iff.mp hcut
          split at h
          · simp at h
          · rename_i hname
            obtain ⟨rfl, rfl⟩ : _ ∧ after = rest := by simpa using h
            exact ⟨.object hname hclosed, by simp⟩
        · simp at h
      · split at h
        · rename_i hc
          obtain ⟨rfl, rfl⟩ : [c] = t ∧ d = rest := by simpa using h
          exact ⟨.primitive (List.contains_iff_mem.mp hc), rfl⟩
        · simp at h
  · rintro ⟨ht, rfl⟩
    cases ht with
    | @primitive c letter =>
      have hc : c ≠ Bytes.char 'L' := by rintro rfl; revert letter; decide
      simp only [List.cons_append, List.nil_append, element?, if_neg hc,
        List.contains_iff_mem.mpr letter, primitives, if_true]
    | @object name nonempty closed =>
      have hcut :
          Bytes.cut? (Bytes.char ';') (name ++ [Bytes.char ';'] ++ rest) = some (name, rest) :=
        Bytes.cut?_eq_some_iff.mpr ⟨closed, by simp⟩
      simp only [List.cons_append, element?, if_true, hcut, if_neg nonempty]

/-- A leading bracket is kept in front of the type that is read after it. -/
theorem fieldType?_array (d : Bytes) :
    fieldType? (Bytes.char '[' :: d) = (fieldType? d).map (Prod.map (Bytes.char '[' :: ·) id) := by
  simp [fieldType?, Option.map_map, Function.comp_def]

theorem fieldType?_of_ne {c : UInt8} (hc : c ≠ Bytes.char '[') (d : Bytes) :
    fieldType? (c :: d) = element? (c :: d) := by
  simp [fieldType?, hc]

/-- What is read is the one field type that the text begins with. -/
theorem fieldType?_eq_some_iff {d t rest : Bytes} :
    fieldType? d = some (t, rest) ↔ FieldType t ∧ d = t ++ rest := by
  induction d generalizing t rest with
  | nil =>
    simp only [fieldType?, List.dropWhile_nil, element?, Option.map_none, reduceCtorEq, false_iff]
    rintro ⟨ht, h⟩
    obtain ⟨c, t, rfl, -⟩ := ht.exists_cons
    simp at h
  | cons c d ih =>
    by_cases hc : c = Bytes.char '['
    · subst hc
      simp only [fieldType?_array, Option.map_eq_some_iff, Prod.exists, ih, Prod.map_apply, id_eq,
        Prod.mk.injEq]
      constructor
      · rintro ⟨t, _, ⟨ht, rfl⟩, rfl, rfl⟩
        exact ⟨ht.array, rfl⟩
      · rintro ⟨ht, h⟩
        cases ht with
        | element ht =>
          obtain ⟨c, t, rfl, hne, -⟩ := ht.exists_cons
          exact absurd (List.cons.inj h).1.symm hne
        | @array t ht => exact ⟨t, rest, ⟨ht, (List.cons.inj h).2⟩, rfl, rfl⟩
    · rw [fieldType?_of_ne hc, element?_eq_some_iff]
      refine and_congr_left fun h => ⟨.element, fun ht => ?_⟩
      cases ht with
      | element ht => exact ht
      | array ht => exact absurd (List.cons.inj h).1 hc

theorem isResult_iff {d : Bytes} : isResult d = true ↔ ResultType d := by
  have hwhole : (∃ t, fieldType? d = some (t, [])) ↔ FieldType d := by
    simp only [fieldType?_eq_some_iff, List.append_nil, exists_eq_right']
  rw [isResult, Bool.or_eq_true, beq_iff_eq, ResultType, or_comm, ← hwhole]
  refine or_congr_left ?_
  cases fieldType? d with
  | none => simp
  | some split => obtain ⟨t, rest⟩ := split; simp

/-! ## Reading a descriptor -/

theorem parametersFrom_close (fuel : Nat) (found : List Bytes) (d : Bytes) :
    parametersFrom (fuel + 1) found (Bytes.char ')' :: d) = .ok (found.reverse, d) := by
  simp [parametersFrom]

/-- Any other byte is where the next parameter begins. -/
theorem parametersFrom_type_eq_ok_iff {fuel : Nat} {found : List Bytes} {c : UInt8} {d : Bytes}
    {x : List Bytes × Bytes} (hc : c ≠ Bytes.char ')') :
    parametersFrom (fuel + 1) found (c :: d) = .ok x ↔
      ∃ t d', (FieldType t ∧ c :: d = t ++ d') ∧ parametersFrom fuel (t :: found) d' = .ok x := by
  simp only [← fieldType?_eq_some_iff]
  rw [parametersFrom, if_neg hc]
  cases fieldType? (c :: d) with
  | none => simp
  | some split =>
    obtain ⟨t, d'⟩ := split
    simp

/-- With fuel for every byte, parameters are read up to the parenthesis after the last of them. -/
theorem parametersFrom_eq_ok_iff {fuel : Nat} {found parameters : List Bytes} {d rest : Bytes}
    (hfuel : d.length ≤ fuel) :
    parametersFrom fuel found d = .ok (parameters, rest) ↔
      ∃ ts, (∀ t ∈ ts, FieldType t) ∧ parameters = found.reverse ++ ts ∧
        d = ts.flatten ++ Bytes.char ')' :: rest := by
  induction fuel generalizing found d with
  | zero =>
    obtain rfl := List.length_eq_zero_iff.mp (Nat.le_zero.mp hfuel)
    simp [parametersFrom]
  | succ fuel ih =>
    cases d with
    | nil => simp [parametersFrom]
    | cons c d =>
      have hrest {t d' : Bytes} (ht : FieldType t) (hd : c :: d = t ++ d') : d'.length ≤ fuel := by
        obtain ⟨c', t, rfl, -⟩ := ht.exists_cons
        have hlen := congrArg List.length hd
        simp only [List.length_cons, List.length_append] at hlen hfuel
        omega
      by_cases hc : c = Bytes.char ')'
      · subst hc
        simp only [parametersFrom_close, Except.ok.injEq, Prod.mk.injEq]
        constructor
        · rintro ⟨rfl, rfl⟩
          exact ⟨[], by simp, by simp, rfl⟩
        · rintro ⟨ts, hts, rfl, hd⟩
          cases ts with
          | nil => simpa using hd
          | cons t ts =>
            obtain ⟨c, t, rfl, hc⟩ := (hts _ List.mem_cons_self).exists_cons
            exact absurd (List.cons.inj hd).1.symm hc
      · rw [parametersFrom_type_eq_ok_iff hc]
        constructor
        · rintro ⟨t, d', ⟨ht, hd⟩, h⟩
          obtain ⟨ts, hts, rfl, rfl⟩ := (ih (hrest ht hd)).mp h
          exact ⟨t :: ts, List.forall_mem_cons.mpr ⟨ht, hts⟩, by simp, by simp [hd]⟩
        · rintro ⟨ts, hts, rfl, hd⟩
          cases ts with
          | nil => exact absurd (List.cons.inj hd).1 hc
          | cons t ts =>
            obtain ⟨ht, hts⟩ := List.forall_mem_cons.mp hts
            have hd : c :: d = t ++ (ts.flatten ++ Bytes.char ')' :: rest) := by simpa using hd
            exact ⟨t, _, ⟨ht, hd⟩, (ih (hrest ht hd)).mpr ⟨ts, hts, by simp, rfl⟩⟩

/-- The text of a descriptor. -/
structure Spells (d : Bytes) (x : Descriptor) : Prop where
  parameters : ∀ t ∈ x.parameters, FieldType t
  result : ResultType x.result
  text : d = Bytes.char '(' :: x.parameters.flatten ++ Bytes.char ')' :: x.result

theorem parse_eq_ok_iff {d : Bytes} {x : Descriptor} : parse d = .ok x ↔ Spells d x := by
  cases d with
  | nil =>
    simp only [parse, reduceCtorEq, false_iff]
    rintro ⟨-, -, h⟩
    simp at h
  | cons c d =>
    rw [parse]
    by_cases hc : c = Bytes.char '('
    · subst hc
      have hfuel : d.length ≤ (Bytes.char '(' :: d).length := Nat.le_succ _
      simp only [if_true, bind_eq_ok_iff, Prod.exists, parametersFrom_eq_ok_iff hfuel]
      constructor
      · rintro ⟨parameters, result, ⟨ts, hts, rfl, rfl⟩, h⟩
        by_cases hresult : isResult result = true
        · rw [if_pos hresult, pure_eq_ok_iff] at h
          subst h
          exact ⟨hts, isResult_iff.mp hresult, rfl⟩
        · simp [if_neg hresult] at h
      · rintro ⟨hts, hresult, hd⟩
        refine ⟨x.parameters, x.result, ⟨x.parameters, hts, rfl, (List.cons.inj hd).2⟩, ?_⟩
        rw [if_pos (isResult_iff.mpr hresult)]
        rfl
    · simp only [if_neg hc, reduceCtorEq, false_iff]
      rintro ⟨-, -, h⟩
      exact hc (List.cons.inj h).1

/-- A text parses to a descriptor exactly if it spells it, and it spells no other. -/
theorem parse_exact (d : Bytes) :
    (∀ x, parse d = .ok x ↔ Spells d x) ∧ ∀ x y, Spells d x → Spells d y → x = y :=
  ⟨fun _ => parse_eq_ok_iff, fun _ _ hx hy =>
    Except.ok.inj ((parse_eq_ok_iff.mpr hx).symm.trans (parse_eq_ok_iff.mpr hy))⟩

/-- A name may hold the parenthesis that ends the parameters elsewhere. -/
theorem parse_exact_odd_name :
    Spells "(I[[L)I(;)V" { parameters := ["I", "[[L)I(;"], result := "V" } :=
  ((parse_exact _).1 _).mp (by decide)

end JarRepair.ClassFile.Descriptor

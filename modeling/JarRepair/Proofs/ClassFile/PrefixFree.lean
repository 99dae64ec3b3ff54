import JarRepair.Proofs.ClassFile.Codec

/-! # No class file goes on from another

What decoding takes from the front of some data does not depend on what follows. So data that go on
from a class file are read as this class, and refused for the bytes behind it; and data that are cut
off are refused, since the class they would be read as could not go on. -/

namespace JarRepair.ClassFile

open JarRepair.ClassFile.Parser

/-- With more bytes behind them, the attributes of a class are read, and the bytes are refused. -/
theorem tail_append {c : ClassFile} {bs rest : Bytes} {attributes : List Attribute}
    {rows : List InnerClass} (h : Reads (attributeTable c.pool) bs (attributes, rows))
    (hrest : rest ≠ []) (offset : Nat) :
    tail c ⟨offset, bs ++ rest⟩ = .error (.trailing rest.length) := by
  rw [tail_eq, h.bind_apply]
  exact if_neg hrest

/-- Data that go on from a class file are refused for what is behind it. -/
theorem decode_append {data rest : Bytes} {c : ClassFile} (h : decode data = .ok c)
    (hrest : rest ≠ []) : decode (data ++ rest) = .error {
      fault := .trailing rest.length, className := c.name, repeats := repeatsOf c.methods } := by
  obtain ⟨c₀, b₀, _, cursor, hhead, rfl, hbody⟩ := decode_eq_ok_iff_reads.mp h
  obtain ⟨c₁, b₁, methods, b₂, attributes, rows, b₃, hmiddle, hmethods, htable, rfl, rfl, -⟩ :=
    body_eq_ok_iff.mp hbody
  have hname : c₁.name = c₀.name := by rw [(reads_middle_iff.mp hmiddle).1]
  have hfails (offset : Nat) : body c₀ ⟨offset, b₁ ++ (b₂ ++ (b₃ ++ rest))⟩ =
      .error { fault := .trailing rest.length, repeats := repeatsOf methods } := by
    have htail := tail_append (c := { c₁ with methods }) htable hrest
    rw [body, (reads_mapError_iff.mpr hmiddle).bind_apply, hmethods.bind_apply]
    exact congrArg (Except.mapError _) (htail _)
  have hdata : b₀ ++ (b₁ ++ (b₂ ++ b₃)) ++ rest = b₀ ++ (b₁ ++ (b₂ ++ (b₃ ++ rest))) := by
    simp only [List.append_assoc]
  rw [decode, hdata, hhead]
  dsimp only
  rw [hfails, hname]

/-- No class file is the beginning of another: data that are shorter or longer than a class file,
and the same as far as they go, are refused, as malformed data are. -/
theorem decode_prefix_free {data : Bytes} {c : ClassFile} (h : decode data = .ok c) :
    (∀ cut, cut <+: data → cut ≠ data → ∃ f, decode cut = .error f ∧ f.error.kind = .format) ∧
    ∀ longer, data <+: longer → longer ≠ data → ∃ f, decode longer = .error f ∧
    f.error.kind = .format := by
  constructor
  · rintro cut ⟨rest, rfl⟩ hne
    have hrest : rest ≠ [] := by
      rintro rfl
      exact hne (List.append_nil cut).symm
    cases hcut : decode cut with
    | error f => exact ⟨f, rfl, f.kind_error⟩
    | ok c' =>
      rw [decode_append hcut hrest] at h
      exact nomatch h
  · rintro _ ⟨rest, rfl⟩ hne
    have hrest : rest ≠ [] := by
      rintro rfl
      exact hne (List.append_nil data)
    exact ⟨_, decode_append h hrest, Failure.kind_error _⟩

/-- A class that ends within its second copy of an annotation attribute, and one with a byte too
many. -/
theorem decode_prefix_free_twiceAnnotated : (∃ c, decode twiceAnnotated = .ok c) ∧
    (∃ f, decode (twiceAnnotated.take 100) = .error f ∧ f.error.kind = .format) ∧
    ∃ f, decode (twiceAnnotated ++ [0]) = .error f ∧ f.error.kind = .format := by
  obtain ⟨c, hread⟩ : ∃ c, decode twiceAnnotated = .ok c := ⟨_, rfl⟩
  obtain ⟨hcut, hlonger⟩ := decode_prefix_free hread
  exact ⟨⟨c, hread⟩, hcut _ (List.take_prefix 100 _) (by decide), hlonger _ ⟨[0], rfl⟩ (by decide)⟩

end JarRepair.ClassFile

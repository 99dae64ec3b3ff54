import JarRepair.Proofs.Volume.Enclosure
import JarRepair.Proofs.Volume.Sibling

/-! # What is left of a volume

An output is put together at the sibling of its path. When it is given up, nothing is at the path
that was not there before, and away from both paths nothing has been lost. -/

namespace JarRepair.Volume

variable {u v w : Volume} {r : Path} {dir l : Location} {n : Node}

/-- The location is neither at the path or its sibling nor below them, and no link at the sibling
leads there. -/
structure Away (r : Path) (v : Volume) (l : Location) : Prop where
  sibling : ∀ dir, v.Holder r.sibling dir → ¬dir ++ [r.sibling.filename] <+: l
  path : ∀ dir, v.Holder r dir → ¬dir ++ [r.filename] <+: l
  link : ∀ n, v.status r.sibling ≠ .present l n

theorem Away.mono (hw : Within (fun _ => True) v w) (h : w.Away r l) : v.Away r l where
  sibling dir hdir := h.sibling dir (hdir.mono (fun _ _ => trivial) hw)
  path dir hdir := h.path dir (hdir.mono (fun _ _ => trivial) hw)
  link n hn := h.link n (hw.status_eq (fun _ _ => trivial) trivial hn)

/-- Away from the path and its sibling, every node is kept. -/
def Spares (r : Path) (v w : Volume) : Prop :=
  ∀ l n, v.Away r l → v.node? l = some n → w.node? l = some n

theorem Spares.trans (h : Spares r v w) (hw : Within (fun _ => True) w v) (h' : Spares r w u) :
    Spares r v u :=
  fun l n hl hn => h' l n (hl.mono hw) (h l n hl hn)

/-- Nothing is kept but what was there, or nothing is at the path; and other nodes are spared. -/
structure Leftover (r : Path) (v w : Volume) : Prop where
  nothingNew : Within (fun _ => True) w v ∨ ∀ loc n, w.status r ≠ .present loc n
  spares : Spares r v w

theorem Leftover.refl (r : Path) (v : Volume) : Leftover r v v :=
  ⟨.inl (.refl _ v), fun _ _ _ h => h⟩

/-- What is left is left of what was left before. -/
theorem Leftover.of_part (h : Leftover r v u) (hw : Within (fun _ => True) w u)
    (hspares : Spares r v w) :
    Leftover r v w := by
  refine ⟨?_, hspares⟩
  rcases h.nothingNew with hpart | hnone
  · exact .inl (hw.trans hpart)
  · exact .inr fun loc n hn => hnone loc n (hw.status_eq (fun _ _ => trivial) trivial hn)

theorem Leftover.congr (h : Leftover r v u) (hw : w.workingDirectory = u.workingDirectory)
    (hnode : ∀ l, w.node? l = u.node? l) : Leftover r v w := by
  refine h.of_part ⟨hw.symm, fun l n _ hn => ?_⟩ fun l n hl hn => ?_
  · rw [← hnode, hn]
  · rw [hnode]
    exact h.spares l n hl hn

theorem spares_of_cleared (h : Cleared r.sibling v w) : Spares r v w := by
  intro l n hl hn
  rw [h.spares l hl.sibling, hn]

/-- What is at the path was there before, and no more and no less is below it. -/
def KeptAt (p : Path) (v w : Volume) : Prop :=
  ∀ loc n, w.status p = .present loc n → v.status p = .present loc n ∧
    ∀ rest, rest ≠ [] → w.node? (loc ++ rest) = v.node? (loc ++ rest)

theorem KeptAt.refl (p : Path) (v : Volume) : KeptAt p v v := fun _ _ hn => ⟨hn, fun _ _ => rfl⟩

end JarRepair.Volume

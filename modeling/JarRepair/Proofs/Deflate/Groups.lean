import JarRepair.Deflate.CodeLengths
import JarRepair.Proofs.Deflate.Canonical

/-! # Joining groups

A heap keeps its groups whatever it does, so joining two of them again and again leaves one tree
that has each symbol once, and no gap. What the order of the heap is makes no difference for
that. -/

namespace JarRepair.Deflate

/-! ## Symbols of a tree -/

namespace Tree

def symbols : Tree → List Nat
  | .leaf symbol => [symbol]
  | .node zero one => symbols zero ++ symbols one
  | .gap => []

/-- The symbol of a tree that is nothing else. -/
def ownSymbol : Tree → List Nat
  | .leaf symbol => [symbol]
  | _ => []

theorem map_fst_depths (t : Tree) (depth : Nat) : (t.depths depth).map Prod.fst = t.symbols := by
  induction t generalizing depth with
  | leaf => rfl
  | node zero one hzero hone => rw [depths, List.map_append, hzero, hone, symbols]
  | gap => rfl

end Tree

namespace GroupHeap

variable {heap heap' : GroupHeap} {g h : Group} {k : Nat}

/-! ## Heaps -/

/-- A group that moves down leaves its place to those that move up. -/
theorem sift_perm (levels : Nat) (hk : k < heap.size) :
    (sift g levels k heap).toList.Perm (heap.toList.set k g) := by
  induction levels generalizing k heap with
  | zero => rw [sift, Array.toList_setIfInBounds]
  | succ levels ih =>
    have hstay : (heap.setIfInBounds k g).toList.Perm (heap.toList.set k g) := by
      rw [Array.toList_setIfInBounds]
    have hmove {j : Nat} {child : Group} (hne : j ≠ k) (hchild : heap[j]? = some child) :
        (sift g levels j (heap.setIfInBounds k child)).toList.Perm (heap.toList.set k g) := by
      obtain ⟨hj, rfl⟩ := Array.getElem?_eq_some_iff.mp hchild
      refine (ih (by rwa [Array.size_setIfInBounds])).trans ?_
      have hk' : k < (heap.toList.set k g).length := by simpa using hk
      have hj' : j < (heap.toList.set k g).length := by simpa using hj
      have hswap := List.set_set_perm hk' hj'
      simpa [List.getElem_set_ne hne.symm] using hswap
    rw [sift]
    split
    · exact hstay
    · rename_i left hleft
      split
      rename_i j child hpick
      have hbelow : j ≠ k ∧ heap[j]? = some child := by
        split at hpick
        · rename_i right hright
          split at hpick
          · cases hpick
            exact ⟨by omega, hright⟩
          · cases hpick
            exact ⟨by omega, hleft⟩
        · cases hpick
          exact ⟨by omega, hleft⟩
      split
      · exact hstay
      · exact hmove hbelow.1 hbelow.2

theorem replace_perm (hk : k < heap.size) : (replace k g heap).toList.Perm (heap.toList.set k g) :=
  sift_perm heap.size hk

/-- The first group makes way for another one. -/
theorem replace_zero_perm (hh : heap[0]? = some h) :
    (h :: (replace 0 g heap).toList).Perm (g :: heap.toList) := by
  obtain ⟨hsize, rfl⟩ := Array.getElem?_eq_some_iff.mp hh
  refine ((replace_perm hsize).cons _).trans ?_
  obtain ⟨groups⟩ := heap
  rcases groups with _ | ⟨h, groups⟩
  · exact absurd hsize (Nat.lt_irrefl 0)
  · exact List.Perm.swap ..

theorem ofList_perm (groups : List Group) : (ofList groups).toList.Perm groups := by
  rw [ofList]
  induction List.range (groups.toArray.size / 2) with
  | nil => exact List.Perm.refl _
  | cons k ks ih =>
    rw [List.foldr_cons]
    split
    · rename_i g hg
      obtain ⟨hk, rfl⟩ := Array.getElem?_eq_some_iff.mp hg
      refine (replace_perm hk).trans ?_
      rw [← Array.getElem_toList, List.set_getElem_self]
      exact ih
    · exact ih

/-- The first group is taken out, and the others are kept. -/
theorem exists_pop (hsize : heap.size ≠ 0) :
    ∃ first heap', pop? heap = some (first, heap') ∧ (first :: heap'.toList).Perm heap.toList := by
  obtain ⟨groups, last, rfl⟩ := Array.eq_push_of_size_ne_zero hsize
  rcases hfirst : groups[0]? with _ | first
  · obtain rfl : groups = #[] := Array.eq_empty_of_size_eq_zero (by simpa using hfirst)
    exact ⟨last, #[], rfl, List.Perm.refl _⟩
  · have hsome : (groups.push last)[0]? = some first := by
      obtain ⟨hpos, rfl⟩ := Array.getElem?_eq_some_iff.mp hfirst
      rw [Array.getElem?_push, if_neg hpos.ne, hfirst]
    refine ⟨first, replace 0 last groups, ?_, ?_⟩
    · simp only [pop?, hsome, Array.back?_push, Array.pop_push]
    · refine (replace_zero_perm hfirst).trans ?_
      rw [Array.toList_push]
      exact (List.perm_append_singleton last _).symm

/-! ## Joining -/

/-- The groups have all symbols between them, and those that are no longer groups of their own are
in the order in which they were joined. Some groups have been joined unless there are two to
join. -/
structure Gathers (heap : GroupHeap) (order all : List Nat) : Prop where
  symbols : (heap.toList.flatMap fun g => g.tree.symbols).Perm all
  order : (order ++ heap.toList.flatMap fun g => g.tree.ownSymbol).Perm all
  full : ∀ g ∈ heap.toList, g.tree.Full
  joined : 2 ≤ heap.size ∨ ∃ g ∈ heap.toList, g.tree.ownSymbol = []

theorem note_eq (g : Group) (order : List Nat) :
    joinAll.note g order = g.tree.ownSymbol ++ order := by
  obtain ⟨_, _, tree⟩ := g
  cases tree <;> rfl

theorem join_ne (g h : Group) : g.join h ≠ h := by
  intro heq
  have hdepth : max g.depth h.depth + 1 = h.depth := congrArg Group.depth heq
  omega

/-- The two first groups are joined. -/
theorem Gathers.join {heap'' : GroupHeap} {order all : List Nat} (hgathers : heap.Gathers order all)
    (hg : (g :: heap'.toList).Perm heap.toList)
    (hh : (h :: heap''.toList).Perm (g.join h :: heap'.toList)) :
    heap''.Gathers (joinAll.note h (joinAll.note g order)) all := by
  have hbefore (f : Group → List Nat) :
      (f g ++ heap'.toList.flatMap f).Perm (heap.toList.flatMap f) := by
    simpa using hg.flatMap_right f
  have hafter (f : Group → List Nat) :
      (f h ++ heap''.toList.flatMap f).Perm (f (g.join h) ++ heap'.toList.flatMap f) := by
    simpa using hh.flatMap_right f
  have hmem (x : Group) (hx : x ∈ h :: heap''.toList) : x = g.join h ∨ x ∈ heap'.toList :=
    List.mem_cons.mp (hh.mem_iff.mp hx)
  have hjoin : g.join h ∈ heap''.toList :=
    List.mem_of_ne_of_mem (join_ne g h) (hh.mem_iff.mpr List.mem_cons_self)
  have hfull (x : Group) (hx : x ∈ g :: heap'.toList) : x.tree.Full :=
    hgathers.full x (hg.mem_iff.mp hx)
  refine ⟨?_, ?_, fun x hx => ?_, .inr ⟨g.join h, hjoin, rfl⟩⟩
  · refine List.perm_iff_count.mpr fun s => ?_
    have hgone := (hbefore fun g => g.tree.symbols).count_eq s
    have hcome := (hafter fun g => g.tree.symbols).count_eq s
    have hall := hgathers.symbols.count_eq s
    simp only [Group.join, Tree.symbols, List.count_append] at hgone hcome
    omega
  · refine List.perm_iff_count.mpr fun s => ?_
    have hgone := (hbefore fun g => g.tree.ownSymbol).count_eq s
    have hcome := (hafter fun g => g.tree.ownSymbol).count_eq s
    have hall := hgathers.order.count_eq s
    simp only [Group.join, Tree.ownSymbol, note_eq, List.count_append, List.count_nil]
      at hgone hcome hall ⊢
    omega
  · rcases hmem x (List.mem_cons_of_mem h hx) with rfl | hx
    · refine ⟨hfull g List.mem_cons_self, ?_⟩
      have hother : h ∈ heap'.toList := (hmem h List.mem_cons_self).resolve_left (join_ne g h).symm
      exact hfull h (List.mem_cons_of_mem g hother)
    · exact hfull x (List.mem_cons_of_mem g hx)

/-- One tree is left, with each symbol once and no gap, and all symbols have been put in an
order. -/
theorem Gathers.exists_joinAll {fuel : Nat} {order all : List Nat}
    (hgathers : heap.Gathers order all) (hne : heap.size ≠ 0) (hfuel : heap.size ≤ fuel) :
    ∃ g order', joinAll fuel heap order = (some g, order') ∧ g.tree.symbols.Perm all ∧ g.tree.Full ∧
      order'.Perm all := by
  induction fuel generalizing heap order with
  | zero => exact absurd (Nat.le_zero.mp hfuel) hne
  | succ fuel ih =>
    obtain ⟨g, heap', hpop, hg⟩ := exists_pop hne
    have hsize := hg.length_eq
    rw [List.length_cons, Array.length_toList, Array.length_toList] at hsize
    rw [joinAll, hpop]
    dsimp only
    rcases hfirst : heap'[0]? with _ | h
    · have hempty : heap' = #[] := Array.eq_empty_of_size_eq_zero (by simpa using hfirst)
      rw [hempty, Array.toList_empty] at hg
      have hheap : heap.toList = [g] := List.perm_singleton.mp hg.symm
      have hsymbols := hgathers.symbols
      have horder := hgathers.order
      refine ⟨g, order, rfl, by simpa [hheap] using hsymbols, hgathers.full g (by simp [hheap]), ?_⟩
      rcases hgathers.joined with htwo | ⟨x, hx, hown⟩
      · rw [hempty, Array.size_empty] at hsize
        omega
      · rw [hheap, List.mem_singleton] at hx
        rw [hx] at hown
        simpa [hheap, hown] using horder
    · have hh := replace_zero_perm (g := g.join h) hfirst
      have hsize' := hh.length_eq
      simp only [List.length_cons, Array.length_toList] at hsize'
      have hpos := (Array.getElem?_eq_some_iff.mp hfirst).1
      exact ih (hgathers.join hg hh) (by omega) (by omega)

end GroupHeap

end JarRepair.Deflate

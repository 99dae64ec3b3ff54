import Mathlib.Data.List.Induction
import JarRepair.Volume.Operations

/-! # The nodes of a volume

What the changes of a volume do to the nodes at its locations. The root is always there, so a change
is one at a location below it. -/

namespace JarRepair.Volume

variable {v w : Volume} {loc l : Location} {n : Node}

theorem node?_of_ne_nil (h : l ≠ []) : v.node? l = v.nodes[l]? := by
  cases l with
  | nil => exact absurd rfl h
  | cons => rfl

@[simp] theorem node?_nil (v : Volume) : v.node? [] = some .directory := rfl

theorem node?_put (h : loc ≠ []) :
    (v.put loc n).node? l = if l = loc then some n else v.node? l := by
  by_cases hl : l = []
  · subst hl
    rw [if_neg (Ne.symm h)]
    rfl
  · rw [node?_of_ne_nil hl, node?_of_ne_nil hl, put, Std.TreeMap.getElem?_insert]
    simp only [Std.compare_eq_iff_eq, eq_comm (a := loc)]

theorem node?_addFile (h : loc ≠ []) {content : Bytes} :
    (v.addFile loc content).node? l =
      if l = loc then some (.file v.nextNumber content) else v.node? l :=
  node?_put h

theorem node?_erase (h : loc ≠ []) :
    (v.erase loc).node? l = if l = loc then none else v.node? l := by
  by_cases hl : l = []
  · subst hl
    rw [if_neg (Ne.symm h)]
    rfl
  · rw [node?_of_ne_nil hl, node?_of_ne_nil hl, erase, Std.TreeMap.getElem?_erase]
    simp only [Std.compare_eq_iff_eq, eq_comm (a := loc)]

theorem node?_eraseBelow :
    (v.eraseBelow loc).node? l = if l ≠ loc ∧ loc <+: l then none else v.node? l := by
  by_cases hl : l = []
  · subst hl
    rw [if_neg]
    · rfl
    · rintro ⟨hne, hprefix⟩
      exact hne (List.prefix_nil.mp hprefix).symm
  · rw [node?_of_ne_nil hl, node?_of_ne_nil hl, eraseBelow, Std.TreeMap.getElem?_filter']
    cases v.nodes[l]? with
    | none => simp
    | some n =>
      by_cases h : l = loc
      · simp [h]
      · by_cases hprefix : loc <+: l <;> simp [h, hprefix, Bool.eq_false_iff]

/-- Away from both places, nothing moves. -/
theorem node?_moveTree {src dst : Location} (hsrc : ¬src <+: l) (hdst : ¬dst <+: l) :
    (v.moveTree src dst).node? l = v.node? l := by
  by_cases hl : l = []
  · subst hl
    rfl
  · rw [node?_of_ne_nil hl, node?_of_ne_nil hl, moveTree,
      Std.TreeMap.getElem?_insertMany_list_of_contains_eq_false, Std.TreeMap.getElem?_filter']
    · cases v.nodes[l]? with
      | none => rfl
      | some n => simp [hsrc, Bool.eq_false_iff]
    · rw [List.contains_eq_mem, decide_eq_false_iff_not, List.map_map, List.mem_map]
      rintro ⟨⟨l', n⟩, -, rfl⟩
      exact hdst (List.prefix_append dst _)

/-- What is moved is listed by where it goes. -/
theorem mem_moved_iff {src dst rest : Location} (hsrc : src ≠ []) :
    (dst ++ rest, n) ∈ (v.nodes.toList.filter fun (l, _) => src.isPrefixOf l).map
      (fun (l, n) => (dst ++ l.drop src.length, n)) ↔ v.node? (src ++ rest) = some n := by
  rw [node?_of_ne_nil (by simp [hsrc]), ← Std.TreeMap.mem_toList_iff_getElem?_eq_some, List.mem_map]
  constructor
  · rintro ⟨⟨l, n'⟩, hmem, heq⟩
    rw [List.mem_filter, List.isPrefixOf_iff_prefix] at hmem
    obtain ⟨hmem, more, rfl⟩ := hmem
    simp only [List.drop_left, Prod.mk.injEq, List.append_cancel_left_eq] at heq
    obtain ⟨rfl, rfl⟩ := heq
    exact hmem
  · intro hmem
    exact ⟨(src ++ rest, n), List.mem_filter.mpr ⟨hmem, by simp⟩, by simp⟩

/-- No two things are moved to one place. -/
theorem pairwise_moved {src dst : Location} :
    ((v.nodes.toList.filter fun (l, _) => src.isPrefixOf l).map
      (fun (l, n) => (dst ++ l.drop src.length, n))).Pairwise fun a b =>
        ¬compare a.1 b.1 = .eq := by
  rw [List.pairwise_map]
  refine (Std.TreeMap.distinct_keys_toList.filter _).imp_of_mem ?_
  rintro ⟨l, n⟩ ⟨l', n'⟩ hl hl' hne heq
  obtain ⟨more, rfl⟩ := List.isPrefixOf_iff_prefix.mp (List.mem_filter.mp hl).2
  obtain ⟨more', rfl⟩ := List.isPrefixOf_iff_prefix.mp (List.mem_filter.mp hl').2
  simp only [List.drop_left, Std.compare_eq_iff_eq, List.append_cancel_left_eq] at heq hne
  exact hne heq

/-- What was at the source is at the destination, if nothing was there. -/
theorem node?_moveTree_append {src dst rest : Location} (hsrc : src ≠ []) (hdst : dst ≠ [])
    (hfresh : v.node? (dst ++ rest) = none) :
    (v.moveTree src dst).node? (dst ++ rest) = v.node? (src ++ rest) := by
  rw [node?_of_ne_nil (by simp [hdst])] at hfresh ⊢
  rw [moveTree]
  cases hn : v.node? (src ++ rest) with
  | some n =>
    exact Std.TreeMap.getElem?_insertMany_list_of_mem Std.ReflCmp.compare_self pairwise_moved
      ((mem_moved_iff hsrc).mpr hn)
  | none =>
    rw [Std.TreeMap.getElem?_insertMany_list_of_contains_eq_false, Std.TreeMap.getElem?_filter',
      hfresh]
    · rfl
    · rw [List.contains_eq_mem, decide_eq_false_iff_not, List.mem_map]
      rintro ⟨⟨l, n⟩, hmem, rfl⟩
      rw [(mem_moved_iff hsrc).mp hmem] at hn
      simp at hn

/-- Nothing is left at the source. -/
theorem node?_moveTree_source {src dst rest : Location} (hsrc : src ≠ [])
    (hdst : ¬dst <+: src ++ rest) :
    (v.moveTree src dst).node? (src ++ rest) = none := by
  rw [node?_of_ne_nil (by simp [hsrc]), moveTree,
    Std.TreeMap.getElem?_insertMany_list_of_contains_eq_false, Std.TreeMap.getElem?_filter']
  · cases v.nodes[src ++ rest]? <;> simp
  · rw [List.contains_eq_mem, decide_eq_false_iff_not, List.map_map, List.mem_map]
    rintro ⟨⟨l, n⟩, -, heq⟩
    exact hdst ⟨_, heq⟩

/-! ## Children -/

theorem mem_children_iff {name : Bytes} :
    (name, n) ∈ v.children loc ↔ v.node? (loc ++ [name]) = some n := by
  rw [node?_of_ne_nil (by simp), children, List.mem_filterMap]
  constructor
  · rintro ⟨⟨l, n'⟩, hmem, hsome⟩
    dsimp only at hsome
    split at hsome
    · rename_i hprefix
      obtain ⟨rest, rfl⟩ := List.isPrefixOf_iff_prefix.mp hprefix
      rw [List.drop_left] at hsome
      split at hsome
      · obtain ⟨rfl, rfl⟩ := Prod.mk.inj (Option.some.inj hsome)
        exact Std.TreeMap.mem_toList_iff_getElem?_eq_some.mp hmem
      · simp at hsome
    · simp at hsome
  · intro h
    refine ⟨(loc ++ [name], n), Std.TreeMap.mem_toList_iff_getElem?_eq_some.mpr h, ?_⟩
    simp

theorem isEmptyAt_iff : v.isEmptyAt loc = true ↔ ∀ name, v.node? (loc ++ [name]) = none := by
  rw [isEmptyAt, List.isEmpty_iff]
  constructor
  · intro h name
    rw [Option.eq_none_iff_forall_ne_some]
    intro n hn
    rw [← mem_children_iff, h] at hn
    simp at hn
  · intro h
    rw [List.eq_nil_iff_forall_not_mem]
    rintro ⟨name, n⟩ hmem
    rw [mem_children_iff, h] at hmem
    simp at hmem

/-! ## Trees -/

/-- Every node is in a directory. -/
def IsTree (v : Volume) : Prop :=
  ∀ loc name n, v.node? (loc ++ [name]) = some n → v.node? loc = some .directory

/-- Every node below a location is in a directory. -/
def IsTreeAt (loc : Location) (v : Volume) : Prop :=
  ∀ rel name n, v.node? (loc ++ (rel ++ [name])) = some n → v.node? (loc ++ rel) = some .directory

theorem IsTree.isTreeAt (h : v.IsTree) (loc : Location) : v.IsTreeAt loc := by
  intro rel name n hn
  rw [← List.append_assoc] at hn
  exact h _ name n hn

/-- The same tree can be somewhere else. -/
theorem IsTreeAt.move {loc' : Location} (h : v.IsTreeAt loc)
    (hw : ∀ rel, w.node? (loc' ++ rel) = v.node? (loc ++ rel)) : w.IsTreeAt loc' := by
  intro rel name n
  rw [hw, hw]
  exact h rel name n

/-- All between a location and a node below it are directories. -/
theorem IsTreeAt.directory (h : v.IsTreeAt loc) {rel rest : Location} (hrest : rest ≠ [])
    (hn : v.node? (loc ++ (rel ++ rest)) = some n) : v.node? (loc ++ rel) = some .directory := by
  induction rest using List.reverseRecOn generalizing n with
  | nil => exact absurd rfl hrest
  | append_singleton rest name ih =>
    rw [← List.append_assoc rel] at hn
    have hup := h _ _ _ hn
    by_cases hnil : rest = []
    · rwa [hnil, List.append_nil] at hup
    · exact ih hnil hup

theorem IsTreeAt.directory_of_prefix (h : v.IsTreeAt loc) {rel more : Location}
    (hrel : v.node? (loc ++ rel) = some .directory) (hmore : more <+: rel) :
    v.node? (loc ++ more) = some .directory := by
  obtain ⟨rest, rfl⟩ := hmore
  by_cases hnil : rest = []
  · rwa [hnil, List.append_nil] at hrel
  · exact h.directory hnil hrel

theorem IsTreeAt.eq_none (h : v.IsTreeAt loc) {rel rest : Location}
    (hrel : v.node? (loc ++ rel) ≠ some .directory) (hrest : rest ≠ []) :
    v.node? (loc ++ (rel ++ rest)) = none := by
  rw [Option.eq_none_iff_forall_ne_some]
  exact fun n hn => hrel (h.directory hrest hn)

theorem IsTreeAt.eq_none_below (h : v.IsTreeAt loc) (hloc : v.node? loc ≠ some .directory)
    {rest : Location} (hrest : rest ≠ []) : v.node? (loc ++ rest) = none := by
  rw [← List.append_nil loc] at hloc
  exact h.eq_none hloc hrest

/-- Below an empty directory there is nothing. -/
theorem IsTreeAt.eq_none_of_isEmptyAt (h : v.IsTreeAt loc) (hloc : v.isEmptyAt loc = true)
    {rest : Location} (hrest : rest ≠ []) : v.node? (loc ++ rest) = none := by
  obtain ⟨name, rest, rfl⟩ := List.exists_cons_of_ne_nil hrest
  have hchild := isEmptyAt_iff.mp hloc name
  by_cases hnil : rest = []
  · rwa [hnil]
  · rw [← List.singleton_append]
    exact h.eq_none (by simp [hchild]) hnil

/-- A node can be added to a directory. -/
theorem IsTreeAt.add (h : v.IsTreeAt loc) {rel : Location} {name : Bytes}
    (hrel : v.node? (loc ++ rel) = some .directory) (hnew : v.node? (loc ++ (rel ++ [name])) = none)
    (hw : ∀ more, w.node? (loc ++ more) =
      if more = rel ++ [name] then some n else v.node? (loc ++ more)) :
    w.IsTreeAt loc := by
  intro more name' n' hn
  rw [hw] at hn ⊢
  split at hn
  · rename_i heq
    obtain ⟨rfl, -⟩ := List.append_inj' heq rfl
    rwa [if_neg (by simp)]
  · have hup := h more name' n' hn
    rw [if_neg, hup]
    rintro rfl
    simp [hnew] at hup

/-- Below what is not a directory there is nothing. -/
theorem IsTree.eq_none (h : v.IsTree) (hloc : v.node? loc ≠ some .directory) {rest : Location}
    (hrest : rest ≠ []) : v.node? (loc ++ rest) = none :=
  (h.isTreeAt loc).eq_none_below hloc hrest

theorem IsTree.eq_none_of_isEmptyAt (h : v.IsTree) (hloc : v.isEmptyAt loc = true) {rest : Location}
    (hrest : rest ≠ []) : v.node? (loc ++ rest) = none :=
  (h.isTreeAt loc).eq_none_of_isEmptyAt hloc hrest

theorem isTree_empty : ({} : Volume).IsTree := by
  intro loc name n hn
  rw [node?_of_ne_nil (by simp)] at hn
  simp at hn

theorem IsTree.put (h : v.IsTree) (loc : Location) (name : Bytes) (n : Node)
    (hloc : v.node? loc = some .directory)
    (hnew : v.node? (loc ++ [name]) = none) : (v.put (loc ++ [name]) n).IsTree :=
  (h.isTreeAt []).add hloc hnew fun _ => node?_put (by simp)

theorem IsTree.addFile (h : v.IsTree) (loc : Location) (name content : Bytes)
    (hloc : v.node? loc = some .directory) (hnew : v.node? (loc ++ [name]) = none) :
    (v.addFile (loc ++ [name]) content).IsTree :=
  h.put loc name _ hloc hnew

/-- A node with nothing below it can go. -/
theorem IsTree.erase (h : v.IsTree) (hloc : loc ≠ [])
    (hbelow : ∀ name, v.node? (loc ++ [name]) = none) : (v.erase loc).IsTree := by
  intro l name n hn
  rw [node?_erase hloc] at hn ⊢
  split at hn
  · simp at hn
  · rw [if_neg]
    · exact h l name n hn
    · rintro rfl
      rw [hbelow] at hn
      simp at hn

theorem IsTree.eraseBelow (h : v.IsTree) : (v.eraseBelow loc).IsTree := by
  intro l name n hn
  rw [node?_eraseBelow] at hn ⊢
  split at hn
  · simp at hn
  · rename_i hkept
    rw [if_neg]
    · exact h l name n hn
    · rintro ⟨hne, hprefix⟩
      refine hkept ⟨?_, hprefix.trans (List.prefix_append l [name])⟩
      rintro rfl
      have := hprefix.length_le
      rw [List.length_append, List.length_singleton] at this
      omega

end JarRepair.Volume

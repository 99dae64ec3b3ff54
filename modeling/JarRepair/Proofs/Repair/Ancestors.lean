import Mathlib.Data.Finset.Card
import JarRepair.Proofs.Repair.Lookup

/-! # Ancestors are what can be reached

A climb goes through classes that are waiting, and marks the names that it meets. Each waiting class
is reached from the one it started at, and each class met is waiting or has all its parents met.
When no class is waiting, the names met are those that can be reached. The fuel suffices because a
class waits only once, and only under a name that some container has a file for. -/

namespace JarRepair

/-- What a class is for its heirs: its parents, and the signatures that they can override. -/
structure ClassFile.Kin where
  parents : List Bytes
  signatures : List Bytes

def ClassFile.kin (c : ClassFile) : Kin where
  parents := c.parents
  signatures := (c.methods.filter (·.isEligible)).map (·.signature)

namespace Repair

open JarRepair.Task
open ClassFile (Kin)

/-- The names that are reached from a class by going to parents, but not through its own name. -/
inductive Reaches (kin : Bytes → Option Kin) (c : ClassFile) : Bytes → Prop
  | parent {name : Bytes} (hparent : name ∈ c.kin.parents) (hne : name ≠ c.name) :
      Reaches kin c name
  | next {name name' : Bytes} {k : Kin} (h : Reaches kin c name) (hk : kin name = some k)
    (hparent : name' ∈ k.parents) (hne : name' ≠ c.name) : Reaches kin c name'

/-- Some class that is reached has an eligible method with the signature. -/
def Inherits (kin : Bytes → Option Kin) (c : ClassFile) (signature : Bytes) : Prop :=
  ∃ name k, Reaches kin c name ∧ kin name = some k ∧ signature ∈ k.signatures

theorem Reaches.congr {kin : Bytes → Option Kin} {c c' : ClassFile} (hkin : c'.kin = c.kin)
    (hname : c'.name = c.name) {name : Bytes} (h : Reaches kin c name) : Reaches kin c' name := by
  induction h with
  | parent hparent hne => exact .parent (hkin ▸ hparent) (hname ▸ hne)
  | next _ hk hparent hne ih => exact .next ih hk hparent (hname ▸ hne)

namespace Survey

/-! ## Visits -/

theorem mem_visited_learn {s : Survey} {name name' : Bytes} {found : Option ClassFile} :
    name' ∈ (s.learn name found).visited ↔ name' = name ∨ name' ∈ s.visited := by
  have hinsert : name' ∈ s.visited.insert name ↔ name' = name ∨ name' ∈ s.visited := by
    rw [Std.TreeSet.mem_insert, Std.LawfulEqCmp.compare_eq_iff_eq, eq_comm]
  cases found <;> exact hinsert

theorem mem_signatures_learn {s : Survey} {name signature : Bytes} {found : Option ClassFile} :
    signature ∈ (s.learn name found).signatures ↔
      signature ∈ s.signatures ∨ ∃ d, found = some d ∧ signature ∈ d.kin.signatures := by
  cases found with
  | none => simp [learn]
  | some d => simp [learn, addMethods, ClassFile.kin, Std.TreeSet.mem_insertMany_list]

theorem found_learn (s : Survey) (name : Bytes) (found : Option ClassFile) :
    (s.learn name found).found = found.toList ++ s.found := by
  cases found <;> rfl

variable {kin : Bytes → Option Kin} {c node : ClassFile} {nodes : List ClassFile} {s : Survey}

/-- What holds of a climb from `c` while the classes `nodes` are waiting. -/
structure Climbed (kin : Bytes → Option Kin) (c : ClassFile) (nodes : List ClassFile) (s : Survey) :
    Prop where
  self : c.name ∈ s.visited
  reaches : ∀ name ∈ s.visited, name ≠ c.name → Reaches kin c name
  waiting : ∀ node ∈ nodes, node.kin = c.kin ∨ ∃ name, Reaches kin c name ∧ kin name = some node.kin
  closed_self : (∃ node ∈ nodes, node.kin = c.kin) ∨ ∀ p ∈ c.kin.parents, p ∈ s.visited
  closed : ∀ name ∈ s.visited, name ≠ c.name → ∀ k, kin name = some k →
    (∃ node ∈ nodes, node.kin = k) ∨ ∀ p ∈ k.parents, p ∈ s.visited
  signatures : ∀ signature, signature ∈ s.signatures ↔
    ∃ name k, name ∈ s.visited ∧ name ≠ c.name ∧ kin name = some k ∧ signature ∈ k.signatures

/-- Before the climb only the class's own name counts as visited. -/
def start (c : ClassFile) : Survey := { visited := Std.TreeSet.ofList [c.name] }

theorem mem_visited_start {name : Bytes} : name ∈ (start c).visited ↔ name = c.name := by
  rw [eq_comm (a := name)]
  simp [start]

theorem climbed_start (kin : Bytes → Option Kin) (c : ClassFile) : Climbed kin c [c] (start c) := by
  refine ⟨mem_visited_start.mpr rfl, ?_, ?_, ?_, ?_, ?_⟩
  · exact fun name hname hne => absurd (mem_visited_start.mp hname) hne
  · exact fun node hnode => .inl (by rw [List.mem_singleton.mp hnode])
  · exact .inl ⟨c, List.mem_singleton_self c, rfl⟩
  · exact fun name hname hne => absurd (mem_visited_start.mp hname) hne
  · intro signature
    constructor
    · intro h
      simp [start] at h
    · rintro ⟨name, k, hname, hne, -⟩
      exact absurd (mem_visited_start.mp hname) hne

theorem Climbed.reaches_parent {rest : List ClassFile} {name : Bytes}
    (h : Climbed kin c (node :: rest) s) (hnew : name ∉ s.visited)
    (hparent : name ∈ node.kin.parents) :
    Reaches kin c name := by
  have hne : name ≠ c.name := fun heq => hnew (heq ▸ h.self)
  rcases h.waiting node List.mem_cons_self with hnode | ⟨child, hchild, hk⟩
  · exact .parent (hnode ▸ hparent) hne
  · exact .next hchild hk hparent hne

/-- The first visit of a parent of the first class keeps what holds; the parent waits if it is
found. -/
theorem Climbed.learn {name : Bytes} {found : Option ClassFile} (hnew : name ∉ s.visited)
    (hparent : name ∈ node.kin.parents) (hkin : found.map ClassFile.kin = kin name)
    (h : Climbed kin c (node :: (s.found.reverse ++ nodes)) s) :
    Climbed kin c (node :: ((s.learn name found).found.reverse ++ nodes)) (s.learn name found) := by
  have hne : name ≠ c.name := fun heq => hnew (heq ▸ h.self)
  have hreaches := h.reaches_parent hnew hparent
  have hvisited {name' : Bytes} (hname' : name' ∈ s.visited) :
      name' ∈ (s.learn name found).visited :=
    mem_visited_learn.mpr (.inr hname')
  have hwaiting {k : Kin} (hk : ∃ x ∈ node :: (s.found.reverse ++ nodes), x.kin = k) :
      ∃ x ∈ node :: ((s.learn name found).found.reverse ++ nodes), x.kin = k := by
    obtain ⟨x, hx, hxk⟩ := hk
    refine ⟨x, ?_, hxk⟩
    simp only [found_learn, List.reverse_append, List.mem_cons, List.mem_append] at hx ⊢
    tauto
  refine ⟨hvisited h.self, ?_, ?_, ?_, ?_, ?_⟩
  · intro name' hname' hne'
    rcases mem_visited_learn.mp hname' with rfl | hname'
    · exact hreaches
    · exact h.reaches name' hname' hne'
  · intro x hx
    simp only [found_learn, List.reverse_append, List.mem_cons, List.mem_append, List.mem_reverse,
      Option.mem_toList] at hx
    rcases hx with rfl | (hx | hx) | hx
    · exact h.waiting x List.mem_cons_self
    · exact h.waiting x (by simp [hx])
    · refine .inr ⟨name, hreaches, ?_⟩
      rw [← hkin, Option.mem_def.mp hx, Option.map_some]
    · exact h.waiting x (by simp [hx])
  · exact h.closed_self.imp hwaiting fun hall p hp => hvisited (hall p hp)
  · intro name' hname' hne' k hk
    rcases mem_visited_learn.mp hname' with rfl | hname'
    · left
      rw [hk, Option.map_eq_some_iff] at hkin
      obtain ⟨d, rfl, rfl⟩ := hkin
      exact ⟨d, by simp [found_learn], rfl⟩
    · exact (h.closed name' hname' hne' k hk).imp hwaiting fun hall p hp => hvisited (hall p hp)
  · intro signature
    rw [mem_signatures_learn, h.signatures]
    constructor
    · rintro (⟨name', k, hname', hne', hk, hmem⟩ | ⟨d, rfl, hmem⟩)
      · exact ⟨name', k, hvisited hname', hne', hk, hmem⟩
      · exact ⟨name, d.kin, mem_visited_learn.mpr (.inl rfl), hne, hkin.symm, hmem⟩
    · rintro ⟨name', k, hname', hne', hk, hmem⟩
      rcases mem_visited_learn.mp hname' with rfl | hname'
      · rw [hk, Option.map_eq_some_iff] at hkin
        obtain ⟨d, rfl, rfl⟩ := hkin
        exact .inr ⟨d, rfl, hmem⟩
      · exact .inl ⟨name', k, hname', hne', hk, hmem⟩

/-- A class need not wait any longer when its parents have been visited. -/
theorem Climbed.leave (h : Climbed kin c (node :: nodes) s)
    (hparents : ∀ p ∈ node.kin.parents, p ∈ s.visited) : Climbed kin c nodes s := by
  have hdrop {k : Kin} (hk : (∃ x ∈ node :: nodes, x.kin = k) ∨ ∀ p ∈ k.parents, p ∈ s.visited) :
      (∃ x ∈ nodes, x.kin = k) ∨ ∀ p ∈ k.parents, p ∈ s.visited := by
    rcases hk with ⟨x, hx, rfl⟩ | hall
    · rcases List.mem_cons.mp hx with rfl | hx
      · exact .inr hparents
      · exact .inl ⟨x, hx, rfl⟩
    · exact .inr hall
  exact { h with
    waiting := fun x hx => h.waiting x (List.mem_cons_of_mem node hx)
    closed_self := hdrop h.closed_self
    closed := fun name hname hne k hk => hdrop (h.closed name hname hne k hk) }

/-- In the end the names visited are those that are reached. -/
theorem Climbed.reaches_iff (h : Climbed kin c [] s) {name : Bytes} :
    Reaches kin c name ↔ name ∈ s.visited ∧ name ≠ c.name := by
  constructor
  · intro hreaches
    induction hreaches with
    | parent hparent hne =>
      refine ⟨?_, hne⟩
      rcases h.closed_self with ⟨_, hnil, -⟩ | hall
      · simp at hnil
      · exact hall _ hparent
    | next _ hk hparent hne ih =>
      refine ⟨?_, hne⟩
      rcases h.closed _ ih.1 ih.2 _ hk with ⟨_, hnil, -⟩ | hall
      · simp at hnil
      · exact hall _ hparent
  · exact fun ⟨hname, hne⟩ => h.reaches name hname hne

theorem Climbed.inherits_iff (h : Climbed kin c [] s) {signature : Bytes} :
    signature ∈ s.signatures ↔ Inherits kin c signature := by
  rw [h.signatures, Inherits]
  refine exists_congr fun name => exists_congr fun k => ?_
  rw [h.reaches_iff, and_assoc]

/-! ## Fuel -/

/-- The names among `names` that have not been visited. -/
def unseen (names : Finset Bytes) (s : Survey) : Finset Bytes := names.filter (· ∉ s.visited)

theorem card_unseen_le (names : Finset Bytes) (s : Survey) : (unseen names s).card ≤ names.card :=
  Finset.card_filter_le names _

theorem card_unseen_learn_none (names : Finset Bytes) (s : Survey) (name : Bytes) :
    (unseen names (s.learn name none)).card ≤ (unseen names s).card := by
  refine Finset.card_le_card fun name' hname' => ?_
  rw [unseen, Finset.mem_filter, mem_visited_learn, not_or] at hname'
  exact Finset.mem_filter.mpr ⟨hname'.1, hname'.2.2⟩

theorem card_unseen_learn_some {names : Finset Bytes} {s : Survey} {name : Bytes} {d : ClassFile}
    (hname : name ∈ names) (hnew : name ∉ s.visited) :
    (unseen names (s.learn name (some d))).card + 1 ≤ (unseen names s).card := by
  refine Finset.card_lt_card ⟨fun name' hname' => ?_, fun hsub => ?_⟩
  · rw [unseen, Finset.mem_filter, mem_visited_learn, not_or] at hname'
    exact Finset.mem_filter.mpr ⟨hname'.1, hname'.2.2⟩
  · have hmem := hsub (Finset.mem_filter.mpr ⟨hname, hnew⟩)
    rw [unseen, Finset.mem_filter, mem_visited_learn] at hmem
    exact hmem.2 (.inl rfl)

end Survey

/-! ## Climbs -/

section

variable {τ : Type} {find : Bytes → Task τ (Option ClassFile)} {kin : Bytes → Option Kin}
  {names : Finset Bytes} {J : List Bytes → τ → Prop} {E : Error → τ → Prop} {c : ClassFile}

/-- What holds of a climb that has asked for the names `asked`, each when it was first visited. -/
structure Survey.Asked (kin : Bytes → Option Kin) (c : ClassFile) (nodes : List ClassFile)
    (s : Survey) (asked : List Bytes) : Prop extends Climbed kin c nodes s where
  nodup : asked.Nodup
  mem_iff : ∀ name, name ∈ asked ↔ name ∈ s.visited ∧ name ≠ c.name

theorem Survey.asked_start (kin : Bytes → Option Kin) (c : ClassFile) :
    Asked kin c [c] (start c) [] where
  toClimbed := climbed_start kin c
  nodup := List.nodup_nil
  mem_iff name := by simp [mem_visited_start]

theorem Survey.Asked.learn {nodes : List ClassFile} {node : ClassFile} {s : Survey}
    {asked : List Bytes} {name : Bytes} {found : Option ClassFile}
    (h : Asked kin c (node :: (s.found.reverse ++ nodes)) s asked)
    (hnew : name ∉ s.visited) (hparent : name ∈ node.kin.parents)
    (hkin : found.map ClassFile.kin = kin name) :
    Asked kin c (node :: ((s.learn name found).found.reverse ++ nodes)) (s.learn name found)
      (asked ++ [name]) where
  toClimbed := h.toClimbed.learn hnew hparent hkin
  nodup := by
    refine List.nodup_append.mpr ⟨h.nodup, List.nodup_singleton name, ?_⟩
    rintro name' hname' _ hmem rfl
    rw [List.mem_singleton] at hmem
    exact hnew (hmem ▸ ((h.mem_iff _).mp hname').1)
  mem_iff name' := by
    rw [List.mem_append, List.mem_singleton, h.mem_iff, mem_visited_learn]
    have hne : name ≠ c.name := fun heq => hnew (heq ▸ h.self)
    constructor
    · rintro (⟨hname', hne'⟩ | rfl)
      · exact ⟨.inr hname', hne'⟩
      · exact ⟨.inl rfl, hne⟩
    · rintro ⟨rfl | hname', hne'⟩
      · exact .inr rfl
      · exact .inl ⟨hname', hne'⟩

/-- Climbing to the parents of a class asks for those that have not been visited. Classes are added
to those that wait only for names that have not been visited. -/
theorem Survey.ensures_visitParents
    (hfind : ∀ asked name w, J asked w → name ∉ asked → Reaches kin c name →
      (find name).Ensures w (fun found w' => found.map ClassFile.kin = kin name ∧
        (found.isSome = true → name ∈ names) ∧ J (asked ++ [name]) w') E)
    {node : ClassFile} {nodes : List ClassFile} {s : Survey} {asked : List Bytes} {w : τ}
    (hs : Asked kin c (node :: nodes) s asked) (hw : J asked w) :
    (visitParents find node s).Ensures w
      (fun s' w' => (∃ asked', Asked kin c (s'.found.reverse ++ nodes) s' asked' ∧ J asked' w') ∧
        s'.found.length + (unseen names s').card ≤ (unseen names s).card) E := by
  refine (Ensures.foldlM (I := fun done s' w' =>
    (∃ asked', Asked kin c (node :: (s'.found.reverse ++ nodes)) s' asked' ∧ J asked' w') ∧
    s'.found.length + (unseen names s').card ≤ (unseen names s).card ∧
    ∀ p ∈ done, p ∈ s'.visited) ?_ ?_).mono ?_ fun _ _ => id
  · rintro done name rest s₁ w₁ hparents ⟨⟨asked₁, hs₁, hw₁⟩, hfuel, hdone⟩
    have hparent : name ∈ node.kin.parents := by
      show name ∈ node.parents
      simp [hparents]
    refine ensures_visit ?_ fun hnew => ?_
    · intro hseen
      refine ⟨⟨asked₁, hs₁, hw₁⟩, hfuel, fun p hp => ?_⟩
      rcases List.mem_append.mp hp with hp | hp
      · exact hdone p hp
      · rwa [List.mem_singleton.mp hp]
    · have hnotin : name ∉ asked₁ := fun hmem => hnew ((hs₁.mem_iff name).mp hmem).1
      refine (hfind asked₁ name w₁ hw₁ hnotin (hs₁.reaches_parent hnew hparent)).mono ?_
        fun _ _ => id
      rintro found w₂ ⟨hkin, hname, hw₂⟩
      refine ⟨⟨_, hs₁.learn hnew hparent hkin, hw₂⟩, ?_, ?_⟩
      · rw [found_learn]
        cases found with
        | none =>
          have hcard := card_unseen_learn_none names s₁ name
          simp only [Option.toList_none, List.nil_append]
          omega
        | some d =>
          have hcard := card_unseen_learn_some (d := d) (hname rfl) hnew
          simp only [Option.toList_some, List.singleton_append, List.length_cons]
          omega
      · intro p hp
        rw [mem_visited_learn]
        rcases List.mem_append.mp hp with hp | hp
        · exact .inr (hdone p hp)
        · exact .inl (List.mem_singleton.mp hp)
  · have hs₀ : Asked kin c (node :: nodes) { s with found := [] } asked :=
      ⟨⟨hs.self, hs.reaches, hs.waiting, hs.closed_self, hs.closed, hs.signatures⟩,
        hs.nodup, hs.mem_iff⟩
    exact ⟨⟨asked, hs₀, hw⟩, (Nat.zero_add _).le, by simp⟩
  · rintro s' w' ⟨⟨asked', hs', hw'⟩, hfuel, hdone⟩
    exact ⟨⟨asked', ⟨hs'.toClimbed.leave hdone, hs'.nodup, hs'.mem_iff⟩, hw'⟩, hfuel⟩

/-- A climb asks once for each name that can be reached, and for no other, and what it collects is
what the classes declare that can be reached. -/
theorem Survey.ensures_signaturesAbove (kin : Bytes → Option Kin)
    (hfind : ∀ asked name w, J asked w → name ∉ asked → Reaches kin c name →
      (find name).Ensures w (fun found w' => found.map ClassFile.kin = kin name ∧
        (found.isSome = true → name ∈ names) ∧ J (asked ++ [name]) w') E)
    {fuel : Nat} (hfuel : names.card < fuel) {w : τ} (hw : J [] w) :
    (signaturesAbove find fuel c).Ensures w
      (fun inherited w' => (∀ signature, signature ∈ inherited ↔ Inherits kin c signature) ∧
        ∃ asked, asked.Nodup ∧ (∀ name, name ∈ asked ↔ Reaches kin c name) ∧ J asked w') E := by
  refine Ensures.bind ((ensures_climb (J := fun fuel nodes s w' =>
    (∃ asked, Asked kin c nodes s asked ∧ J asked w') ∧
    nodes.length + (unseen names s).card ≤ fuel) ?_ ?_).mono ?_ fun _ _ => id)
  · rintro fuel node nodes s w₁ ⟨⟨asked, hs, hw₁⟩, hfuel⟩
    refine (ensures_visitParents hfind hs hw₁).mono ?_ fun _ _ => id
    rintro s' w₂ ⟨hs', hfuel'⟩
    refine ⟨hs', ?_⟩
    simp only [List.length_append, List.length_reverse, List.length_cons] at hfuel ⊢
    omega
  · refine ⟨⟨[], asked_start kin c, hw⟩, ?_⟩
    have hcard := card_unseen_le names (start c)
    show 1 + (unseen names (start c)).card ≤ fuel
    omega
  · intro s w' hend
    have hdone : ∃ asked, Asked kin c [] s asked ∧ J asked w' := by
      rcases hend with ⟨nodes, ⟨asked, hs, hw'⟩, hfuel⟩ | ⟨_, h, -⟩
      · obtain rfl : nodes = [] := List.length_eq_zero_iff.mp (by omega)
        exact ⟨asked, hs, hw'⟩
      · exact h
    obtain ⟨asked, hs, hw'⟩ := hdone
    refine ensures_pure.mpr ⟨fun signature => hs.inherits_iff, asked, hs.nodup, fun name => ?_, hw'⟩
    rw [hs.mem_iff, hs.reaches_iff]

end

variable {σ : Type} {src : Sources σ} {I : σ → Prop}
  {A : Bytes → Except Error (Option ClassFile) → Prop}
  {P : Bytes → Option ClassFile → Prop} {kin : Bytes → Option Kin} {names : Finset Bytes}

/-- What is inherited is what the classes declare that can be reached. Collecting it fails only if a
name that can be reached cannot be loaded. -/
theorem ensures_inheritedSignatures (h : src.Loads I A)
    (hA : ∀ name found, A name (.ok found) → P name found)
    (hkin : ∀ name found, P name found → found.map ClassFile.kin = kin name)
    (hnames : ∀ name d, P name (some d) → name ∈ names) (hbound : names.card < src.bound)
    {b : Bench σ} (hb : b.Sound I P) (c : ClassFile) :
    (inheritedSignatures src c).Ensures b
      (fun inherited b' => Bench.After I P b b' ∧
        (∀ signature, signature ∈ inherited ↔ Inherits kin c signature) ∧
        ∀ name, Reaches kin c name → ∃ slot, b'.cache.slots[name]? = some slot)
      (fun e _ => ∃ name, Reaches kin c name ∧ A name (.error e)) := by
  refine (Survey.ensures_signaturesAbove kin (J := fun asked b' => Bench.After I P b b' ∧
    ∀ name ∈ asked, ∃ slot, b'.cache.slots[name]? = some slot) ?_ (Nat.lt_succ_of_lt hbound)
    ⟨hb.after, by simp⟩).mono ?_ fun _ _ => id
  · rintro asked name b₁ ⟨hb₁, hknown⟩ - hreaches
    refine (h.ensures_find hA hb₁.toSound name).mono ?_ fun e _ herror => ⟨name, hreaches, herror.2⟩
    rintro found b₂ ⟨hb₂, hslot⟩
    have hfound := hb₂.cache name found hslot
    refine ⟨hkin name found hfound, ?_, hb₁.trans hb₂, fun name' hname' => ?_⟩
    · intro hsome
      obtain ⟨d, rfl⟩ := Option.isSome_iff_exists.mp hsome
      exact hnames name d hfound
    · rcases List.mem_append.mp hname' with hname' | hname'
      · obtain ⟨slot, hslot'⟩ := hknown name' hname'
        exact ⟨slot, hb₂.within name' slot hslot'⟩
      · rw [List.mem_singleton.mp hname']
        exact ⟨found, hslot⟩
  · rintro inherited b' ⟨hinherited, asked, -, hasked, hb', hknown⟩
    exact ⟨hb', hinherited, fun name hname => hknown name ((hasked name).mpr hname)⟩

end Repair

end JarRepair

import Mathlib.Data.Finset.Card
import Mathlib.Data.Multiset.Basic
import JarRepair.Proofs.Repair.Answers

/-! # What lookups count

The counts of a cache tell how often it was asked for which names, and not in what order. Edits of
the classes that it holds are not counted. -/

namespace JarRepair.Repair

open JarRepair.Task
open Archive (Path)

variable {σ : Type} {src : Sources σ} {look : Path → Option (Option Bytes)} {name : Bytes}
  {asked : Multiset Bytes} {cache : Cache}

/-- The counts of a cache that has been asked for these names: only the first lookup of a name is no
hit. -/
def Cache.Stats.of (look : Path → Option (Option Bytes)) (asked : Multiset Bytes) :
    Cache.Stats where
  total := asked.toFinset.card
  hits := asked.card - asked.toFinset.card
  misses := asked.toFinset.card
  decoded := (asked.toFinset.filter fun name => (answer look name).join.isSome).card
  unresolved := (asked.toFinset.filter fun name => (answer look name).join.isNone).card

theorem Cache.Stats.of_again (h : name ∈ asked) :
    of look (name ::ₘ asked) = { of look asked with hits := (of look asked).hits + 1 } := by
  have hsame : (name ::ₘ asked).toFinset = asked.toFinset := by
    rw [Multiset.toFinset_cons, Finset.insert_eq_of_mem (Multiset.mem_toFinset.mpr h)]
  have hle := asked.toFinset_card_le
  have hhits : asked.card + 1 - asked.toFinset.card = asked.card - asked.toFinset.card + 1 := by
    omega
  simp only [of, hsame, Multiset.card_cons, hhits]

theorem Cache.Stats.of_first (h : name ∉ asked) {found : Option ClassFile}
    (hanswer : answer look name = some found) :
    of look (name ::ₘ asked) =
      { total := (of look asked).total + 1
        hits := (of look asked).hits
        misses := (of look asked).misses + 1
        decoded := (of look asked).decoded + found.isSome.toNat
        unresolved := (of look asked).unresolved + found.isNone.toNat } := by
  have hnew : name ∉ asked.toFinset := fun hmem => h (Multiset.mem_toFinset.mp hmem)
  have hcount (p : Bytes → Bool) : ((insert name asked.toFinset).filter (p ·)).card =
      (asked.toFinset.filter (p ·)).card + (p name).toNat := by
    rw [Finset.filter_insert]
    cases hp : p name with
    | false => rfl
    | true => exact Finset.card_insert_of_notMem fun hmem => hnew (Finset.mem_filter.mp hmem).1
  have hcard := Finset.card_insert_of_notMem hnew
  simp only [of, Multiset.toFinset_cons, hcard, hcount, hanswer, Option.join_some,
    Multiset.card_cons, Nat.add_sub_add_right]

/-- The slots and counts of a cache are those for these lookups. -/
structure Cache.Tallied (look : Path → Option (Option Bytes)) (asked : Multiset Bytes)
    (cache : Cache) :
    Prop where
  known : ∀ name : Bytes, name ∈ cache.slots ↔ name ∈ asked
  stats : cache.stats = .of look asked

namespace Cache.Tallied

theorem empty (look : Path → Option (Option Bytes)) : Tallied look 0 {} where
  known name := by simp
  stats := rfl

theorem hit (h : cache.Tallied look asked) (hname : name ∈ cache.slots) :
    cache.hit.Tallied look (name ::ₘ asked) where
  known name' := by
    rw [Multiset.mem_cons, ← h.known]
    exact ⟨.inr, fun hname' => hname'.elim (fun heq => heq ▸ hname) id⟩
  stats := by
    rw [Stats.of_again ((h.known name).mp hname), ← h.stats]
    rfl

theorem learn (h : cache.Tallied look asked) (hname : name ∉ cache.slots) {found : Option ClassFile}
    (hanswer : answer look name = some found) :
    (cache.learn name found).Tallied look (name ::ₘ asked) where
  known name' := by
    rw [Multiset.mem_cons, ← h.known, Cache.learn, Std.TreeMap.mem_insert,
      Std.LawfulEqCmp.compare_eq_iff_eq, eq_comm]
  stats := by
    have hsize : (cache.slots.insert name found).size = cache.slots.size + 1 := by
      rw [Std.TreeMap.size_insert, if_neg (mt Std.TreeMap.mem_iff_contains.mpr hname)]
    rw [Stats.of_first (fun hmem => hname ((h.known name).mpr hmem)) hanswer, ← h.stats]
    simp only [Cache.learn, Cache.stats, hsize]

theorem edit (h : cache.Tallied look asked) (hname : name ∈ cache.slots) (slot : Option ClassFile) :
    { cache with slots := cache.slots.insert name slot }.Tallied look asked where
  known name' := by
    rw [Std.TreeMap.mem_insert, Std.LawfulEqCmp.compare_eq_iff_eq, ← h.known]
    exact ⟨fun hname' => hname'.elim (fun heq => heq ▸ hname) id, .inr⟩
  stats := by
    have hsize : (cache.slots.insert name slot).size = cache.slots.size := by
      rw [Std.TreeMap.size_insert, if_pos (Std.TreeMap.mem_iff_contains.mp hname)]
    rw [← h.stats]
    simp only [Cache.stats, hsize]

end Cache.Tallied

/-- A lookup is counted, and fails only if its name cannot be told. -/
theorem Sources.Shows.ensures_find_tallied (h : src.Shows look)
    {P : Bytes → Option ClassFile → Prop} (hP : ∀ name found, answer look name = some found →
      P name found) {b : Bench σ} {w : σ}
    (hb : b.Sound (· = w) P) (hasked : b.cache.Tallied look asked) :
    (src.find name).Ensures b
      (fun found b' => Bench.After (· = w) P b b' ∧ b'.cache.slots[name]? = some found ∧
        b'.cache.Tallied look (name ::ₘ asked))
      (fun _ _ => answer look name = none) := by
  have hslots :=
    ((h.loads w).ensures_find (P := P) (fun name found hfound => hP name found hfound.symm)
    hb name)
  have hcounts : (src.find name).Ensures b (fun _ b' => b'.cache.Tallied look (name ::ₘ asked))
      (fun _ _ => answer look name = none) := by
    refine h.ensures_find ?_ ?_ fun _ _ _ => id
    · intro slot hslot
      refine hasked.hit ?_
      rw [Std.TreeMap.mem_iff_isSome_getElem?, hslot, Option.isSome_some]
    · intro found hnone hanswer
      refine hasked.learn ?_ hanswer
      rw [Std.TreeMap.mem_iff_isSome_getElem?, hnone]
      simp
  exact (hslots.and hcounts).mono (fun _ _ h => ⟨h.1.1, h.1.2, h.2⟩) fun _ _ h => h.2

end JarRepair.Repair

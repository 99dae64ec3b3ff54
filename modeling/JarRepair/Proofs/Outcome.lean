import Mathlib.Data.List.Forall2
import JarRepair.Error

/-! # Computations that may fail

What it takes for a composed computation to succeed. -/

namespace JarRepair.Outcome

variable {ε ε' α β : Type}

@[simp] theorem bind_eq_ok_iff {x : Except ε α} {f : α → Except ε β} {y : β} :
    (x >>= f) = .ok y ↔ ∃ a, x = .ok a ∧ f a = .ok y := by
  cases x with
  | error e => simp [bind, Except.bind]
  | ok a => simp [bind, Except.bind]

@[simp] theorem pure_eq_ok_iff {a b : α} : (pure a : Except ε α) = .ok b ↔ b = a := by
  simp [pure, Except.pure, eq_comm]

@[simp] theorem throw_ne_ok {e : ε} {b : α} : (throw e : Except ε α) ≠ .ok b := nofun

theorem ite_error_eq_ok_iff {c : Prop} [Decidable c] {e : ε} {a b : α} :
    (if c then .error e else .ok a : Except ε α) = .ok b ↔ ¬c ∧ b = a := by
  split
  · rename_i h
    exact iff_of_false nofun fun hb => hb.1 h
  · rename_i h
    rw [and_iff_right h, Except.ok.injEq, eq_comm]

@[simp] theorem map_eq_ok_iff {x : Except ε α} {f : α → β} {y : β} :
    f <$> x = .ok y ↔ ∃ a, x = .ok a ∧ f a = y := by
  cases x with
  | error e => simp [Functor.map, Except.map]
  | ok a => simp [Functor.map, Except.map]

@[simp] theorem mapError_eq_ok_iff {x : Except ε α} {f : ε → ε'} {y : α} :
    x.mapError f = .ok y ↔ x = .ok y := by
  cases x <;> simp [Except.mapError]

theorem mapError_eq_error_iff {x : Except ε α} {f : ε → ε'} {e' : ε'} :
    x.mapError f = .error e' ↔ ∃ e, x = .error e ∧ f e = e' := by
  cases x <;> simp [Except.mapError]

theorem mapM_eq_ok_iff {f : α → Except ε β} {xs : List α} {ys : List β} :
    xs.mapM f = .ok ys ↔ List.Forall₂ (fun x y => f x = .ok y) xs ys := by
  induction xs generalizing ys with
  | nil => simp
  | cons x xs ih =>
    simp only [List.mapM_cons, bind_eq_ok_iff, pure_eq_ok_iff, ih, List.forall₂_cons_left_iff]
    constructor
    · rintro ⟨y, hy, ys, hys, rfl⟩
      exact ⟨y, ys, hy, hys, rfl⟩
    · rintro ⟨y, ys, hy, hys, rfl⟩
      exact ⟨y, hy, ys, hys, rfl⟩

theorem exists_mapM_eq_ok_iff {f : α → Except ε β} {xs : List α} :
    (∃ ys, xs.mapM f = .ok ys) ↔ ∀ x ∈ xs, ∃ y, f x = .ok y := by
  simp only [mapM_eq_ok_iff]
  induction xs with
  | nil => simp
  | cons x xs ih =>
    simp only [List.forall₂_cons_left_iff, List.forall_mem_cons, ← ih]
    constructor
    · rintro ⟨_, y, ys, hy, hys, -⟩
      exact ⟨⟨y, hy⟩, ys, hys⟩
    · rintro ⟨⟨y, hy⟩, ys, hys⟩
      exact ⟨y :: ys, y, ys, hy, hys, rfl⟩

theorem forall_of_forall₂ {R : α → β → Prop} {P : α → Prop} {Q : β → Prop} {xs : List α}
    {ys : List β} (h : List.Forall₂ R xs ys) (hP : ∀ x ∈ xs, P x) (hQ : ∀ x y, R x y → P x → Q y) :
    ∀ y ∈ ys, Q y := by
  induction h with
  | nil => simp
  | cons hxy _ ih =>
    rw [List.forall_mem_cons] at hP ⊢
    exact ⟨hQ _ _ hxy hP.1, ih hP.2⟩

theorem mem_of_mapM_eq_ok {f : α → Except ε β} {xs : List α} {ys : List β} (h : xs.mapM f = .ok ys)
    {x : α} (hx : x ∈ xs) {y : β} (hy : f x = .ok y) : y ∈ ys := by
  induction xs generalizing ys with
  | nil => simp at hx
  | cons x' xs ih =>
    obtain ⟨y', ys, hy', hys, rfl⟩ := List.forall₂_cons_left_iff.mp (mapM_eq_ok_iff.mp h)
    rcases List.mem_cons.mp hx with rfl | hx
    · obtain rfl := Except.ok.inj (hy'.symm.trans hy)
      exact List.mem_cons_self
    · exact List.mem_cons_of_mem y' (ih (mapM_eq_ok_iff.mpr hys) hx)

theorem mapM_congr {f g : α → Except ε β} {xs : List α} (h : ∀ x ∈ xs, f x = g x) :
    xs.mapM f = xs.mapM g := by
  have hmap : (xs.map f).mapM id = (xs.map g).mapM id := by rw [List.map_congr_left h]
  simpa only [List.mapM_map, Function.id_comp] using hmap

theorem exists_eq_error_iff {x : Except ε α} : (∃ e, x = .error e) ↔ ¬ ∃ a, x = .ok a := by
  cases x <;> simp

/-! ## Computations that may have no result

These look at what may be missing, and have no result where it is. -/

/-- An access that has a result is gone on with. -/
theorem run_access {o : Option α} {a : α} (h : o = some a) (f : α → ExceptT ε Option β) :
    (liftM o >>= f : ExceptT ε Option β).run = (f a).run := by
  subst h
  rfl

/-- A computation goes on with what the first part of it has found, or fails as that does. -/
theorem run_bind {g : ExceptT ε Option α} {x : Except ε α} {f : α → ExceptT ε Option β}
    {f' : α → Except ε β} (hg : g.run = some x) (hf : ∀ a, x = .ok a → (f a).run = some (f' a)) :
    (g >>= f).run = some (x >>= f') := by
  rw [ExceptT.run_bind, hg]
  cases x with
  | error e => rfl
  | ok a => exact hf a rfl

end JarRepair.Outcome

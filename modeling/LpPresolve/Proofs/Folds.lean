import Mathlib.Algebra.GroupWithZero.Nat
import Mathlib.Algebra.Order.Group.Nat
import Mathlib.Algebra.Order.Monoid.Canonical.Basic

/-! Folds that may fail. Loops over a nested structure are loops over a flat list, and a loop that
keeps an invariant under which no step fails is a plain fold. -/

namespace LpPresolve

variable {β γ δ : Type}

theorem foldlM_congr_mem {m : Type → Type} [Monad m] {xs : List γ} {f g : β → γ → m β}
    (h : ∀ x ∈ xs, ∀ b, f b x = g b x) (b : β) : xs.foldlM f b = xs.foldlM g b := by
  induction xs generalizing b with
  | nil => rfl
  | cons x r ih =>
    rw [List.foldlM_cons, List.foldlM_cons, h x List.mem_cons_self]
    exact bind_congr fun b' => ih (fun y hy => h y (List.mem_cons_of_mem x hy)) b'

theorem foldlM_flatMap {m : Type → Type} [Monad m] [LawfulMonad m] (xs : List γ)
    (f : γ → List δ) (g : β → δ → m β) (b : β) :
    (xs.flatMap f).foldlM g b = xs.foldlM (fun b x => (f x).foldlM g b) b := by
  induction xs generalizing b with
  | nil => rfl
  | cons x r ih =>
    rw [List.flatMap_cons, List.foldlM_append, List.foldlM_cons]
    exact bind_congr ih

/-- Two loops whose steps agree under a view of the state agree under it. -/
theorem map_foldlM {xs : List γ} {f : β → γ → Option β} {f' : δ → γ → Option δ} {g : β → δ}
    (h : ∀ b x, (f b x).map g = f' (g b) x) (b : β) :
    (xs.foldlM f b).map g = xs.foldlM f' (g b) := by
  induction xs generalizing b with
  | nil => rfl
  | cons x r ih =>
    rw [List.foldlM_cons, List.foldlM_cons, ← h b x]
    cases f b x with
    | none => rfl
    | some c => exact ih c

/-- What a run keeps, from what a step keeps. -/
theorem foldlM_eq_some_foldl {xs : List γ} {f : β → γ → Option β} {g : β → γ → β} (I : β → Prop)
    (h : ∀ x ∈ xs, ∀ b, I b → f b x = some (g b x) ∧ I (g b x)) {b : β} (hb : I b) :
    xs.foldlM f b = some (xs.foldl g b) ∧ I (xs.foldl g b) := by
  induction xs generalizing b with
  | nil => exact ⟨rfl, hb⟩
  | cons x r ih =>
    obtain ⟨hx, hI⟩ := h x List.mem_cons_self b hb
    rw [List.foldlM_cons, hx, List.foldl_cons]
    exact ih (fun y hy => h y (List.mem_cons_of_mem x hy)) hI

/-- The invariant of a loop may mention the part of the list that is done. -/
theorem exists_foldlM_eq_some (xs : List γ) {f : β → γ → Option β} (I : List γ → β → Prop)
    (h : ∀ done x rest, xs = done ++ x :: rest → ∀ b, I done b →
      ∃ b', f b x = some b' ∧ I (done ++ [x]) b') {b : β} (hb : I [] b) :
    ∃ b', xs.foldlM f b = some b' ∧ I xs b' := by
  suffices hs : ∀ rest done, xs = done ++ rest → ∀ b, I done b →
      ∃ b', rest.foldlM f b = some b' ∧ I xs b' from hs xs [] rfl b hb
  intro rest
  induction rest with
  | nil =>
    intro done hd b hI
    rw [List.append_nil] at hd
    exact ⟨b, rfl, hd ▸ hI⟩
  | cons x r ih =>
    intro done hd b hI
    obtain ⟨b', hb', hI'⟩ := h done x r hd b hI
    obtain ⟨c, hc, hIc⟩ := ih (done ++ [x]) (by simp [hd]) b' hI'
    exact ⟨c, by simp [hb', hc], hIc⟩

/-- What no step of a run that succeeds breaks. -/
theorem foldlM_invariant {xs : List γ} {f : β → γ → Option β} (I : β → Prop)
    (h : ∀ x ∈ xs, ∀ b b', I b → f b x = some b' → I b') {b b' : β} (hb : I b)
    (hrun : xs.foldlM f b = some b') : I b' := by
  induction xs generalizing b with
  | nil => exact Option.some_inj.1 hrun ▸ hb
  | cons x r ih =>
    rw [List.foldlM_cons, Option.bind_eq_bind, Option.bind_eq_some_iff] at hrun
    obtain ⟨c, hc, hrun⟩ := hrun
    exact ih (fun y hy => h y (List.mem_cons_of_mem x hy)) (h x List.mem_cons_self b c hb hc) hrun

theorem mapM_eq_some_map {xs : List β} {f : β → Option γ} {g : β → γ}
    (h : ∀ x ∈ xs, f x = some (g x)) : xs.mapM f = some (xs.map g) := by
  induction xs with
  | nil => rfl
  | cons x r ih =>
    rw [List.mapM_cons, h x List.mem_cons_self, ih fun y hy => h y (List.mem_cons_of_mem x hy)]
    rfl

theorem length_eq_of_mapM_eq_some {xs : List β} {ys : List γ} {f : β → Option γ}
    (h : xs.mapM f = some ys) : ys.length = xs.length := by
  induction xs generalizing ys with
  | nil => simp_all
  | cons x r ih =>
    simp only [List.mapM_cons, Option.bind_eq_bind, Option.bind_eq_some_iff, Option.pure_def,
      Option.some_inj] at h
    obtain ⟨y, _, s, hs, rfl⟩ := h
    simp [ih hs]

/-! ### Checks -/

theorem Except.bind_eq_ok_iff {ε : Type} {x : Except ε β} {f : β → Except ε γ} {c : γ} :
    x >>= f = .ok c ↔ ∃ b, x = .ok b ∧ f b = .ok c := by
  cases x with
  | error e => simp [bind, Except.bind]
  | ok b => simp [bind, Except.bind]

theorem ite_error_eq_ok_iff {ε : Type} {p : Prop} [Decidable p] {e : ε} {x : Except ε β} {b : β} :
    (if p then .error e else x) = .ok b ↔ ¬ p ∧ x = .ok b := by
  by_cases h : p <;> simp [h]

theorem ite_else_error_eq_ok_iff {ε : Type} {p : Prop} [Decidable p] {e : ε} {x : Except ε β}
    {b : β} : (if p then x else .error e) = .ok b ↔ p ∧ x = .ok b := by
  by_cases h : p <;> simp [h]

theorem error_bind {ε : Type} (e : ε) (f : β → Except ε γ) : (.error e >>= f) = .error e := rfl

theorem mapError_eq_ok_iff {ε ε' : Type} {f : ε → ε'} {x : Except ε β} {b : β} :
    x.mapError f = .ok b ↔ x = .ok b := by
  constructor
  · intro h
    cases x with
    | error e => cases h
    | ok a =>
      cases h
      rfl
  · rintro rfl
    rfl

/-- A translation that may fail translates every element. -/
theorem mapM_eq_ok_iff {ε : Type} {xs : List β} {ys : List γ} {f : β → Except ε γ} :
    xs.mapM f = .ok ys ↔ xs.map f = ys.map .ok := by
  induction xs generalizing ys with
  | nil => cases ys <;> simp [pure, Except.pure]
  | cons x r ih =>
    rw [List.mapM_cons, Except.bind_eq_ok_iff]
    simp only [Except.bind_eq_ok_iff, ih]
    cases ys with
    | nil => simp [pure, Except.pure]
    | cons y s =>
      simp only [pure, Except.pure, Except.ok.injEq, List.cons.injEq, List.map_cons]
      constructor
      · rintro ⟨_, hy, _, hs, rfl, rfl⟩
        exact ⟨hy, hs⟩
      · rintro ⟨hy, hs⟩
        exact ⟨y, hy, s, hs, rfl, rfl⟩

theorem array_mapM_eq_ok_iff {ε : Type} {xs : Array β} {ys : Array γ} {f : β → Except ε γ} :
    xs.mapM f = .ok ys ↔ xs.toList.map f = ys.toList.map .ok := by
  rw [Array.mapM_eq_mapM_toList, ← mapM_eq_ok_iff]
  cases hm : xs.toList.mapM f with
  | error e => simp [Functor.map, Except.map]
  | ok l =>
    simp only [Functor.map, Except.map, Except.ok.injEq]
    exact Array.toList_inj.symm

/-- A loop of checks passes if all of them do. -/
theorem forM_eq_ok_iff {ε : Type} {xs : List β} {f : β → Except ε Unit} :
    forM xs f = .ok () ↔ ∀ x ∈ xs, f x = .ok () := by
  induction xs with
  | nil => simp [pure, Except.pure]
  | cons x r ih =>
    rw [List.forM_cons, List.forall_mem_cons, ← ih]
    cases f x <;> simp [bind, Except.bind]

/-! ### Counts -/

theorem sum_map_ite_one (p : γ → Prop) [DecidablePred p] (xs : List γ) :
    (xs.map fun x => if p x then 1 else 0).sum = xs.countP p := by
  induction xs with
  | nil => rfl
  | cons x r ih => by_cases h : p x <;> simp [h, ih, Nat.add_comm]

end LpPresolve

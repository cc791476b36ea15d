import LpPresolve.Proofs.Folds
import Mathlib.Tactic.SplitIfs
import Mathlib.Tactic.Tauto

/-! Checks in order. A check stands for a list of demands: it fails if one of them is not met, and the
first such demand says with which fault. Checks made one after another stand for the demands of each of
them in turn, so which fault is reported follows the order of the program. -/

namespace LpPresolve

variable {ε ε' β γ : Type}

/-- Something demanded of an input, and the fault of an input that does not meet it. -/
structure Demand (ε : Type) where
  met : Prop
  fault : ε

/-- The fault of the first demand that is not met. -/
inductive FirstFault : List (Demand ε) → ε → Prop
  | here {d : Demand ε} {ds : List (Demand ε)} : ¬ d.met → FirstFault (d :: ds) d.fault
  | later {d : Demand ε} {ds : List (Demand ε)} {e : ε} :
      d.met → FirstFault ds e → FirstFault (d :: ds) e

namespace FirstFault

variable {d : Demand ε} {ds es : List (Demand ε)} {e e' : ε}

theorem not_nil : ¬ FirstFault [] e := nofun

theorem cons_iff : FirstFault (d :: ds) e ↔ ¬ d.met ∧ d.fault = e ∨ d.met ∧ FirstFault ds e := by
  constructor
  · rintro (h | ⟨h, hds⟩)
    · exact .inl ⟨h, rfl⟩
    · exact .inr ⟨h, hds⟩
  · rintro (⟨h, rfl⟩ | ⟨h, hds⟩)
    · exact .here h
    · exact .later h hds

theorem append_iff : FirstFault (ds ++ es) e ↔
    FirstFault ds e ∨ (∀ d ∈ ds, d.met) ∧ FirstFault es e := by
  induction ds with
  | nil => simp [not_nil]
  | cons d ds ih =>
    rw [List.cons_append, cons_iff, cons_iff, ih, List.forall_mem_cons]
    tauto

theorem map_iff {f : Demand ε → Demand ε'} {g : ε → ε'} (hmet : ∀ d, (f d).met ↔ d.met)
    (hfault : ∀ d, (f d).fault = g d.fault) {e : ε'} :
    FirstFault (ds.map f) e ↔ ∃ e', FirstFault ds e' ∧ g e' = e := by
  induction ds with
  | nil => simp [not_nil]
  | cons d ds ih =>
    simp only [List.map_cons, cons_iff, ih, hmet, hfault]
    constructor
    · rintro (⟨h, rfl⟩ | ⟨h, e', he', rfl⟩)
      · exact ⟨_, .inl ⟨h, rfl⟩, rfl⟩
      · exact ⟨e', .inr ⟨h, he'⟩, rfl⟩
    · rintro ⟨e', ⟨h, rfl⟩ | ⟨h, he'⟩, rfl⟩
      · exact .inl ⟨h, rfl⟩
      · exact .inr ⟨h, e', he', rfl⟩

/-- There is a fault unless all demands are met. -/
theorem exists_iff : (∃ e, FirstFault ds e) ↔ ¬ ∀ d ∈ ds, d.met := by
  induction ds with
  | nil => simp [not_nil]
  | cons d ds ih =>
    simp only [cons_iff, List.forall_mem_cons, exists_or, exists_and_left, ih, exists_eq', and_true]
    tauto

end FirstFault

/-- A result that is an error just if some demand is not met, and then the fault of the first such
demand. -/
def Checks (ds : List (Demand ε)) (x : Except ε β) : Prop :=
  ∀ e, x = .error e ↔ FirstFault ds e

namespace Checks

variable {d : Demand ε} {ds es : List (Demand ε)} {x : Except ε β}

theorem exists_ok_iff (h : Checks ds x) : (∃ b, x = .ok b) ↔ ∀ d ∈ ds, d.met := by
  rw [← not_iff_not, ← FirstFault.exists_iff]
  simp only [← h _]
  cases x <;> simp

theorem ok (b : β) : Checks [] (.ok b : Except ε β) := fun _ =>
  ⟨nofun, fun h => absurd h FirstFault.not_nil⟩

theorem here (h : ¬ d.met) : Checks (d :: ds) (.error d.fault : Except ε β) := by
  intro e
  simp [FirstFault.cons_iff, h]

theorem later (h : d.met) (hx : Checks ds x) : Checks (d :: ds) x := by
  intro e
  simp [FirstFault.cons_iff, h, hx e]

/-- One test in front. What it excludes may be used for the tests after it. -/
theorem cons {p : Prop} [Decidable p] (hp : p ↔ ¬ d.met) (h : d.met → Checks ds x) :
    Checks (d :: ds) (if p then .error d.fault else x) := by
  split_ifs with hfail
  · exact here (hp.1 hfail)
  · have hmet : d.met := not_not.1 (mt hp.2 hfail)
    exact later hmet (h hmet)

theorem guard {p : Prop} [Decidable p] (hp : p ↔ d.met) (h : d.met → Checks ds x) :
    Checks (d :: ds) (if p then x else .error d.fault) := by
  rw [← ite_not]
  exact cons (not_congr hp) h

/-- The demands determine the result of a check that has nothing else to say. -/
theorem unique {x y : Except ε Unit} (hx : Checks ds x) (hy : Checks ds y) : x = y := by
  cases y with
  | error e => exact (hx e).2 ((hy e).1 rfl)
  | ok =>
    cases x with
    | error e => exact absurd ((hy e).2 ((hx e).1 rfl)) nofun
    | ok => rfl

/-- The second check is made only if the first one passes. -/
theorem bind {f : β → Except ε γ} (h : Checks ds x) (hf : ∀ b, x = .ok b → Checks es (f b)) :
    Checks (ds ++ es) (x >>= f) := by
  intro e
  rw [FirstFault.append_iff, ← h.exists_ok_iff, ← h e]
  cases x with
  | error e' =>
    rw [error_bind]
    simp
  | ok b => simpa [Bind.bind, Except.bind] using hf b rfl e

theorem mapError (h : Checks ds x) {f : Demand ε → Demand ε'} {g : ε → ε'}
    (hmet : ∀ d, (f d).met ↔ d.met) (hfault : ∀ d, (f d).fault = g d.fault) :
    Checks (ds.map f) (x.mapError g) := by
  intro e
  rw [FirstFault.map_iff hmet hfault]
  simp only [← h _]
  cases x <;> simp [Except.mapError]

theorem map (h : Checks ds x) (f : β → γ) : Checks ds (f <$> x) := by
  intro e
  rw [← h e]
  cases x <;> simp [Functor.map, Except.map]

/-- A loop makes the checks of its steps in turn. -/
theorem forM {as : List γ} {ds : γ → List (Demand ε)} {f : γ → Except ε Unit}
    (h : ∀ a ∈ as, Checks (ds a) (f a)) : Checks (as.flatMap ds) (forM as f) := by
  induction as with
  | nil => exact .ok ()
  | cons a r ih =>
    rw [List.forM_cons, List.flatMap_cons]
    exact (h a List.mem_cons_self).bind fun _ _ => ih fun b hb => h b (List.mem_cons_of_mem a hb)

theorem mapM {as : List γ} {ds : γ → List (Demand ε)} {f : γ → Except ε β}
    (h : ∀ a ∈ as, Checks (ds a) (f a)) : Checks (as.flatMap ds) (as.mapM f) := by
  induction as with
  | nil => exact .ok []
  | cons a r ih =>
    rw [List.mapM_cons, List.flatMap_cons, ← List.append_nil (r.flatMap ds)]
    refine (h a List.mem_cons_self).bind fun _ _ => ?_
    exact (ih fun b hb => h b (List.mem_cons_of_mem a hb)).bind fun _ _ => .ok _

end Checks

/-- A check that may have no result has one, and it is as demanded. -/
def Answers (ds : List (Demand ε)) (x : Option (Except ε β)) : Prop :=
  ∃ r, x = some r ∧ Checks ds r

theorem Answers.cons {d : Demand ε} {ds : List (Demand ε)} {x : Option (Except ε β)} {p : Prop}
    [Decidable p] (hp : p ↔ ¬ d.met) (h : d.met → Answers ds x) :
    Answers (d :: ds) (if p then some (.error d.fault) else x) := by
  split_ifs with hfail
  · exact ⟨_, rfl, .here (hp.1 hfail)⟩
  · have hmet : d.met := not_not.1 (mt hp.2 hfail)
    obtain ⟨r, hr, hchecks⟩ := h hmet
    exact ⟨r, hr, .later hmet hchecks⟩

end LpPresolve

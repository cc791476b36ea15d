import LpPresolve.Proofs.Sparse.Product
import LpPresolve.Scalar.Extended
import Mathlib.Data.List.Perm.Basic

/-! Sums along the lines of a matrix. Every value of a line adds something to the sum that depends on
nothing before it, whatever the factor of the product is. So the order of a line counts for nothing
as soon as addition is commutative and associative, and a sum that starts at zero can be added
afterwards as soon as zero adds nothing. -/

namespace LpPresolve

/-- A scalar type with sums that depend neither on their order nor on their grouping, where
subtracting is adding the negative. -/
class LawfulAdd (α : Type) [Scalar α] : Prop where
  add_comm (a b : α) : a + b = b + a
  add_assoc (a b c : α) : a + b + c = a + (b + c)
  sub_eq_add_neg (a b : α) : a - b = a + -b

/-- In addition zero adds nothing, and equals itself. -/
class ExactAdd (α : Type) [Scalar α] : Prop extends LawfulAdd α where
  add_zero (a : α) : a + 0 = a
  zero_beq_zero : ((0 : α) == 0) = true

namespace Csc

variable {α : Type} [Scalar α]

/-! ### Parts of a line -/

theorem addLine_append (a : α) (x : Vec α) (s : α) (es fs : List (Nat × α)) :
    addLine a x s (es ++ fs) = addLine a x (addLine a x s es) fs := by
  unfold addLine
  split_ifs
  · rfl
  · exact List.foldl_append

/-- Only the entries at the indices of the line are read. -/
theorem addLine_map (f : Nat → Nat) {x x' : Vec α} {es : List (Nat × α)}
    (h : ∀ e ∈ es, x.entry (f e.1) = x'.entry e.1) (a s : α) :
    addLine a x s (es.map fun e => (f e.1, e.2)) = addLine a x' s es := by
  unfold addLine
  split_ifs
  · rfl
  · rw [List.foldl_map]
    exact List.foldl_ext _ _ s fun s e he => by rw [h e he]

theorem addLine_congr {x x' : Vec α} {es : List (Nat × α)}
    (h : ∀ e ∈ es, x.entry e.1 = x'.entry e.1) (a s : α) : addLine a x s es = addLine a x' s es := by
  simpa using addLine_map id h a s

/-! ### Laws of addition -/

theorem accumulate_eq_add [LawfulAdd α] (a v x : α) : ∃ p, ∀ s, accumulate a s v x = s + p := by
  unfold accumulate
  split_ifs
  · exact ⟨v * x, fun _ => rfl⟩
  · exact ⟨-(v * x), fun s => LawfulAdd.sub_eq_add_neg s _⟩
  · exact ⟨a * v * x, fun _ => rfl⟩

theorem addLine_perm [LawfulAdd α] (a : α) (x : Vec α) (s : α) {es fs : List (Nat × α)}
    (h : es.Perm fs) : addLine a x s es = addLine a x s fs := by
  unfold addLine
  split_ifs
  · rfl
  · refine h.foldl_eq' (fun e _ f _ s => ?_) s
    obtain ⟨p, hp⟩ := accumulate_eq_add a e.2 (x.entry e.1)
    obtain ⟨q, hq⟩ := accumulate_eq_add a f.2 (x.entry f.1)
    simp only [hp, hq]
    rw [LawfulAdd.add_assoc, LawfulAdd.add_comm p, ← LawfulAdd.add_assoc]

theorem addLine_eq_add [ExactAdd α] (a : α) (x : Vec α) (es : List (Nat × α)) (s : α) :
    addLine a x s es = s + addLine a x 0 es := by
  have hsum : ∃ p, ∀ s, addLine a x s es = s + p := by
    unfold addLine
    split_ifs
    · exact ⟨0, fun s => (ExactAdd.add_zero s).symm⟩
    · induction es with
      | nil => exact ⟨0, fun s => (ExactAdd.add_zero s).symm⟩
      | cons e r ih =>
        obtain ⟨p, hp⟩ := accumulate_eq_add a e.2 (x.entry e.1)
        obtain ⟨q, hq⟩ := ih
        exact ⟨p + q, fun s => by rw [List.foldl_cons, hq, hp, LawfulAdd.add_assoc]⟩
  obtain ⟨p, hp⟩ := hsum
  rw [hp, hp, LawfulAdd.add_comm 0, ExactAdd.add_zero]

end Csc

/-! ### Exact arithmetic -/

namespace Extended

protected theorem add_assoc : ∀ a b c : Extended, a + b + c = a + (b + c)
  | finite p, finite q, finite r => congrArg finite (Rat.add_assoc p q r)
  | undefined, b, c => by cases b <;> cases c <;> rfl
  | bottom, b, c => by cases b <;> cases c <;> rfl
  | top, b, c => by cases b <;> cases c <;> rfl
  | finite _, undefined, c => by cases c <;> rfl
  | finite _, bottom, c => by cases c <;> rfl
  | finite _, top, c => by cases c <;> rfl
  | finite _, finite _, undefined => rfl
  | finite _, finite _, bottom => rfl
  | finite _, finite _, top => rfl

protected theorem add_zero : ∀ a : Extended, a + 0 = a
  | undefined | bottom | top => rfl
  | finite p => congrArg finite (Rat.add_zero p)

instance : ExactAdd Extended where
  add_comm := Extended.add_comm
  add_assoc := Extended.add_assoc
  sub_eq_add_neg _ _ := rfl
  add_zero := Extended.add_zero
  zero_beq_zero := rfl

end Extended

end LpPresolve

import LpPresolve.Proofs.Binary.Orders
import LpPresolve.Proofs.Program.Variables
import LpPresolve.Proofs.Sparse.Format

/-! Acceptance. The data of a program is accepted just if all of a list of demands are met, and otherwise
the first that is not met decides about the fault. What is accepted is recorded unchanged, and the counts,
the list of boxed variables and the two norms are those of the data. -/

namespace LpPresolve

open Scalar

namespace Program

variable {α : Type} [Scalar α] {A : Csc α} {rhs obj lb ub : Vec α} {types : Array Char} {offset : α}

/-! ### Demands -/

def boundDemands (l u : α) : List (Demand ModelError) :=
  [⟨isFinite l = true ∨ (l == -infinity) = true, .invalidVector "lb"⟩,
    ⟨isFinite u = true ∨ (u == infinity) = true, .invalidVector "ub"⟩,
    ⟨l ≤ u, .invalidVector "lb"⟩]

def typeDemand (c : Char) : Demand ModelError :=
  ⟨c = '=' ∨ c = '<' ∨ c = '>', .invalidVector "constr_type"⟩

def matrixDemand (d : Demand FormatError) : Demand ModelError := ⟨d.met, .invalidMatrix d.fault⟩

def vectorDemands (A : Csc α) (rhs : Vec α) (types : Array Char) (obj lb ub : Vec α) :
    List (Demand ModelError) :=
  [⟨0 < A.cols, .invalidDimension "num_var"⟩,
    ⟨rhs.size = A.rows, .invalidDimension "rhs"⟩,
    ⟨types.size = A.rows, .invalidDimension "constr_type"⟩,
    ⟨obj.size = A.cols, .invalidDimension "obj"⟩,
    ⟨lb.size = A.cols, .invalidDimension "lb"⟩,
    ⟨ub.size = A.cols, .invalidDimension "ub"⟩,
    ⟨∀ a ∈ rhs, isFinite a = true, .invalidVector "rhs"⟩,
    ⟨∀ a ∈ obj, isFinite a = true, .invalidVector "obj"⟩]

/-- What is demanded of the data of a program, in the order of the checks. -/
def demands (A : Csc α) (rhs : Vec α) (types : Array Char) (obj lb ub : Vec α) :
    List (Demand ModelError) :=
  vectorDemands A rhs types obj lb ub ++
    ((List.range A.cols).flatMap fun j => boundDemands (lb.entry j) (ub.entry j)) ++
    types.toList.map typeDemand ++
    A.demands.map matrixDemand

/-- What is demanded, without an order. -/
structure Acceptable (A : Csc α) (rhs : Vec α) (types : Array Char) (obj lb ub : Vec α) : Prop where
  numVar_pos : 0 < A.cols
  size_rhs : rhs.size = A.rows
  size_types : types.size = A.rows
  size_obj : obj.size = A.cols
  size_lb : lb.size = A.cols
  size_ub : ub.size = A.cols
  finite_rhs : ∀ a ∈ rhs, isFinite a = true
  finite_obj : ∀ a ∈ obj, isFinite a = true
  lower : ∀ j < A.cols, isFinite (lb.entry j) = true ∨ (lb.entry j == -infinity) = true
  upper : ∀ j < A.cols, isFinite (ub.entry j) = true ∨ (ub.entry j == infinity) = true
  ordered : ∀ j < A.cols, lb.entry j ≤ ub.entry j
  types_known : ∀ c ∈ types, c = '=' ∨ c = '<' ∨ c = '>'
  wellFormed : A.WellFormed

theorem forall_demands_iff :
    (∀ d ∈ demands A rhs types obj lb ub, d.met) ↔ Acceptable A rhs types obj lb ub := by
  simp only [demands, vectorDemands, boundDemands, typeDemand, matrixDemand, List.forall_mem_append,
    List.forall_mem_flatMap, List.forall_mem_map, List.forall_mem_cons, List.mem_range,
    A.forall_demands_iff, Array.mem_toList_iff]
  constructor
  · rintro ⟨⟨⟨⟨hn, hrhs, htypes, hobj, hlb, hub, hfr, hfo, -⟩, hbounds⟩, hknown⟩, hformat⟩
    exact ⟨hn, hrhs, htypes, hobj, hlb, hub, hfr, hfo, fun j hj => (hbounds j hj).1,
      fun j hj => (hbounds j hj).2.1, fun j hj => (hbounds j hj).2.2.1, hknown, hformat⟩
  · intro h
    exact ⟨⟨⟨⟨h.numVar_pos, h.size_rhs, h.size_types, h.size_obj, h.size_lb, h.size_ub, h.finite_rhs,
      h.finite_obj, nofun⟩, fun j hj => ⟨h.lower j hj, h.upper j hj, h.ordered j hj, nofun⟩⟩,
      h.types_known⟩, h.wellFormed⟩

/-! ### The checks -/

theorem checks_size (name : String) (size expected : Nat) :
    Checks [⟨size = expected, .invalidDimension name⟩] (checkSize name size expected) := by
  unfold checkSize
  exact .guard Iff.rfl fun _ => .ok ()

theorem checks_bound [LawfulOrder α] (l u : α) : Checks (boundDemands l u) (checkBound l u) := by
  unfold boundDemands checkBound
  refine .cons (by simp) fun hl => .cons (by simp) fun hu => .cons ?_ fun _ => .ok ()
  have hnan : ∀ {a b : α}, isFinite a = true ∨ (a == b) = true → isNaN a = false := by
    rintro a b (h | h)
    · exact LawfulOrder.isNaN_of_isFinite h
    · exact LawfulOrder.isNaN_of_beq h
  rw [← LawfulOrder.not_lt (hnan hu) (hnan hl), not_not]

theorem checks_type (c : Char) : Checks [typeDemand c] (ConstraintType.ofChar c) := by
  unfold ConstraintType.ofChar
  split
  · exact .later (.inl rfl) (.ok _)
  · exact .later (.inr (.inl rfl)) (.ok _)
  · exact .later (.inr (.inr rfl)) (.ok _)
  · rename_i h₁ h₂ h₃
    exact .here (by rintro (h | h | h); exacts [h₁ h, h₂ h, h₃ h])

theorem checks_bounds [LawfulOrder α] (hl : lb.size = A.cols) (hu : ub.size = A.cols) :
    Checks ((List.range A.cols).flatMap fun j => boundDemands (lb.entry j) (ub.entry j))
      ((lb.toList.zip ub.toList).forM fun b => checkBound b.1 b.2) := by
  rw [zip_toList_eq hl hu, List.forM_eq_forM, List.forM_map]
  exact .forM fun j _ => checks_bound _ _

omit [Scalar α] in
theorem checks_types (types : Array Char) :
    Checks (types.toList.map typeDemand) (types.mapM ConstraintType.ofChar) := by
  rw [Array.mapM_eq_mapM_toList, List.map_eq_flatMap]
  exact (Checks.mapM fun c _ => checks_type c).map _

theorem checks_data [LawfulOrder α] :
    Checks (demands A rhs types obj lb ub) (ofData A rhs types offset obj lb ub) := by
  unfold demands vectorDemands ofData
  simp only [List.append_assoc, throw, throwThe, MonadExceptOf.throw, error_bind]
  refine .cons Nat.pos_iff_ne_zero.not_left.symm fun _ => ?_
  refine (checks_size "rhs" _ _).bind fun _ _ => ?_
  refine (checks_size "constr_type" _ _).bind fun _ _ => ?_
  refine (checks_size "obj" _ _).bind fun _ _ => ?_
  refine (checks_size "lb" _ _).bind fun _ hl => ?_
  refine (checks_size "ub" _ _).bind fun _ hu => ?_
  refine .guard Array.all_eq_true_iff_forall_mem fun _ => ?_
  refine .guard Array.all_eq_true_iff_forall_mem fun _ => ?_
  rw [checkSize_eq_ok_iff] at hl hu
  refine (checks_bounds hl hu).bind fun _ _ => (checks_types types).bind fun _ _ => ?_
  have hformat := A.checks_format.mapError (f := matrixDemand) (g := .invalidMatrix)
    (fun _ => Iff.rfl) fun _ => rfl
  rw [← List.append_nil (A.demands.map matrixDemand)]
  exact hformat.bind fun _ _ => .ok _

/-! ### What is recorded -/

/-- A program with the given data, whose counts, boxed variables and norms are those of the data. -/
structure Records (P : Program α) (A : Csc α) (rhs : Vec α) (types : Array Char) (offset : α)
    (obj lb ub : Vec α) : Prop where
  A_eq : P.A = A
  rhs_eq : P.rhs = rhs
  types_eq : P.types.map ConstraintType.toChar = types
  offset_eq : P.offset = offset
  obj_eq : P.obj = obj
  lb_eq : P.lb = lb
  ub_eq : P.ub = ub
  numEqConstr_eq : P.numEqConstr = types.count '='
  numFreeVar_eq : P.numFreeVar =
    (List.range A.cols).countP fun j => lb.entry j == -infinity && ub.entry j == infinity
  boxed_sorted : P.boxed.Pairwise (· < ·)
  mem_boxed : ∀ j, j ∈ P.boxed ↔
    j < A.cols ∧ isFinite (lb.entry j) = true ∧ isFinite (ub.entry j) = true
  normObj : IsGreatest (magnitudes {a | a ∈ obj}) P.normObj
  normRhs : IsGreatest (magnitudes {a | a ∈ rhs ∨ (a ∈ lb ∨ a ∈ ub) ∧ isFinite a = true}) P.normRhs

theorem toChar_of_ofChar {c : Char} {t : ConstraintType} (h : ConstraintType.ofChar c = .ok t) :
    t.toChar = c := by
  unfold ConstraintType.ofChar at h
  split at h <;> cases h <;> rfl

theorem map_toChar_of_map_ofChar {cs : List Char} {ts : List ConstraintType}
    (h : cs.map ConstraintType.ofChar = ts.map .ok) : ts.map ConstraintType.toChar = cs := by
  induction cs generalizing ts with
  | nil => rw [List.map_eq_nil_iff.1 h.symm, List.map_nil]
  | cons c cs ih =>
    cases ts with
    | nil => cases h
    | cons t ts =>
      obtain ⟨hc, hcs⟩ := List.cons.inj h
      rw [List.map_cons, toChar_of_ofChar hc, ih hcs]

theorem count_equal (types : Array ConstraintType) :
    types.count .equal = (types.map ConstraintType.toChar).count '=' := by
  have htest : ∀ t : ConstraintType, (t == .equal) = (t.toChar == '=') := by
    rintro (_ | _ | _) <;> rfl
  rw [Array.count, Array.count, Array.countP_map]
  exact congrArg (Array.countP · types) (funext htest)

theorem numFreeVar_eq [LawfulOrder α] {P : Program α} (hl : P.lb.size = P.numVar)
    (hu : P.ub.size = P.numVar)
    (hlower : ∀ j < P.numVar, isFinite (P.lb.entry j) = true ∨ (P.lb.entry j == -infinity) = true)
    (hupper : ∀ j < P.numVar, isFinite (P.ub.entry j) = true ∨ (P.ub.entry j == infinity) = true) :
    P.numFreeVar = (List.range P.numVar).countP fun j =>
      P.lb.entry j == -infinity && P.ub.entry j == infinity := by
  rw [numFreeVar, bounds_eq hl hu, List.countP_map]
  refine List.countP_congr fun j hj => ?_
  have hj : j < P.numVar := List.mem_range.1 hj
  have hbl := LawfulOrder.isInfinite_iff_beq
    (fun h => (LawfulOrder.isInfinite_iff _).2 (.inr h)) (hlower j hj)
  have hbu := LawfulOrder.isInfinite_iff_beq
    (fun h => (LawfulOrder.isInfinite_iff _).2 (.inl h)) (hupper j hj)
  simp only [Function.comp_apply, Bool.and_eq_true, hbl, hbu]

theorem isGreatest_normRhs [LawfulOrder α] {P : Program α} (h : P.rhs.isFinite = true) :
    IsGreatest (magnitudes {a | a ∈ P.rhs ∨ (a ∈ P.lb ∨ a ∈ P.ub) ∧ isFinite a = true})
      P.normRhs := by
  have hrhs := LawfulOrder.isGreatest_normInf h
  have hlb := LawfulOrder.isGreatest_normInfFinite P.lb
  have hub := LawfulOrder.isGreatest_normInfFinite P.ub
  have hnan : ∀ {s : Set α} {m : α}, (∀ a ∈ s, isFinite a = true) → IsGreatest (magnitudes s) m →
      isNaN m = false := fun hs hm =>
    LawfulOrder.isNaN_of_mem_magnitudes (fun a ha => LawfulOrder.isNaN_of_isFinite (hs a ha)) hm.1
  have hfin : ∀ a ∈ {a | a ∈ P.rhs}, isFinite a = true := Array.all_eq_true_iff_forall_mem.1 h
  have hboth := LawfulOrder.isGreatest_maxNum hrhs hlb (hnan hfin hrhs) (hnan (fun _ ha => ha.2) hlb)
  rw [magnitudes_union] at hboth
  have hall := LawfulOrder.isGreatest_maxNum hboth hub
    (hnan (by rintro a (ha | ha); exacts [hfin a ha, ha.2]) hboth) (hnan (fun _ ha => ha.2) hub)
  rw [magnitudes_union] at hall
  have hset : {a | a ∈ P.rhs ∨ (a ∈ P.lb ∨ a ∈ P.ub) ∧ isFinite a = true} =
      {a | a ∈ P.rhs} ∪ {a | a ∈ P.lb ∧ isFinite a = true} ∪
        {a | a ∈ P.ub ∧ isFinite a = true} := by
    ext a
    simp only [Set.mem_union, Set.mem_ofPred_eq]
    tauto
  rwa [hset]

theorem records_of_ofData [LawfulOrder α] {P : Program α}
    (hP : ofData A rhs types offset obj lb ub = .ok P) : P.Records A rhs types offset obj lb ub := by
  have hall := forall_demands_iff.1 (checks_data.exists_ok_iff.1 ⟨P, hP⟩)
  obtain ⟨hcopy, htypes, hvalid⟩ := ofData_eq_ok_iff.1 hP
  have htypes : P.types.map ConstraintType.toChar = types := by
    apply Array.toList_inj.1
    rw [Array.toList_map, map_toChar_of_map_ofChar htypes]
  cases P
  cases hcopy
  exact {
    A_eq := rfl
    rhs_eq := rfl
    types_eq := htypes
    offset_eq := rfl
    obj_eq := rfl
    lb_eq := rfl
    ub_eq := rfl
    numEqConstr_eq := (count_equal _).trans (congrArg _ htypes)
    numFreeVar_eq := numFreeVar_eq hvalid.size_lb hvalid.size_ub hall.lower hall.upper
    boxed_sorted := boxed_sorted hvalid.size_lb hvalid.size_ub
    mem_boxed := fun _ => mem_boxed hvalid.size_lb hvalid.size_ub
    normObj := LawfulOrder.isGreatest_normInf hvalid.finite_obj
    normRhs := isGreatest_normRhs hvalid.finite_rhs }

/-- The data of a program is accepted exactly if it meets all demands, and refused with the fault of the
first demand that it does not meet. An accepted program records the data. -/
theorem ofData_outcome [LawfulOrder α] (A : Csc α) (rhs : Vec α) (types : Array Char) (offset : α)
    (obj lb ub : Vec α) :
    ((∃ P, ofData A rhs types offset obj lb ub = .ok P) ↔ Acceptable A rhs types obj lb ub) ∧
      (∀ e, ofData A rhs types offset obj lb ub = .error e ↔
        FirstFault (demands A rhs types obj lb ub) e) ∧
      ∀ P, ofData A rhs types offset obj lb ub = .ok P →
        P.Records A rhs types offset obj lb ub :=
  ⟨checks_data.exists_ok_iff.trans forall_demands_iff, checks_data, fun _ => records_of_ofData⟩

/-- One constraint on the sum of two variables. -/
def pair : Csc Float := ⟨1, 2, #[0, 1, 2], #[0, 0], #[1, 1]⟩

theorem acceptable_pair : Acceptable pair #[4] #['<'] #[1, -3] #[-infinity, -8] #[infinity, 2] where
  numVar_pos := by decide
  size_rhs := rfl
  size_types := rfl
  size_obj := rfl
  size_lb := rfl
  size_ub := rfl
  finite_rhs := by decide +kernel
  finite_obj := by decide +kernel
  lower := by decide +kernel
  upper := by decide +kernel
  ordered := by decide +kernel
  types_known := by simp
  wellFormed := by decide +kernel

/-- A free variable and a boxed one; and the upper bound of the first variable at fault before the lower
bound of the second one and the type of the constraint. -/
theorem ofData_outcome_pair :
    (∃ P, ofData pair #[4] #['<'] 0 #[1, -3] #[-infinity, -8] #[infinity, 2] = .ok P ∧
      P.Records pair #[4] #['<'] 0 #[1, -3] #[-infinity, -8] #[infinity, 2]) ∧
    ofData pair #[4] #['?'] 0 #[1, -3] #[-infinity, 0 / 0] #[-infinity, 2] =
        .error (.invalidVector "ub") ∧
      FirstFault (demands pair #[4] #['?'] #[1, -3] #[-infinity, 0 / 0] #[-infinity, 2])
        (.invalidVector "ub") := by
  have hrun : ofData pair #[4] #['?'] 0 #[1, -3] #[-infinity, 0 / 0] #[-infinity, 2] =
      .error (.invalidVector "ub") := by
    have hmap : (ofData pair #[4] #['?'] 0 #[1, -3] #[-infinity, 0 / 0] #[-infinity, 2]).map
        (fun _ => ()) = .error (.invalidVector "ub") := by decide +kernel
    cases hdata : ofData pair #[4] #['?'] 0 #[1, -3] #[-infinity, 0 / 0] #[-infinity, 2] with
    | error e =>
      rw [hdata] at hmap
      cases hmap
      rfl
    | ok P =>
      rw [hdata] at hmap
      cases hmap
  obtain ⟨haccept, -, hrecords⟩ :=
    ofData_outcome pair #[4] #['<'] 0 #[1, -3] #[-infinity, -8] #[infinity, 2]
  obtain ⟨P, hP⟩ := haccept.2 acceptable_pair
  exact ⟨⟨P, hP, hrecords P hP⟩, hrun,
    ((ofData_outcome pair #[4] #['?'] 0 #[1, -3] #[-infinity, 0 / 0] #[-infinity, 2]).2.1 _).1 hrun⟩

end Program

end LpPresolve

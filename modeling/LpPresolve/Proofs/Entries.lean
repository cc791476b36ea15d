import LpPresolve.Vec
import Mathlib.Tactic.SplitIfs

/-! Entries of vectors under the array operations. A vector is determined by its length and its
entries, and each operation is described by the entries of its result. -/

namespace LpPresolve.Vec

variable {α : Type} [Scalar α]

theorem ext_entry {v w : Vec α} (hs : v.size = w.size) (h : ∀ i < v.size, v.entry i = w.entry i) :
    v = w := by
  apply Array.ext hs
  intro i hv hw
  rw [← entry_eq_getElem v hv, ← entry_eq_getElem w hw, h i hv]

theorem entry_eq_of_getElem? {v : Vec α} {i : Nat} {a : α} (h : v[i]? = some a) :
    v.entry i = a := by
  simp [entry, Array.getD_eq_getD_getElem?, h]

theorem getElem?_eq_some_entry (v : Vec α) {i : Nat} (h : i < v.size) :
    v[i]? = some (v.entry i) := by
  rw [entry_eq_getElem v h, Array.getElem?_eq_getElem h]

theorem toList_eq_map_getD {β : Type} (v : Array β) (b : β) :
    v.toList = (List.range v.size).map fun i => v.getD i b := by
  apply List.ext_getElem
  · simp
  · intro i h₁ _
    have hi : i < v.size := by simpa using h₁
    simp [Array.getD_eq_getD_getElem?, hi]

@[simp] theorem entry_zeros (n i : Nat) : (zeros n : Vec α).entry i = 0 := by
  by_cases h : i < n
  · rw [entry_eq_getElem _ (by simpa using h)]
    simp [zeros]
  · exact entry_of_size_le _ (by simpa using h)

theorem entry_replicate {n i : Nat} (a : α) (h : i < n) :
    Vec.entry (Array.replicate n a) i = a := by
  rw [entry_eq_getElem _ (by simpa using h)]
  simp

theorem entry_map {β : Type} (f : β → α) (v : Array β) {i : Nat} {b : β} (h : v[i]? = some b) :
    Vec.entry (v.map f) i = f b := by
  simp [entry, Array.getD_eq_getD_getElem?, h]

theorem entry_negate (v : Vec α) {i : Nat} (h : i < v.size) :
    v.negate.entry i = -v.entry i :=
  entry_map _ v (v.getElem?_eq_some_entry h)

theorem entry_mapIdx {β : Type} (f : Nat → β → α) (v : Array β) {i : Nat} {b : β}
    (h : v[i]? = some b) : Vec.entry (v.mapIdx f) i = f i b := by
  simp [entry, Array.getD_eq_getD_getElem?, h]

theorem entry_zipWith {β : Type} (f : β → α → α) (v : Array β) (w : Vec α) {i : Nat} {b : β}
    (hv : v[i]? = some b) (hw : i < w.size) :
    Vec.entry (Array.zipWith f v w) i = f b (w.entry i) := by
  simp [entry, Array.getD_eq_getD_getElem?, Array.getElem?_zipWith, hv,
    Array.getElem?_eq_getElem hw]

theorem entry_mul (v w : Vec α) {i : Nat} (hv : i < v.size) (hw : i < w.size) :
    (mul v w).entry i = v.entry i * w.entry i :=
  entry_zipWith _ v w (v.getElem?_eq_some_entry hv) hw

theorem entry_div (v w : Vec α) {i : Nat} (hv : i < v.size) (hw : i < w.size) :
    (div v w).entry i = v.entry i / w.entry i :=
  entry_zipWith _ v w (v.getElem?_eq_some_entry hv) hw

theorem entry_axpby (a : α) (x : Vec α) (b : α) (v : Vec α) {i : Nat} (hx : i < x.size)
    (hv : i < v.size) : (axpby a x b v).entry i = a * x.entry i + b * v.entry i :=
  entry_zipWith _ x v (x.getElem?_eq_some_entry hx) hv

theorem entry_append_left (v w : Vec α) {i : Nat} (h : i < v.size) :
    Vec.entry (v ++ w) i = v.entry i := by
  simp [entry, Array.getD_eq_getD_getElem?, Array.getElem?_append_left h]

theorem entry_append_right (v w : Vec α) (i : Nat) :
    Vec.entry (v ++ w) (v.size + i) = w.entry i := by
  simp [entry, Array.getD_eq_getD_getElem?,
    Array.getElem?_append_right (Nat.le_add_right v.size i)]

theorem entry_extract (v : Vec α) {start stop i : Nat} (h : start + i < stop)
    (hs : stop ≤ v.size) : Vec.entry (v.extract start stop) i = v.entry (start + i) := by
  rw [entry_eq_getElem _ (by simp; omega), entry_eq_getElem _ (by omega), Array.getElem_extract]

theorem entry_range (n : Nat) (f : Nat → α) {i : Nat} (h : i < n) :
    Vec.entry ((List.range n).map f).toArray i = f i := by
  rw [entry_eq_getElem _ (by simpa using h)]
  simp

theorem entry_modify (v : Vec α) (k : Nat) (f : α → α) {i : Nat} (h : i < v.size) :
    Vec.entry (v.modify k f) i = if k = i then f (v.entry i) else v.entry i := by
  rw [entry_eq_getElem _ (by simpa using h), entry_eq_getElem _ h, Array.getElem_modify]

theorem entry_setIfInBounds (v : Vec α) (k : Nat) (a : α) {i : Nat} (h : i < v.size) :
    Vec.entry (v.setIfInBounds k a) i = if k = i then a else v.entry i := by
  rw [entry_eq_getElem _ (by simpa using h), entry_eq_getElem _ h, Array.getElem_setIfInBounds h]

/-! ### Parts -/

omit [Scalar α] in
theorem extract_append_left (v w : Vec α) {n : Nat} (h : v.size = n) :
    (v ++ w).extract 0 n = v := by
  subst h
  simp

omit [Scalar α] in
theorem extract_append_right (v w : Vec α) {n : Nat} (h : v.size = n) :
    (v ++ w).extract n (v ++ w).size = w := by
  subst h
  simp

theorem negate_negate (hneg : ∀ a : α, - -a = a) (v : Vec α) : v.negate.negate = v := by
  simp [Vec.negate, Function.comp_def, hneg]

/-! ### Loops -/

section

variable {β ι : Type} (k : ι → Nat) (f : β → ι → β) (ts : List ι) (v : Array β)

omit [Scalar α] in
theorem size_foldl_modify : (ts.foldl (fun v t => v.modify (k t) (f · t)) v).size = v.size := by
  induction ts generalizing v with
  | nil => rfl
  | cons t r ih => rw [List.foldl_cons, ih, Array.size_modify]

omit [Scalar α] in
/-- In a loop whose steps change one entry each, an entry sees its own steps only, in their order. -/
theorem getElem?_foldl_modify (i : Nat) :
    (ts.foldl (fun v t => v.modify (k t) (f · t)) v)[i]? =
      v[i]?.map fun a => (ts.filter (k · = i)).foldl f a := by
  induction ts generalizing v with
  | nil => simp
  | cons t r ih =>
    rw [List.foldl_cons, ih, Array.getElem?_modify]
    by_cases h : k t = i
    · simp [h, Function.comp_def]
    · simp [h]

end

section

variable {ι : Type} (k : ι → Nat) (f : α → ι → α) (ts : List ι) (v : Vec α)

theorem entry_foldl_modify {i : Nat} (hi : i < v.size) :
    Vec.entry (ts.foldl (fun v t => v.modify (k t) (f · t)) v) i =
      (ts.filter (k · = i)).foldl f (v.entry i) := by
  apply entry_eq_of_getElem?
  rw [getElem?_foldl_modify, v.getElem?_eq_some_entry hi, Option.map_some]

theorem setIfInBounds_eq_modify (i : Nat) (g : α → α) :
    v.setIfInBounds i (g (v.entry i)) = v.modify i g := by
  apply ext_entry (by simp)
  intro j hj
  have hj : j < v.size := by simpa using hj
  rw [entry_setIfInBounds _ _ _ hj, entry_modify _ _ _ hj]
  split_ifs with h
  · rw [h]
  · rfl

theorem foldl_setIfInBounds_eq :
    ts.foldl (fun v t => v.setIfInBounds (k t) (f (v.entry (k t)) t)) v =
      ts.foldl (fun v t => v.modify (k t) (f · t)) v := by
  congr 1
  funext v t
  exact setIfInBounds_eq_modify v (k t) (f · t)

theorem size_foldl_setIfInBounds :
    (ts.foldl (fun v t => v.setIfInBounds (k t) (f (v.entry (k t)) t)) v).size = v.size := by
  rw [foldl_setIfInBounds_eq, size_foldl_modify]

theorem entry_foldl_setIfInBounds {i : Nat} (hi : i < v.size) :
    Vec.entry (ts.foldl (fun v t => v.setIfInBounds (k t) (f (v.entry (k t)) t)) v) i =
      (ts.filter (k · = i)).foldl f (v.entry i) := by
  rw [foldl_setIfInBounds_eq, entry_foldl_modify k f ts v hi]

end

/-- A loop over the variables `js` and their positions, each of which changes its own entry. -/
theorem entry_foldl_zipIdx {g : Vec α → Nat → Nat → Vec α} {f : Nat → α → α}
    (hsize : ∀ v j k, (g v j k).size = v.size)
    (hentry : ∀ v j k i, i < v.size →
      (g v j k).entry i = if j = i then f k (v.entry i) else v.entry i)
    {js : List Nat} (hn : js.Nodup) (s : Nat) (v : Vec α) {i : Nat} (hi : i < v.size) :
    Vec.entry ((js.zipIdx s).foldl (fun v p => g v p.1 p.2) v) i =
      if i ∈ js then f (s + js.idxOf i) (v.entry i) else v.entry i := by
  induction js generalizing s v with
  | nil => simp
  | cons j r ih =>
    obtain ⟨hj, hr⟩ := List.nodup_cons.1 hn
    rw [List.zipIdx_cons, List.foldl_cons, ih hr _ _ (by rwa [hsize]), hentry _ _ _ _ hi]
    by_cases hji : j = i
    · subst hji
      simp [hj]
    · have hidx : (j :: r).idxOf i = r.idxOf i + 1 := by
        rw [List.idxOf_cons, beq_false_of_ne hji, cond_false]
      simp [hji, Ne.symm hji, hidx, Nat.add_right_comm, Nat.add_assoc]

omit [Scalar α] in
theorem size_foldl_zipIdx {β : Type} {g : Vec α → β → Nat → Vec α}
    (hsize : ∀ v j k, (g v j k).size = v.size) (js : List β) (s : Nat) (v : Vec α) :
    ((js.zipIdx s).foldl (fun v p => g v p.1 p.2) v).size = v.size := by
  induction js generalizing s v with
  | nil => rfl
  | cons j r ih => rw [List.zipIdx_cons, List.foldl_cons, ih, hsize]

theorem entry_map_idxOf {js : List Nat} {i : Nat} (hi : i ∈ js) (f : Nat → α) :
    Vec.entry (js.map f).toArray (js.idxOf i) = f i := by
  have hlt := List.idxOf_lt_length_of_mem hi
  rw [entry_eq_getElem _ (by simpa using hlt)]
  simp

end LpPresolve.Vec

import LpPresolve.Proofs.Folds
import LpPresolve.Proofs.Sparse.Layout
import LpPresolve.Sparse.Assembly
import Mathlib.Algebra.BigOperators.Group.List.Basic
import Mathlib.Tactic.Set
import Mathlib.Tactic.SplitIfs

/-! Block assembly writes every slot once. Counting leaves in pointer `j` the number of entries of
column `j`, and the running sums of these numbers are where the columns start. While the blocks are
filled, the pointer of a column stands behind the entries written so far, which are those of the
column in the order of writing (`Filling`). No column runs into the next one, because it was counted.
In the end column `j` holds the entries of all blocks for that column, in the order of the blocks. -/

namespace LpPresolve

variable {α : Type}

/-- The entries of column `j` in a list of triples. -/
def columnOf (L : List (Nat × Nat × α)) (j : Nat) : List (Nat × α) :=
  (L.filter (·.2.1 = j)).map fun t => (t.1, t.2.2)

theorem columnOf_append (L M : List (Nat × Nat × α)) (j : Nat) :
    columnOf (L ++ M) j = columnOf L j ++ columnOf M j := by
  simp [columnOf]

theorem countP_lt_succ (L : List (Nat × Nat × α)) (j : Nat) :
    L.countP (·.2.1 < j + 1) = L.countP (·.2.1 < j) + L.countP (·.2.1 = j) := by
  induction L with
  | nil => rfl
  | cons t r ih =>
    simp only [List.countP_cons, ih, decide_eq_true_eq]
    split_ifs <;> omega

theorem countP_lt_mono (L : List (Nat × Nat × α)) {i j : Nat} (h : i ≤ j) :
    L.countP (·.2.1 < i) ≤ L.countP (·.2.1 < j) := by
  apply List.countP_mono_left
  intro t _ ht
  simp only [decide_eq_true_eq] at ht ⊢
  omega

/-- The pointer of a column stays behind the start of the next column. -/
theorem countP_cursor_lt {L done rest : List (Nat × Nat × α)} {t : Nat × Nat × α}
    (h : L = done ++ t :: rest) :
    L.countP (·.2.1 < t.2.1) + done.countP (·.2.1 = t.2.1) < L.countP (·.2.1 < t.2.1 + 1) := by
  rw [countP_lt_succ]
  have hc : L.countP (·.2.1 = t.2.1) =
      done.countP (·.2.1 = t.2.1) + (rest.countP (·.2.1 = t.2.1) + 1) := by
    rw [h, List.countP_append, List.countP_cons]
    simp
  omega

/-! ### Counting -/

theorem foldl_add_eq {ι : Type} (w : ι → Nat) (xs : List ι) (a : Nat) :
    xs.foldl (fun a x => a + w x) a = a + (xs.map w).sum := by
  have hstart : (xs.map w).foldl (· + ·) (a + 0) = a + (xs.map w).foldl (· + ·) 0 :=
    List.foldl_assoc
  rw [List.sum_eq_foldl_nat, ← hstart, Nat.add_zero, List.foldl_map]

/-- One addition to an entry for each element of a list, in any array. -/
theorem getD_foldl_modify {ι : Type} (xs : List ι) (c w : ι → Nat) (p : Array Nat)
    (h : ∀ x ∈ xs, c x < p.size) :
    (xs.foldl (fun p x => p.modify (c x) (· + w x)) p).size = p.size ∧ ∀ j,
      (xs.foldl (fun p x => p.modify (c x) (· + w x)) p).getD j 0 =
        p.getD j 0 + (xs.map fun x => if c x = j then w x else 0).sum := by
  refine ⟨Vec.size_foldl_modify c (fun a x => a + w x) xs p, fun j => ?_⟩
  have hsum : (xs.map fun x => if c x = j then w x else 0).sum =
      ((xs.filter (c · = j)).map w).sum := by
    rw [List.sum_map_ite]
    simp
  rw [Array.getD_eq_getD_getElem?, Vec.getElem?_foldl_modify c (fun a x => a + w x), hsum,
    Array.getD_eq_getD_getElem?]
  by_cases hj : j < p.size
  · rw [Array.getElem?_eq_getElem hj, Option.map_some, Option.getD_some, Option.getD_some,
      foldl_add_eq]
  · have hnone : xs.filter (c · = j) = [] :=
      List.filter_eq_nil_iff.2 fun x hx => by
        have := h x hx
        simp only [decide_eq_true_eq]
        omega
    rw [Array.getElem?_eq_none (Nat.not_lt.1 hj), hnone]
    rfl

theorem foldlM_modify?_eq {ι : Type} (xs : List ι) (c w : ι → Nat) (p : Array Nat)
    (h : ∀ x ∈ xs, c x < p.size) :
    xs.foldlM (fun p x => modify? p (c x) (· + w x)) p =
      some (xs.foldl (fun p x => p.modify (c x) (· + w x)) p) := by
  refine (foldlM_eq_some_foldl (fun q => q.size = p.size) (fun x hx q hq => ?_) rfl).1
  have hc : c x < q.size := hq ▸ h x hx
  exact ⟨modify?_eq_some_iff.2 ⟨hc, rfl⟩, by simpa using hq⟩

namespace Csc

/-- `C` with other pointers, which count `L` in addition. -/
def Counted (C C' : Csc α) (L : List (Nat × Nat × α)) : Prop :=
  ∃ colptr, C' = { C with colptr } ∧ colptr.size = C.colptr.size ∧
    ∀ j, colptr.getD j 0 = C.colptr.getD j 0 + L.countP (·.2.1 = j)

theorem Counted.trans {C C' C'' : Csc α} {L M : List (Nat × Nat × α)} (h : C.Counted C' L)
    (h' : C'.Counted C'' M) : C.Counted C'' (L ++ M) := by
  obtain ⟨p, rfl, hs, hp⟩ := h
  obtain ⟨q, rfl, hs', hq⟩ := h'
  refine ⟨q, rfl, hs'.trans hs, fun j => ?_⟩
  rw [hq j, List.countP_append]
  have := hp j
  simp only at *
  omega

end Csc

variable [Scalar α]

namespace Block

/-- The entries of a block in the order in which they are written. -/
def triples : Block α → List (Nat × Nat × α)
  | matrix B row col .normal => B.triples.map fun t => (t.1 + row, t.2.1 + col, t.2.2)
  | matrix B row col .transposed => B.triples.map fun t => (t.2.1 + row, t.1 + col, t.2.2)
  | units rows a col => rows.zipIdx.map fun p => (p.1, col + p.2, a)

/-- The number of entries of a block. -/
def size : Block α → Nat
  | matrix B _ _ _ => B.nzval.size
  | units rows _ _ => rows.length

/-- The loops of `fill?`, with any operation `put?` that writes an entry. -/
def fillWith? {σ : Type} (put? : σ → Nat → Nat → α → Option σ) (s : σ) : Block α → Option σ
  | matrix B row col shape =>
    (List.range B.cols).foldlM (fun s j => do
      (← B.column? j).foldlM (fun s (i, a) =>
        match shape with
        | .normal => put? s (i + row) (j + col) a
        | .transposed => put? s (j + row) (i + col) a) s) s
  | units rows a col => rows.zipIdx.foldlM (fun s (i, k) => put? s i (col + k) a) s

omit [Scalar α] in
theorem fill?_eq_fillWith? (b : Block α) (C : Csc α) : b.fill? C = b.fillWith? Csc.put? C := by
  cases b <;> rfl

/-- The block is a matrix with a layout, or a run of units, and has no column beyond `cols`. -/
def Fits (cols : Nat) : Block α → Prop
  | matrix B _ col .normal => B.Layout ∧ col + B.cols ≤ cols
  | matrix B _ col .transposed => B.Layout ∧ col + B.rows ≤ cols
  | units rows _ col => col + rows.length ≤ cols

omit [Scalar α] in
theorem col_lt {cols : Nat} {b : Block α} (h : b.Fits cols) :
    ∀ t ∈ b.triples, t.2.1 < cols := by
  intro t ht
  match b, h, ht with
  | .matrix B row col .normal, h, ht =>
    obtain ⟨s, hs, rfl⟩ := List.mem_map.1 ht
    have := (Csc.mem_triples.1 hs).1
    have := h.2
    simp only
    omega
  | .matrix B row col .transposed, h, ht =>
    obtain ⟨s, hs, rfl⟩ := List.mem_map.1 ht
    have := Csc.mem_triples.1 hs
    have := h.1.row_lt _ this.1 _ this.2
    have := h.2
    simp only at *
    omega
  | .units rows a col, h, ht =>
    obtain ⟨s, hs, rfl⟩ := List.mem_map.1 ht
    have := List.snd_lt_of_mem_zipIdx hs
    simp only [Fits] at *
    omega

theorem length_triples {cols : Nat} {b : Block α} (h : b.Fits cols) :
    b.triples.length = b.size := by
  match b, h with
  | .matrix B row col .normal, h => rw [triples, List.length_map, h.1.length_triples]; rfl
  | .matrix B row col .transposed, h => rw [triples, List.length_map, h.1.length_triples]; rfl
  | .units rows a col, _ => rw [triples, List.length_map, List.length_zipIdx]; rfl

theorem length_flatMap_triples {cols : Nat} {blocks : List (Block α)}
    (h : ∀ b ∈ blocks, b.Fits cols) :
    (blocks.flatMap triples).length = (blocks.map size).sum := by
  rw [List.length_flatMap]
  congr 1
  exact List.map_congr_left fun b hb => length_triples (h b hb)

omit [Scalar α] in
theorem col_lt_of_mem_flatMap {cols : Nat} {blocks : List (Block α)}
    (h : ∀ b ∈ blocks, b.Fits cols) : ∀ t ∈ blocks.flatMap triples, t.2.1 < cols := by
  intro t ht
  obtain ⟨b, hb, htb⟩ := List.mem_flatMap.1 ht
  exact col_lt (h b hb) t htb

end Block

namespace Csc

theorem Layout.rowval_eq_map_triples {A : Csc α} (h : A.Layout) :
    A.rowval.toList = A.triples.map (·.1) := by
  rw [← h.map_fst_flatMap_column, triples, List.map_flatMap, List.map_flatMap]
  simp [Function.comp_def]

theorem Layout.colNnz?_eq {A : Csc α} (h : A.Layout) {j : Nat} (hj : j < A.cols) :
    A.colNnz? j = some (A.column j).length := by
  simp [colNnz?, h.span?_eq hj, h.length_column hj, h.start_le_succ j hj]

omit [Scalar α] in
theorem counted_foldl_modify {ι : Type} (C : Csc α) (xs : List ι) (c w : ι → Nat)
    (h : ∀ x ∈ xs, c x < C.colptr.size) (L : List (Nat × Nat × α))
    (hL : ∀ j, (xs.map fun x => if c x = j then w x else 0).sum = L.countP (·.2.1 = j)) :
    C.Counted { C with colptr := xs.foldl (fun p x => p.modify (c x) (· + w x)) C.colptr } L := by
  obtain ⟨hs, hg⟩ := getD_foldl_modify xs c w C.colptr h
  exact ⟨_, rfl, hs, fun j => hL j ▸ hg j⟩

theorem countBlock?_normal (C : Csc α) {B : Csc α} (hB : B.Layout) (row : Nat) {col : Nat}
    (h : col + B.cols ≤ C.colptr.size) :
    ∃ C', C.countBlock? B col .normal = some C' ∧
      C.Counted C' (Block.matrix B row col .normal).triples := by
  have hlt : ∀ j ∈ List.range B.cols, col + j < C.colptr.size := fun j hj => by
    have := List.mem_range.1 hj
    omega
  have hrun := foldlM_modify?_eq _ _ (fun j => (B.column j).length) _ hlt
  rw [← foldlM_congr_mem (f := fun p j => do modify? p (col + j) (· + (← B.colNnz? j)))
    fun j hj p => by simp [hB.colNnz?_eq (List.mem_range.1 hj)]] at hrun
  refine ⟨_, by rw [countBlock?, hrun]; rfl, counted_foldl_modify C _ _ _ hlt _ fun j => ?_⟩
  rw [Block.triples, List.countP_map, Csc.triples, List.countP_flatMap]
  congr 1
  apply List.map_congr_left
  intro k _
  by_cases hk : col + k = j <;> simp [List.countP_map, Function.comp_def, Nat.add_comm k, hk]

theorem countBlock?_transposed (C : Csc α) {B : Csc α} (hB : B.Layout) (row : Nat) {col : Nat}
    (h : col + B.rows ≤ C.colptr.size) :
    ∃ C', C.countBlock? B col .transposed = some C' ∧
      C.Counted C' (Block.matrix B row col .transposed).triples := by
  have hlt : ∀ i ∈ B.rowval.toList, col + i < C.colptr.size := fun i hi => by
    rw [hB.rowval_eq_map_triples] at hi
    obtain ⟨t, ht, rfl⟩ := List.mem_map.1 hi
    have := hB.row_lt _ (mem_triples.1 ht).1 _ (mem_triples.1 ht).2
    omega
  have hrun := foldlM_modify?_eq _ _ (fun _ => 1) _ hlt
  rw [Array.foldlM_toList] at hrun
  refine ⟨_, by rw [countBlock?, hrun]; rfl, counted_foldl_modify C _ _ _ hlt _ fun j => ?_⟩
  rw [sum_map_ite_one, Block.triples, hB.rowval_eq_map_triples, List.countP_map, List.countP_map]
  simp [Function.comp_def, Nat.add_comm col]

omit [Scalar α] in
theorem countUnits?_eq (C : Csc α) (rows : List Nat) (a : α) {col : Nat}
    (h : col + rows.length ≤ C.colptr.size) :
    ∃ C', C.countUnits? col rows.length = some C' ∧
      C.Counted C' (Block.units rows a col).triples := by
  have hlt : ∀ j ∈ List.range' col rows.length, j < C.colptr.size := fun j hj => by
    have := List.mem_range'_1.1 hj
    omega
  refine ⟨_, if_pos h, counted_foldl_modify C _ (·) (fun _ => 1) hlt _ fun j => ?_⟩
  have hz : (Block.units rows a col).triples.map (·.2.1) = List.range' col rows.length := by
    have hs := congrArg (List.map (col + ·)) (List.zipIdx_map_snd 0 rows)
    rw [List.map_add_range', List.map_map] at hs
    simpa [Block.triples, Function.comp_def] using hs
  rw [sum_map_ite_one, ← hz, List.countP_map]
  rfl

theorem count?_eq (C : Csc α) {b : Block α} {cols : Nat} (hb : b.Fits cols)
    (hC : cols ≤ C.colptr.size) : ∃ C', b.count? C = some C' ∧ C.Counted C' b.triples := by
  match b, hb with
  | .matrix B row col .normal, hb => exact countBlock?_normal C hb.1 row (Nat.le_trans hb.2 hC)
  | .matrix B row col .transposed, hb =>
    exact countBlock?_transposed C hb.1 row (Nat.le_trans hb.2 hC)
  | .units rows a col, hb => exact countUnits?_eq C rows a (Nat.le_trans hb hC)

theorem foldlM_count?_eq (C : Csc α) {blocks : List (Block α)} {cols : Nat}
    (hb : ∀ b ∈ blocks, b.Fits cols) (hC : cols ≤ C.colptr.size) :
    ∃ C', blocks.foldlM Block.count? C = some C' ∧
      C.Counted C' (blocks.flatMap Block.triples) := by
  refine exists_foldlM_eq_some _ (fun done C' => C.Counted C' (done.flatMap Block.triples))
    (fun done b rest hd C' hC' => ?_) ⟨C.colptr, rfl, rfl, by simp⟩
  have hs : C'.colptr.size = C.colptr.size := by
    obtain ⟨p, rfl, hp, _⟩ := hC'
    exact hp
  obtain ⟨C'', hc, hC''⟩ := count?_eq C' (hb b (by simp [hd])) (hs ▸ hC)
  exact ⟨C'', hc, by simpa using hC'.trans hC''⟩

omit [Scalar α] in
/-- Counts add up to the number of entries in the columns before. -/
theorem sum_take_eq_countP {p : Array Nat} {L : List (Nat × Nat × α)}
    (h : ∀ j, p.getD j 0 = L.countP (·.2.1 = j)) {j : Nat} (hj : j ≤ p.size) :
    (p.toList.take j).sum = L.countP (·.2.1 < j) := by
  induction j with
  | zero => simp
  | succ j ih =>
    have hp : p.toList[j]? = some (L.countP (·.2.1 = j)) := by
      have hlt : j < p.size := hj
      simp [← h j, Array.getD_eq_getD_getElem?, hlt]
    rw [List.take_add_one, hp, List.sum_append, ih (by omega), countP_lt_succ]
    simp

omit [Scalar α] in
theorem start_startFromCounts (C : Csc α) {j : Nat} (hj : j < C.colptr.size) :
    C.startFromCounts.start j = (C.colptr.toList.take j).sum := by
  have hl : j < (runningSums 0 C.colptr.toList).length := by simpa using hj
  rw [start, startFromCounts, Array.getD_eq_getD_getElem?, List.getElem?_toArray,
    List.getElem?_eq_getElem hl, Option.getD_some, getElem_runningSums, List.sum_eq_foldl]

/-! ### Filling -/

/-- The state of `C` when `L` is to be written and `done` is the part written so far. -/
structure Filling (rows cols : Nat) (L done : List (Nat × Nat × α)) (C : Csc α) : Prop where
  rows_eq : C.rows = rows
  cols_eq : C.cols = cols
  size_colptr : C.colptr.size = cols + 1
  size_rowval : C.rowval.size = L.length
  size_nzval : C.nzval.size = L.length
  start : ∀ j < cols, C.start j = L.countP (·.2.1 < j) + done.countP (·.2.1 = j)
  slots : ∀ j < cols,
    C.slots (L.countP (·.2.1 < j)) (done.countP (·.2.1 = j)) = columnOf done j

theorem slots_congr {C C' : Csc α} {p n : Nat} (h : ∀ k, p ≤ k → k < p + n → C'.slot k = C.slot k) :
    C'.slots p n = C.slots p n := by
  apply List.map_congr_left
  intro k hk
  have := List.mem_range'_1.1 hk
  exact h k this.1 this.2

section Step

variable {rows cols : Nat} {L done rest : List (Nat × Nat × α)} {t : Nat × Nat × α} {C : Csc α}

/-- The entry goes to the slot that the pointer of its column has reached. -/
theorem Filling.put?_eq (h : Filling rows cols L done C) (hL : L = done ++ t :: rest)
    (ht : t.2.1 < cols) :
    C.put? t.1 t.2.1 t.2.2 = some { C with
      colptr := C.colptr.modify t.2.1 (· + 1)
      rowval := C.rowval.setIfInBounds (C.start t.2.1) t.1
      nzval := C.nzval.setIfInBounds (C.start t.2.1) t.2.2 } := by
  have hs : C.colptr[t.2.1]? = some (C.start t.2.1) := by
    have hlt : t.2.1 < C.colptr.size := by rw [h.size_colptr]; omega
    simp [Csc.start, Array.getD_eq_getD_getElem?, hlt]
  have hk : C.start t.2.1 < L.length := by
    rw [h.start _ ht]
    exact Nat.lt_of_lt_of_le (countP_cursor_lt hL) List.countP_le_length
  simp [Csc.put?, hs, h.size_rowval, h.size_nzval, hk]

/-- No other column reaches the slot that is written: the runs of the columns lie one behind the
other. -/
theorem Filling.start_ne (h : Filling rows cols L done C) (hL : L = done ++ t :: rest)
    (ht : t.2.1 < cols) {j k : Nat} (hj : L.countP (·.2.1 < j) ≤ k)
    (hk : k < L.countP (·.2.1 < j) + done.countP (·.2.1 = j)) : k ≠ C.start t.2.1 := by
  have hle : done.countP (·.2.1 = j) ≤ L.countP (·.2.1 = j) := by
    rw [hL, List.countP_append]
    omega
  have hsucc := countP_lt_succ L j
  have hcur := countP_cursor_lt hL
  rw [h.start _ ht]
  rcases Nat.lt_trichotomy j t.2.1 with hlt | rfl | hgt
  · have := countP_lt_mono L (show j + 1 ≤ t.2.1 from hlt)
    omega
  · omega
  · have := countP_lt_mono L (show t.2.1 + 1 ≤ j from hgt)
    omega

theorem Filling.step (h : Filling rows cols L done C) (hL : L = done ++ t :: rest)
    (ht : t.2.1 < cols) :
    ∃ C', C.put? t.1 t.2.1 t.2.2 = some C' ∧ Filling rows cols L (done ++ [t]) C' := by
  refine ⟨_, h.put?_eq hL ht, ?_⟩
  set C' : Csc α := { C with
    colptr := C.colptr.modify t.2.1 (· + 1)
    rowval := C.rowval.setIfInBounds (C.start t.2.1) t.1
    nzval := C.nzval.setIfInBounds (C.start t.2.1) t.2.2 } with hC'
  have hlt : C.start t.2.1 < L.length := by
    rw [h.start _ ht]
    exact Nat.lt_of_lt_of_le (countP_cursor_lt hL) List.countP_le_length
  have hslot : ∀ k, k ≠ C.start t.2.1 → C'.slot k = C.slot k := fun k hk => by
    simp [hC', slot, Vec.entry, Array.getD_eq_getD_getElem?, hk.symm]
  have hnew : C'.slot (C.start t.2.1) = (t.1, t.2.2) := by
    simp [hC', slot, Vec.entry, Array.getD_eq_getD_getElem?, h.size_rowval, h.size_nzval, hlt]
  refine ⟨h.rows_eq, h.cols_eq, by simpa [hC'] using h.size_colptr,
    by simpa [hC'] using h.size_rowval, by simpa [hC'] using h.size_nzval, ?_, ?_⟩
  · intro j hj
    have hs := h.start j hj
    have hp : j < C.colptr.size := by rw [h.size_colptr]; omega
    by_cases hjt : t.2.1 = j
    · subst hjt
      simp only [Csc.start, hC', Array.getD_eq_getD_getElem?, List.countP_append] at hs ⊢
      simp [hp, Array.getElem_modify] at hs ⊢
      omega
    · simp only [Csc.start, hC', Array.getD_eq_getD_getElem?, List.countP_append] at hs ⊢
      simpa [hp, Array.getElem_modify, hjt] using hs
  · intro j hj
    have hold : C'.slots (L.countP (·.2.1 < j)) (done.countP (·.2.1 = j)) = columnOf done j := by
      rw [← h.slots j hj]
      exact slots_congr fun k hk hk' => hslot k (h.start_ne hL ht hk hk')
    rw [columnOf_append, ← hold, List.countP_append]
    by_cases hjt : t.2.1 = j
    · subst hjt
      have hone : [t].countP (·.2.1 = t.2.1) = 1 := by simp
      rw [hone, slots_succ, ← h.start _ ht, hnew]
      simp [columnOf]
    · simp [columnOf, hjt]

end Step

theorem Filling.run {rows cols : Nat} {L : List (Nat × Nat × α)} {C : Csc α}
    (h : Filling rows cols L [] C) (hL : ∀ t ∈ L, t.2.1 < cols) :
    ∃ C', L.foldlM (fun C t => C.put? t.1 t.2.1 t.2.2) C = some C' ∧ Filling rows cols L L C' :=
  exists_foldlM_eq_some _ (fun done C => Filling rows cols L done C)
    (fun _ t _ hd _ hC => hC.step hd (hL t (by simp [hd]))) h

omit [Scalar α] in
theorem Layout.column?_eq {A : Csc α} (h : A.Layout) {j : Nat} (hj : j < A.cols) :
    A.column? j = some (A.column j) := by
  simp only [column?, h.span?_eq hj, h.slice?_eq hj _ h.size_rowval, h.slice?_eq hj _ rfl,
    Option.bind_eq_bind, Option.bind_some]
  rfl

omit [Scalar α] in
/-- A block writes its triples one after another, whatever writing one of them does. -/
theorem fillWith?_eq {σ : Type} (put? : σ → Nat → Nat → α → Option σ) (s : σ) {b : Block α}
    {cols : Nat} (hb : b.Fits cols) :
    b.fillWith? put? s = b.triples.foldlM (fun s t => put? s t.1 t.2.1 t.2.2) s := by
  match b, hb with
  | .matrix B row col .normal, hb =>
    rw [Block.fillWith?, Block.triples, triples, List.foldlM_map, foldlM_flatMap]
    apply foldlM_congr_mem
    intro j hj s
    simp [hb.1.column?_eq (List.mem_range.1 hj), List.foldlM_map]
  | .matrix B row col .transposed, hb =>
    rw [Block.fillWith?, Block.triples, triples, List.foldlM_map, foldlM_flatMap]
    apply foldlM_congr_mem
    intro j hj s
    simp [hb.1.column?_eq (List.mem_range.1 hj), List.foldlM_map]
  | .units rows a col, _ =>
    rw [Block.fillWith?, Block.triples, List.foldlM_map]

omit [Scalar α] in
theorem foldlM_fillWith?_eq {σ : Type} (put? : σ → Nat → Nat → α → Option σ) (s : σ)
    {blocks : List (Block α)} {cols : Nat} (hb : ∀ b ∈ blocks, b.Fits cols) :
    blocks.foldlM (Block.fillWith? put?) s =
      (blocks.flatMap Block.triples).foldlM (fun s t => put? s t.1 t.2.1 t.2.2) s := by
  rw [foldlM_flatMap]
  exact foldlM_congr_mem (fun b hmem s => fillWith?_eq put? s (hb b hmem)) s

omit [Scalar α] in
theorem foldlM_fill?_eq (C : Csc α) {blocks : List (Block α)} {cols : Nat}
    (hb : ∀ b ∈ blocks, b.Fits cols) :
    blocks.foldlM Block.fill? C =
      (blocks.flatMap Block.triples).foldlM (fun C t => C.put? t.1 t.2.1 t.2.2) C := by
  rw [← foldlM_fillWith?_eq put? C hb]
  exact foldlM_congr_mem (fun b _ C => b.fill?_eq_fillWith? C) C

/-! ### The assembled matrix -/

/-- `C` consists of the entries `L`, each column in the order of `L`. -/
structure Holds (rows cols : Nat) (L : List (Nat × Nat × α)) (C : Csc α) : Prop where
  rows_eq : C.rows = rows
  cols_eq : C.cols = cols
  size_colptr : C.colptr.size = cols + 1
  size_rowval : C.rowval.size = L.length
  size_nzval : C.nzval.size = L.length
  start : ∀ j ≤ cols, C.start j = L.countP (·.2.1 < j)
  column : ∀ j < cols, C.column j = columnOf L j

theorem Filling.closeColumns {rows cols : Nat} {L : List (Nat × Nat × α)} {C : Csc α}
    (h : Filling rows cols L L C) : Holds rows cols L C.closeColumns := by
  have hstart : ∀ j ≤ cols, C.closeColumns.start j = L.countP (·.2.1 < j) := by
    intro j hj
    cases j with
    | zero =>
      rw [Csc.start, Csc.closeColumns, Array.getD_eq_getD_getElem?,
        Array.getElem?_append_left Nat.zero_lt_one]
      simp
    | succ j =>
      have hp : j < C.colptr.size - 1 := by rw [h.size_colptr]; omega
      rw [countP_lt_succ, ← h.start j hj]
      simp [Csc.start, Csc.closeColumns, Array.getD_eq_getD_getElem?, Array.getElem?_append, hp,
        show j < C.colptr.size by omega]
  have hle : ∀ j, L.countP (·.2.1 < j) ≤ L.length := fun j => List.countP_le_length
  refine ⟨h.rows_eq, h.cols_eq, ?_, h.size_rowval, h.size_nzval, hstart, fun j hj => ?_⟩
  · simp [Csc.closeColumns, h.size_colptr, Nat.add_comm]
  · rw [column_eq_slots _ (by rw [hstart _ hj]; exact h.size_rowval ▸ hle _)
      (by rw [hstart _ hj]; exact h.size_nzval ▸ hle _), hstart _ hj, hstart _ (Nat.le_of_lt hj),
      countP_lt_succ, Nat.add_sub_cancel_left, ← h.slots j hj]
    rfl

/-- After counting, the entries of the blocks can be filled in any order. -/
theorem exists_filling (C₀ : Csc α) {blocks order : List (Block α)}
    (hb : ∀ b ∈ blocks, b.Fits C₀.cols) (horder : order.Perm blocks)
    (hzero : C₀.colptr = Array.replicate (C₀.cols + 1) 0)
    (hr : C₀.rowval.size = (blocks.map Block.size).sum)
    (hv : C₀.nzval.size = (blocks.map Block.size).sum) :
    ∃ C₁, blocks.foldlM Block.count? C₀ = some C₁ ∧ C₁.colptr.size = C₀.cols + 1 ∧
      (∀ j, C₁.colptr.getD j 0 = (order.flatMap Block.triples).countP (·.2.1 = j)) ∧
      Filling C₀.rows C₀.cols (order.flatMap Block.triples) [] C₁.startFromCounts := by
  obtain ⟨_, hcount, p, rfl, hs, hp⟩ := foldlM_count?_eq C₀ hb (by simp [hzero])
  have hperm := horder.flatMap_right Block.triples
  have hsize : p.size = C₀.cols + 1 := by simpa [hzero] using hs
  have hlen : (order.flatMap Block.triples).length = (blocks.map Block.size).sum :=
    hperm.length_eq.trans (Block.length_flatMap_triples hb)
  have hp' : ∀ j, p.getD j 0 = (order.flatMap Block.triples).countP (·.2.1 = j) := by
    intro j
    rw [hp j, hperm.countP_eq, hzero]
    simp [Array.getD_eq_getD_getElem?, Array.getElem?_replicate]
    split_ifs <;> rfl
  refine ⟨_, hcount, hsize, hp', rfl, rfl, by simpa [startFromCounts] using hsize, hr.trans hlen.symm,
    hv.trans hlen.symm, fun j hj => ?_, fun j _ => by simp [slots, columnOf]⟩
  rw [start_startFromCounts _ (by simp [hsize]; omega),
    sum_take_eq_countP hp' (by simp [hsize]; omega)]
  simp

/-- Assembly succeeds with room for exactly the entries of the blocks, and the result consists of
them. -/
theorem assemble?_eq (rows : Nat) {cols nnz : Nat} {blocks : List (Block α)}
    (hb : ∀ b ∈ blocks, b.Fits cols) (hn : nnz = (blocks.flatMap Block.triples).length) :
    ∃ C, assemble? rows cols nnz blocks = some C ∧
      Holds rows cols (blocks.flatMap Block.triples) C := by
  rw [Block.length_flatMap_triples hb] at hn
  obtain ⟨C₁, hcount, -, -, hfill⟩ := exists_filling (emptyCounts rows cols nnz) hb
    (List.Perm.refl blocks) rfl (by simp [emptyCounts, blank, hn]) (by simp [emptyCounts, blank, hn])
  obtain ⟨C₂, hrun, hC₂⟩ := hfill.run (Block.col_lt_of_mem_flatMap hb)
  rw [← foldlM_fill?_eq _ hb] at hrun
  exact ⟨C₂.closeColumns, by simp [assemble?, hcount, hrun], hC₂.closeColumns⟩

omit [Scalar α] in
/-- An assembled matrix whose columns are as they should be has a layout. -/
theorem Holds.layout {rows cols : Nat} {L : List (Nat × Nat × α)} {C : Csc α}
    (h : Holds rows cols L C) (hcol : ∀ t ∈ L, t.2.1 < cols)
    (hrow : ∀ j < cols, ∀ e ∈ C.column j, e.1 < rows)
    (hn : ∀ j < cols, ((C.column j).map (·.1)).Nodup) : C.Layout where
  size_rowval := h.size_rowval.trans h.size_nzval.symm
  size_colptr := by rw [h.size_colptr, h.cols_eq]
  start_zero := by
    rw [h.start 0 (Nat.zero_le _)]
    simp
  start_le_succ j hj := by
    rw [h.cols_eq] at hj
    rw [h.start j (Nat.le_of_lt hj), h.start (j + 1) hj]
    exact countP_lt_mono L (Nat.le_succ j)
  start_cols := by
    rw [h.cols_eq, h.start cols (Nat.le_refl _), h.size_nzval, List.countP_eq_length]
    simpa using hcol
  row_lt j hj e he := h.rows_eq ▸ hrow j (h.cols_eq ▸ hj) e he
  nodup j hj := hn j (h.cols_eq ▸ hj)

end Csc

end LpPresolve

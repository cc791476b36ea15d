import LpPresolve.Proofs.Entries
import LpPresolve.Scaling
import Mathlib.Dynamics.FixedPoints.Basic
import Mathlib.Data.List.Count
import Mathlib.Tactic.SplitIfs

/-! Mirroring, entry by entry. An entry is negated, exchanged or replaced once for every time that the
flips list its index, and all other entries are kept. Hence mirroring twice does nothing, in whatever
order the flips list their indices and however often. For flips without repetitions the entries of the
flipped variables are negated or exchanged once. -/

namespace LpPresolve.Flips

variable {α : Type}

/-! ### Listed entries -/

section Listed

variable {β : Type}

/-- Applied twice to a listed entry, `f` gives it back. -/
def Recovers (F : Flips) (f : β → β) (v : Array β) : Prop :=
  ∀ j ∈ F.indices, ∀ a ∈ v[j]?, f (f a) = a

/-- What undoes itself at `e` does so when it is repeated. -/
theorem iterate_iterate {g : β → β} {e : β} (h : g (g e) = e) (n : Nat) :
    g^[n] (g^[n] e) = e := by
  have hfix : Function.IsFixedPt g^[2] e := h
  rw [← Function.iterate_add_apply, ← Nat.two_mul, Function.iterate_mul]
  exact hfix.iterate n

theorem map_map_of_forall_mem {f : β → β} {o : Option β} (h : ∀ a ∈ o, f (f a) = a) :
    (o.map f).map f = o := by
  cases o with
  | none => rfl
  | some a => exact congrArg some (h a rfl)

theorem getElem?_foldl_modify (f : β → β) (js : List Nat) (v : Array β) (j : Nat) :
    (js.foldl (fun v k => v.modify k f) v)[j]? = (Option.map f)^[js.count j] v[j]? := by
  have hcount : (js.filter (id · = j)).length = js.count j := List.countP_eq_length_filter.symm
  refine (Vec.getElem?_foldl_modify id (fun a _ => f a) js v j).trans ?_
  rw [← hcount]
  cases v[j]? with
  | none => exact (Function.iterate_fixed rfl _).symm
  | some a =>
    have hsome : Function.Semiconj some f (Option.map f) := fun _ => rfl
    rw [Option.map_some, List.foldl_const, (hsome.iterate_right _).eq]

theorem foldl_modify_foldl_modify {F : Flips} {f : β → β} {v : Array β} (h : F.Recovers f v) :
    F.indices.foldl (fun v k => v.modify k f) (F.indices.foldl (fun v k => v.modify k f) v) = v := by
  apply Array.ext_getElem?
  intro j
  rw [getElem?_foldl_modify, getElem?_foldl_modify]
  by_cases hj : j ∈ F.indices
  · exact iterate_iterate (map_map_of_forall_mem (h j hj)) _
  · rw [List.count_eq_zero_of_not_mem hj]
    rfl

/-- The two entries of one index exchanged, with `f` applied to each. -/
def swapped (f : β → β) (e : Option β × Option β) : Option β × Option β := (e.2.map f, e.1.map f)

theorem getElem?_exchangeAt (f : β → β) {p : Vec β × Vec β} {j k : Nat}
    (h : k = j → j < p.1.size ∧ j < p.2.size) :
    ((exchangeAt f p k).1[j]?, (exchangeAt f p k).2[j]?) =
      if k = j then swapped f (p.1[j]?, p.2[j]?) else (p.1[j]?, p.2[j]?) := by
  unfold exchangeAt
  split
  next a b ha hb =>
    by_cases hk : k = j
    · subst hk
      obtain ⟨h₁, h₂⟩ := h rfl
      simp only [Array.getElem?_setIfInBounds, h₁, h₂, if_true, swapped, ha, hb, Option.map_some]
    · simp [hk]
  next hnone =>
    -- an index without entries is not `j`
    have hk : k ≠ j := by
      rintro rfl
      obtain ⟨h₁, h₂⟩ := h rfl
      exact hnone _ _ (Array.getElem?_eq_getElem h₁) (Array.getElem?_eq_getElem h₂)
    rw [if_neg hk]

theorem getElem?_exchange (F : Flips) (f : β → β) (l u : Vec β) {j : Nat}
    (h : j ∈ F.indices → j < l.size ∧ j < u.size) :
    ((F.exchange f l u).1[j]?, (F.exchange f l u).2[j]?) =
      (swapped f)^[F.indices.count j] (l[j]?, u[j]?) := by
  suffices hs : ∀ (js : List Nat) (p : Vec β × Vec β),
      (j ∈ js → j < p.1.size ∧ j < p.2.size) →
      ((js.foldl (exchangeAt f) p).1[j]?, (js.foldl (exchangeAt f) p).2[j]?) =
        (swapped f)^[js.count j] (p.1[j]?, p.2[j]?) from hs _ (l, u) h
  intro js
  induction js with
  | nil => exact fun _ _ => rfl
  | cons k r ih =>
    intro p hp
    rw [List.foldl_cons, ih _ fun hj => by simpa using hp (List.mem_cons_of_mem k hj),
      getElem?_exchangeAt f fun hk => hp (hk ▸ List.mem_cons_self)]
    by_cases hk : k = j
    · subst hk
      rw [if_pos rfl, List.count_cons_self, Function.iterate_succ_apply]
    · rw [if_neg hk, List.count_cons_of_ne hk]

theorem exchange_exchange {F : Flips} {f : β → β} {l u : Vec β}
    (hl : F.Within l.size) (hu : F.Within u.size) (hfl : F.Recovers f l) (hfu : F.Recovers f u) :
    F.exchange f (F.exchange f l u).1 (F.exchange f l u).2 = (l, u) := by
  obtain ⟨hsl, hsu⟩ := size_exchange F f l u
  have hentry : ∀ j : Nat, ((F.exchange f (F.exchange f l u).1 (F.exchange f l u).2).1[j]?,
      (F.exchange f (F.exchange f l u).1 (F.exchange f l u).2).2[j]?) = (l[j]?, u[j]?) := by
    intro j
    rw [getElem?_exchange F f _ _ fun hj => ⟨hsl ▸ hl j hj, hsu ▸ hu j hj⟩,
      getElem?_exchange F f l u fun hj => ⟨hl j hj, hu j hj⟩]
    by_cases hj : j ∈ F.indices
    · apply iterate_iterate
      rw [swapped, swapped, map_map_of_forall_mem (hfl j hj), map_map_of_forall_mem (hfu j hj)]
    · rw [List.count_eq_zero_of_not_mem hj]
      rfl
  exact Prod.ext (Array.ext_getElem? fun j => congrArg Prod.fst (hentry j))
    (Array.ext_getElem? fun j => congrArg Prod.snd (hentry j))

end Listed

/-! ### Flips without repetitions -/

variable [Scalar α]

theorem entry_foldl_modify (f : α → α) {js : List Nat} (hn : js.Nodup) (v : Vec α) {j : Nat}
    (hj : j < v.size) :
    Vec.entry (js.foldl (fun v k => v.modify k f) v) j =
      if j ∈ js then f (v.entry j) else v.entry j := by
  have h := getElem?_foldl_modify f js v j
  rw [hn.count, v.getElem?_eq_some_entry hj] at h
  split_ifs at h ⊢
  · exact Vec.entry_eq_of_getElem? h
  · exact Vec.entry_eq_of_getElem? h

theorem entry_negate {F : Flips} (hF : F.indices.Nodup) (v : Vec α) {j : Nat} (hj : j < v.size) :
    (F.negate v).entry j = if j ∈ F.indices then -v.entry j else v.entry j :=
  entry_foldl_modify (-·) hF v hj

theorem entry_exchange {F : Flips} (hF : F.indices.Nodup) (f : α → α) {l u : Vec α}
    (hs : l.size = u.size) {j : Nat} (hj : j < l.size) :
    (F.exchange f l u).1.entry j = (if j ∈ F.indices then f (u.entry j) else l.entry j) ∧
      (F.exchange f l u).2.entry j = (if j ∈ F.indices then f (l.entry j) else u.entry j) := by
  have h := getElem?_exchange F f l u fun _ => ⟨hj, hs ▸ hj⟩
  rw [hF.count, l.getElem?_eq_some_entry hj, u.getElem?_eq_some_entry (hs ▸ hj)] at h
  split_ifs at h ⊢
  · exact ⟨Vec.entry_eq_of_getElem? (congrArg Prod.fst h),
      Vec.entry_eq_of_getElem? (congrArg Prod.snd h)⟩
  · exact ⟨Vec.entry_eq_of_getElem? (congrArg Prod.fst h),
      Vec.entry_eq_of_getElem? (congrArg Prod.snd h)⟩

end LpPresolve.Flips

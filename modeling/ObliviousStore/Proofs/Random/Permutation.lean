/-
  Shuffles as permutations.

  Swaps in order permute the positions of a list (`Swaps.perm`, `Swaps.getElem?_apply`),
  whatever stands there (`Swaps.apply_map`).  A shuffle has one number for each of its
  positions, from the last down to the second, and each is at or before its position
  (`AtOrBefore`): such numbers make every permutation, and each in one way
  (`existsUnique_numbers`).
-/
import Mathlib.GroupTheory.Perm.Basic
import Mathlib.Logic.Equiv.Fin.Basic
import ObliviousStore.Random.Shuffle

namespace ObliviousStore

namespace Swaps

variable {α β : Type} {n : Nat}

/-! ## Swaps in order -/

@[simp] theorem apply_nil (items : List α) : Swaps.apply [] items = items := rfl

theorem apply_cons (s : Nat × Nat) (swaps : Swaps) (items : List α) :
    Swaps.apply (s :: swaps) items = swaps.apply (Swaps.apply [s] items) := rfl

theorem getElem_apply_singleton {items : List α} {i j k : Nat}
    (hk : k < items.length) (hk' : k < (Swaps.apply [(i, j)] items).length) :
    (Swaps.apply [(i, j)] items)[k] =
      if h : k = i ∧ j < items.length then items[j]
      else if h : k = j ∧ i < items.length then items[i]
      else items[k] := by
  have hswap : k < (items.toArray.swapIfInBounds i j).size := by simpa using hk
  exact Array.getElem_swapIfInBounds hswap

/-- Swapping the members of a list and mapping them can be done in either order. -/
theorem apply_map (swaps : Swaps) (f : α → β) (items : List α) :
    swaps.apply (items.map f) = (swaps.apply items).map f := by
  induction swaps generalizing items with
  | nil => rfl
  | cons s swaps ih =>
    obtain ⟨i, j⟩ := s
    have hswap : Swaps.apply [(i, j)] (items.map f) = (Swaps.apply [(i, j)] items).map f := by
      refine List.ext_getElem (by simp only [length_apply, List.length_map]) fun k hk _ => ?_
      rw [length_apply, List.length_map] at hk
      rw [List.getElem_map, getElem_apply_singleton (by rwa [List.length_map]),
        getElem_apply_singleton hk]
      simp only [List.getElem_map, List.length_map]
      split
      · rfl
      · split <;> rfl
    rw [apply_cons, hswap, ih, ← apply_cons]

/-- No member of a list is lost or doubled. -/
theorem apply_perm (swaps : Swaps) (items : List α) : (swaps.apply items).Perm items := by
  induction swaps generalizing items with
  | nil => exact .refl items
  | cons s swaps ih =>
    obtain ⟨i, j⟩ := s
    have hswap : (Swaps.apply [(i, j)] items).Perm items := by
      show (items.toArray.swapIfInBounds i j).toList.Perm items
      unfold Array.swapIfInBounds
      split
      · split
        · exact Array.perm_iff_toList_perm.1 (Array.swap_perm _ _)
        · exact .refl items
      · exact .refl items
    exact (ih _).trans hswap

/-- The position from which swaps bring what ends at a position. -/
def perm : Swaps → Equiv.Perm Nat
  | [] => 1
  | (i, j) :: swaps => Equiv.swap i j * perm swaps

/-- All positions that are swapped lie below `n`. -/
def Within (n : Nat) (swaps : Swaps) : Prop := ∀ s ∈ swaps, s.1 < n ∧ s.2 < n

theorem perm_of_le {swaps : Swaps} (h : swaps.Within n) {k : Nat} (hk : n ≤ k) :
    swaps.perm k = k := by
  induction swaps with
  | nil => rfl
  | cons s swaps ih =>
    obtain ⟨⟨hi, hj⟩, hswaps⟩ := List.forall_mem_cons.1 h
    rw [perm, Equiv.Perm.mul_apply, ih hswaps]
    exact Equiv.swap_apply_of_ne_of_ne (by omega) (by omega)

theorem getElem?_apply_singleton {items : List α} {i j : Nat} (hi : i < items.length)
    (hj : j < items.length) (k : Nat) :
    (Swaps.apply [(i, j)] items)[k]? = items[Equiv.swap i j k]? := by
  have hlength : (Swaps.apply [(i, j)] items).length = items.length := length_apply _ _
  by_cases hk : k < items.length
  · rw [List.getElem?_eq_getElem (by rwa [hlength]), getElem_apply_singleton hk,
      Equiv.swap_apply_def]
    by_cases hki : k = i
    · rw [dif_pos ⟨hki, hj⟩, if_pos hki, List.getElem?_eq_getElem hj]
    · rw [dif_neg fun h => hki h.1, if_neg hki]
      by_cases hkj : k = j
      · rw [dif_pos ⟨hkj, hi⟩, if_pos hkj, List.getElem?_eq_getElem hi]
      · rw [dif_neg fun h => hkj h.1, if_neg hkj, List.getElem?_eq_getElem hk]
  · rw [Equiv.swap_apply_of_ne_of_ne (by omega) (by omega), List.getElem?_eq_none (by omega),
      List.getElem?_eq_none (by omega)]

theorem getElem?_apply {swaps : Swaps} {items : List α} (h : swaps.Within items.length) (k : Nat) :
    (swaps.apply items)[k]? = items[swaps.perm k]? := by
  induction swaps generalizing items with
  | nil => rfl
  | cons s swaps ih =>
    obtain ⟨i, j⟩ := s
    obtain ⟨⟨hi, hj⟩, hswaps⟩ := List.forall_mem_cons.1 h
    rw [apply_cons, ih (by rwa [length_apply]), getElem?_apply_singleton hi hj]
    rfl

/-! ## The numbers of a shuffle -/

/-- The swaps of a shuffle with the numbers given, the first of which is for the last
    position. -/
def ofNumbers : List Nat → Swaps
  | [] => []
  | j :: js => (js.length + 1, j) :: ofNumbers js

/-- Each of the numbers of a shuffle is at or before its position. -/
def AtOrBefore : List Nat → Prop
  | [] => True
  | j :: js => j ≤ js.length + 1 ∧ AtOrBefore js

theorem within_ofNumbers {js : List Nat} (h : AtOrBefore js) :
    (ofNumbers js).Within (js.length + 1) := by
  induction js with
  | nil => exact List.forall_mem_nil _
  | cons j js ih =>
    obtain ⟨hj, hjs⟩ := h
    rw [ofNumbers, List.length_cons]
    refine List.forall_mem_cons.2 ⟨⟨by omega, by omega⟩, fun s hs => ?_⟩
    obtain ⟨h1, h2⟩ := ih hjs s hs
    exact ⟨by omega, by omega⟩

/-- Every permutation of the positions up to `i` is made by the numbers of one shuffle. -/
theorem existsUnique_numbers (i : Nat) (π : Equiv.Perm Nat) (hπ : ∀ k, i < k → π k = k) :
    ∃! js, js.length = i ∧ AtOrBefore js ∧ (ofNumbers js).perm = π := by
  induction i generalizing π with
  | zero =>
    have hone : π = 1 := by
      ext k
      rcases Nat.eq_zero_or_pos k with rfl | hk
      · by_contra h0
        exact h0 (π.injective (hπ _ (Nat.pos_of_ne_zero h0)))
      · exact hπ k hk
    refine ⟨[], ⟨rfl, trivial, hone.symm⟩, ?_⟩
    rintro js ⟨hlength, -⟩
    exact List.length_eq_zero_iff.1 hlength
  | succ i ih =>
    have hle : π (i + 1) ≤ i + 1 := by
      by_contra h
      have hfixed := π.injective (hπ _ (Nat.lt_of_not_le h))
      omega
    -- the number of the last position is where its member comes from, and the rest of
    -- the shuffle makes what is left of the permutation, which keeps that position
    have hrest : ∀ k, i < k → (Equiv.swap (i + 1) (π (i + 1)) * π) k = k := by
      intro k hk
      rw [Equiv.Perm.mul_apply]
      rcases Nat.eq_or_lt_of_le (Nat.succ_le_of_lt hk) with rfl | hk
      · exact Equiv.swap_apply_right _ _
      · rw [hπ k hk]
        exact Equiv.swap_apply_of_ne_of_ne (by omega) (by omega)
    obtain ⟨js, ⟨hlength, hjs, hperm⟩, hunique⟩ := ih _ hrest
    refine ⟨π (i + 1) :: js, ⟨by rw [List.length_cons, hlength], ⟨by rwa [hlength], hjs⟩, ?_⟩, ?_⟩
    · rw [ofNumbers, perm, hlength, hperm, Equiv.swap_mul_self_mul]
    · rintro js' ⟨hlength', hjs', hperm'⟩
      cases js' with
      | nil => exact absurd hlength' (by simp)
      | cons j ks =>
        obtain ⟨-, hks⟩ := hjs'
        have hlast : ks.length = i := Nat.succ.inj hlength'
        rw [ofNumbers, perm, hlast] at hperm'
        have hkeep : (ofNumbers ks).perm (i + 1) = i + 1 :=
          perm_of_le (within_ofNumbers hks) (by omega)
        have hj : π (i + 1) = j := by
          rw [← hperm', Equiv.Perm.mul_apply, hkeep, Equiv.swap_apply_left]
        have hrest' : (ofNumbers ks).perm = Equiv.swap (i + 1) j * π := by
          rw [← hperm', Equiv.swap_mul_self_mul]
        subst hj
        rw [hunique ks ⟨hlast, hks, hrest'⟩]

/-! ## Permutations of a list -/

/-- The swaps apply a permutation to every list of `n` members: each position gets what
    stood where the permutation sends it. -/
def Applies (swaps : Swaps) (σ : Equiv.Perm (Fin n)) : Prop :=
  ∀ {α : Type} (items : List α), items.length = n →
    ∀ k : Fin n, (swaps.apply items)[k.val]? = items[(σ k).val]?

theorem applies_iff {swaps : Swaps} (h : swaps.Within n) (σ : Equiv.Perm (Fin n)) :
    swaps.Applies σ ↔ swaps.perm = σ.extendDomain Fin.equivSubtype := by
  have hsub (k : Fin n) : σ.extendDomain Fin.equivSubtype k.val = (σ k).val :=
    Equiv.Perm.extendDomain_apply_subtype σ Fin.equivSubtype k.isLt
  constructor
  · intro happlies
    ext k
    by_cases hk : k < n
    · have hrange := happlies (List.range n) List.length_range ⟨k, hk⟩
      rw [getElem?_apply (by rwa [List.length_range]), List.getElem?_range (σ ⟨k, hk⟩).isLt,
        List.getElem?_eq_some_iff] at hrange
      obtain ⟨hlt, hget⟩ := hrange
      rw [List.getElem_range] at hget
      exact hget.trans (hsub ⟨k, hk⟩).symm
    · rw [perm_of_le h (Nat.le_of_not_lt hk),
        Equiv.Perm.extendDomain_apply_not_subtype σ Fin.equivSubtype hk]
  · rintro hperm α items rfl k
    rw [getElem?_apply h, hperm, hsub]

theorem within_of_length {js : List Nat} (hlength : js.length = n - 1) (hjs : AtOrBefore js) :
    (ofNumbers js).Within n := by
  cases js with
  | nil => exact List.forall_mem_nil _
  | cons j js =>
    rw [List.length_cons] at hlength
    have hn : (j :: js).length + 1 = n := by
      rw [List.length_cons]
      omega
    exact hn ▸ within_ofNumbers hjs

/-- The numbers of a shuffle of `n` items make a permutation of them. -/
theorem exists_applies {js : List Nat} (hlength : js.length = n - 1) (hjs : AtOrBefore js) :
    ∃ σ : Equiv.Perm (Fin n), (ofNumbers js).Applies σ := by
  have hwithin := within_of_length hlength hjs
  have hmem (k : Nat) : (ofNumbers js).perm k < n ↔ k < n := by
    constructor
    · intro h
      by_contra hk
      rw [perm_of_le hwithin (Nat.le_of_not_lt hk)] at h
      exact hk h
    · intro hk
      by_contra h
      have hfixed := perm_of_le hwithin (Nat.le_of_not_lt h)
      rw [(ofNumbers js).perm.injective hfixed] at h
      exact h hk
  refine ⟨Fin.equivSubtype.symm.permCongr ((ofNumbers js).perm.subtypePerm hmem),
    (applies_iff hwithin _).2 ?_⟩
  ext k
  by_cases hk : k < n
  · rw [Equiv.Perm.extendDomain_apply_subtype _ Fin.equivSubtype hk]
    rfl
  · rw [perm_of_le hwithin (Nat.le_of_not_lt hk),
      Equiv.Perm.extendDomain_apply_not_subtype _ Fin.equivSubtype hk]

/-- One row of numbers makes each permutation of `n` items. -/
theorem existsUnique_ofNumbers (σ : Equiv.Perm (Fin n)) :
    ∃! js, js.length = n - 1 ∧ AtOrBefore js ∧ (ofNumbers js).Applies σ := by
  have hfixed (k : Nat) (hk : n - 1 < k) : σ.extendDomain Fin.equivSubtype k = k :=
    Equiv.Perm.extendDomain_apply_not_subtype σ Fin.equivSubtype (by omega)
  obtain ⟨js, ⟨hlength, hjs, hperm⟩, hunique⟩ := existsUnique_numbers (n - 1) _ hfixed
  refine ⟨js, ⟨hlength, hjs, (applies_iff (within_of_length hlength hjs) σ).2 hperm⟩, ?_⟩
  rintro js' ⟨hlength', hjs', happlies⟩
  exact hunique js' ⟨hlength', hjs', (applies_iff (within_of_length hlength' hjs') σ).1 happlies⟩

end Swaps

end ObliviousStore

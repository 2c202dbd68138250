/-
  Numbers below a bound are drawn without bias.

  A word stands for a number below `r` if its product with `r` lies in the window of
  that number (`accept?_eq_some_iff`).  Every window is as long, and holds as many
  multiples of `r` (`mem_multiples_iff`), so that each number has the same number of
  words (`ncard_accept?`), and at least half of all words stand for one
  (`two_pow_le_ncard_accepted`): what is drawn is `Unbiased`.
-/
import Mathlib.Data.Set.Card.Arithmetic
import Mathlib.Order.Interval.Finset.Nat
import ObliviousStore.Random.Shuffle

namespace ObliviousStore

/-- The zeros in front of the highest one of a number below `2 ^ 32`, written with 32
    digits. -/
def leadingZeros (r : Nat) : Nat := (BitVec.ofNat 32 r).clz.toNat

variable {r j : Nat} {w : UInt32}

/-! ## The zone -/

theorem leadingZeros_spec (hr : 0 < r) (hr' : r < UInt32.size) :
    leadingZeros r ≤ 31 ∧ 2 ^ (31 - leadingZeros r) ≤ r ∧ r < 2 ^ (32 - leadingZeros r) := by
  have hval : (BitVec.ofNat 32 r).toNat = r := by
    rw [BitVec.toNat_ofNat]
    exact Nat.mod_eq_of_lt hr'
  have hne : BitVec.ofNat 32 r ≠ 0#32 := by
    intro h
    rw [h] at hval
    exact absurd hval hr.ne
  have hlow := BitVec.two_pow_sub_clz_le_toNat_of_ne_zero (w := 32) (by omega) hne
  have hhigh := BitVec.toNat_lt_two_pow_sub_clz (x := BitVec.ofNat 32 r)
  rw [hval] at hlow hhigh
  refine ⟨?_, hlow, hhigh⟩
  by_contra h
  have hzero : 32 - (BitVec.ofNat 32 r).clz.toNat = 0 := by
    show 32 - leadingZeros r = 0
    omega
  rw [hzero] at hhigh
  omega

theorem zone_eq (hr : 0 < r) (hr' : r < UInt32.size) : zone r = r * 2 ^ leadingZeros r := by
  obtain ⟨hle, hlow, hhigh⟩ := leadingZeros_spec hr hr'
  have hlog : r.log2 = 31 - leadingZeros r := by
    rw [Nat.log2_eq_iff hr.ne']
    refine ⟨hlow, ?_⟩
    rwa [show 31 - leadingZeros r + 1 = 32 - leadingZeros r by omega]
  rw [zone, Nat.shiftLeft_eq, hlog, Nat.sub_sub_self hle]

/-- The zone is more than half of the words, and has no more than there are. -/
theorem zone_bounds (hr : 0 < r) (hr' : r < UInt32.size) :
    2 ^ 31 ≤ zone r ∧ zone r ≤ UInt32.size := by
  obtain ⟨hle, hlow, hhigh⟩ := leadingZeros_spec hr hr'
  rw [zone_eq hr hr']
  constructor
  · calc 2 ^ 31 = 2 ^ (31 - leadingZeros r) * 2 ^ leadingZeros r := by
          rw [← pow_add, Nat.sub_add_cancel hle]
      _ ≤ r * 2 ^ leadingZeros r := Nat.mul_le_mul_right _ hlow
  · calc r * 2 ^ leadingZeros r ≤ 2 ^ (32 - leadingZeros r) * 2 ^ leadingZeros r :=
          Nat.mul_le_mul_right _ hhigh.le
      _ = UInt32.size := by
          rw [← pow_add, Nat.sub_add_cancel (by omega)]
          rfl

/-! ## Windows -/

/-- The words that stand for a number are those whose product lies in its window. -/
theorem accept?_eq_some_iff (hzone : zone r ≤ UInt32.size) :
    accept? r w = some j ↔
      j * UInt32.size ≤ w.toNat * r ∧ w.toNat * r < j * UInt32.size + zone r := by
  simp only [accept?, Option.ite_none_right_eq_some, Option.some.injEq]
  generalize w.toNat * r = p
  simp only [UInt32.size] at hzone ⊢
  omega

/-- The number that a word stands for lies below the bound. -/
theorem lt_of_accept? (h : accept? r w = some j) : j < r := by
  simp only [accept?, Option.ite_none_right_eq_some, Option.some.injEq] at h
  obtain ⟨hzone, rfl⟩ := h
  have hr : 0 < r := by
    by_contra h0
    obtain rfl : r = 0 := Nat.eq_zero_of_not_pos h0
    exact absurd hzone (Nat.not_lt_zero _)
  exact Nat.div_lt_of_lt_mul (Nat.mul_lt_mul_of_pos_right w.toNat_lt hr)

/-- Among `r * n` consecutive numbers there are `n` multiples of `r`. -/
theorem mem_multiples_iff (hr : 0 < r) (c n m : Nat) :
    c ≤ m * r ∧ m * r < c + r * n ↔
      m ∈ Finset.Ico ((c + (r - 1)) / r) ((c + (r - 1)) / r + n) := by
  have hfirst : (c + (r - 1)) / r ≤ m ↔ c ≤ m * r := by
    rw [← Nat.lt_succ_iff, Nat.div_lt_iff_lt_mul hr, Nat.succ_mul]
    omega
  have hlast : m < (c + (r - 1)) / r + n ↔ m * r < c + r * n := by
    rw [← Nat.add_mul_div_left _ n hr, ← Nat.succ_le_iff, Nat.le_div_iff_mul_le hr, Nat.succ_mul]
    omega
  rw [Finset.mem_Ico, hfirst, hlast]

theorem ncard_accept? (hr : 0 < r) (hr' : r < UInt32.size) (hj : j < r) :
    {w | accept? r w = some j}.ncard = 2 ^ leadingZeros r := by
  obtain ⟨-, hzone⟩ := zone_bounds hr hr'
  set first := (j * UInt32.size + (r - 1)) / r with hfirst
  have himage : UInt32.toNat '' {w | accept? r w = some j} =
      ↑(Finset.Ico first (first + 2 ^ leadingZeros r)) := by
    ext m
    simp only [Set.mem_image, Set.mem_ofPred_eq, accept?_eq_some_iff hzone, Finset.mem_coe]
    rw [hfirst, ← mem_multiples_iff hr, ← zone_eq hr hr']
    constructor
    · rintro ⟨w, hw, rfl⟩
      exact hw
    · intro hm
      have hlt : m < UInt32.size := by
        refine Nat.lt_of_mul_lt_mul_right (a := r) (hm.2.trans_le ?_)
        calc j * UInt32.size + zone r ≤ (j + 1) * UInt32.size := by rw [Nat.succ_mul]; omega
          _ ≤ UInt32.size * r := by rw [Nat.mul_comm]; exact Nat.mul_le_mul_left _ hj
      have hval : (UInt32.ofNat m).toNat = m := UInt32.toNat_ofNat_of_lt' hlt
      exact ⟨UInt32.ofNat m, by rwa [hval], hval⟩
  rw [← Set.ncard_image_of_injective _ fun _ _ => UInt32.toNat_inj.1, himage,
    Set.ncard_coe_finset, Nat.card_Ico, Nat.add_sub_cancel_left]

/-- At least half of the words stand for a number below the bound. -/
theorem two_pow_le_ncard_accepted (hr : 0 < r) (hr' : r < UInt32.size) :
    2 ^ 31 ≤ {w | (accept? r w).isSome}.ncard := by
  have hunion : {w | (accept? r w).isSome} = ⋃ j : Fin r, {w | accept? r w = some j.val} := by
    ext w
    simp only [Set.mem_ofPred_eq, Set.mem_iUnion, Option.isSome_iff_exists]
    constructor
    · rintro ⟨j, hj⟩
      exact ⟨⟨j, lt_of_accept? hj⟩, hj⟩
    · rintro ⟨j, hj⟩
      exact ⟨j, hj⟩
  have hdisjoint : Pairwise (Function.onFun Disjoint fun j : Fin r =>
      {w : UInt32 | accept? r w = some j.val}) := by
    intro i j hij
    refine Set.disjoint_left.2 fun w hi hj => hij (Fin.ext ?_)
    exact Option.some.inj (hi.symm.trans hj)
  have hfinite (j : Fin r) : {w : UInt32 | accept? r w = some j.val}.Finite := by
    refine Set.finite_of_ncard_pos ?_
    rw [ncard_accept? hr hr' j.isLt]
    exact Nat.two_pow_pos _
  rw [hunion, Set.ncard_iUnion_of_finite hfinite hdisjoint,
    finsum_eq_sum_of_fintype, Finset.sum_congr rfl fun j _ => ncard_accept? hr hr' j.isLt,
    Finset.sum_const, Finset.card_univ, Fintype.card_fin, smul_eq_mul, ← zone_eq hr hr']
  exact (zone_bounds hr hr').1

/-- Words stand for numbers below `r` only, as many for each, and at least every other
    word stands for one. -/
structure Unbiased (r : Nat) : Prop where
  below (w : UInt32) (j : Nat) : accept? r w = some j → j < r
  even (j : Nat) : j < r → {w | accept? r w = some j}.ncard = 2 ^ leadingZeros r
  half : 2 ^ 31 ≤ {w | (accept? r w).isSome}.ncard

theorem unbiased (hr : 0 < r) (hr' : r < UInt32.size) : Unbiased r where
  below _ _ := lt_of_accept?
  even _ := ncard_accept? hr hr'
  half := two_pow_le_ncard_accepted hr hr'

end ObliviousStore

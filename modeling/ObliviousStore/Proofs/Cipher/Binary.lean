/-
  Words as polynomials over the field of two elements.

  A word of `n` bits stands for a polynomial of lower degree than `n`, read at a root of
  the modulus (`evalBits`); bits below the degree of the modulus are told by what they
  stand for (`eq_of_evalBits_root`).  Where exclusive or is the sum and doubling the
  product with the root (`Reading`), Horner's rule over the bits of a word is the product
  (`Reading.value_horner`).  Whether what a modulus leaves is a field is decided by two
  powers of its root (`irreducible_of_root`).
-/
import Mathlib.Algebra.Module.ZMod
import Mathlib.FieldTheory.Finite.Extension
import Mathlib.RingTheory.AdjoinRoot

namespace ObliviousStore.Binary

open Polynomial

/-! ## Bits as coefficients -/

section evaluation

variable {R : Type*} [CommRing R]

/-- The value at `x` of the polynomial whose first `n` coefficients are the bits `c`. -/
def evalBits (x : R) (n : ℕ) (c : ℕ → Bool) : R :=
  ∑ i ∈ Finset.range n, if c i then x ^ i else 0

theorem evalBits_congr {x : R} {n : ℕ} {c d : ℕ → Bool} (h : ∀ i < n, c i = d i) :
    evalBits x n c = evalBits x n d :=
  Finset.sum_congr rfl fun i hi => by rw [h i (Finset.mem_range.1 hi)]

theorem evalBits_eq_sum {n : ℕ} {c : ℕ → Bool} {s : Finset ℕ}
    (h : (Finset.range n).filter (fun i => c i) = s) (x : R) : evalBits x n c = ∑ i ∈ s, x ^ i := by
  rw [evalBits, ← Finset.sum_filter, h]

theorem evalBits_eq_pow {n i : ℕ} {c : ℕ → Bool}
    (h : (Finset.range n).filter (fun j => c j) = {i}) (x : R) : evalBits x n c = x ^ i := by
  rw [evalBits_eq_sum h, Finset.sum_singleton]

theorem map_evalBits {S : Type*} [CommRing S] (f : R →+* S) (x : R) (n : ℕ) (c : ℕ → Bool) :
    f (evalBits x n c) = evalBits (f x) n c := by
  simp only [evalBits, map_sum, apply_ite f, map_pow, map_zero]

theorem evalBits_xor [Algebra (ZMod 2) R] (x : R) (n : ℕ) (c d : ℕ → Bool) :
    evalBits x n (fun i => c i ^^ d i) = evalBits x n c + evalBits x n d := by
  rw [evalBits, evalBits, evalBits, ← Finset.sum_add_distrib]
  refine Finset.sum_congr rfl fun i _ => ?_
  rcases hc : c i with _ | _ <;> rcases hd : d i with _ | _ <;> simp [ZModModule.add_self]

theorem evalBits_succ (x : R) (n : ℕ) (c : ℕ → Bool) :
    evalBits x (n + 1) c = x * evalBits x n (fun i => c (i + 1)) + if c 0 then 1 else 0 := by
  rw [evalBits, Finset.sum_range_succ', evalBits, Finset.mul_sum]
  congr 1
  · refine Finset.sum_congr rfl fun i _ => ?_
    rw [mul_ite, mul_zero, pow_succ']
  · rw [pow_zero]

/-- The product with `x` moves all coefficients up by one; the highest becomes that of
    `x ^ (n + 1)`. -/
theorem mul_evalBits (x : R) (n : ℕ) (c : ℕ → Bool) :
    x * evalBits x (n + 1) c =
      evalBits x (n + 1) (fun i => decide (i ≠ 0) && c (i - 1)) +
        if c n then x ^ (n + 1) else 0 := by
  have hterm (i : ℕ) : x * (if c i then x ^ i else 0) = if c i then x ^ (i + 1) else 0 := by
    rw [mul_ite, mul_zero, pow_succ']
  simp only [evalBits, Finset.mul_sum, hterm]
  rw [Finset.sum_range_succ, Finset.sum_range_succ']
  simp

theorem foldr_horner (x : R) (n : ℕ) (c : ℕ → Bool) :
    (List.range n).foldr (fun i v => x * v + if c i then 1 else 0) 0 = evalBits x n c := by
  induction n generalizing c with
  | zero => rfl
  | succ n ih =>
    rw [List.range_succ_eq_map, List.foldr_cons, List.foldr_map, evalBits_succ]
    exact congrArg (fun v => x * v + if c 0 then 1 else 0) (ih fun i => c (i + 1))

theorem value_zero_of_xor {W : Type} [XorOp W] [OfNat W 0] {value : W → R}
    (hself : (0 : W) ^^^ 0 = 0) (hxor : ∀ a b, value (a ^^^ b) = value a + value b) :
    value 0 = 0 :=
  left_eq_add.1 ((congrArg value hself).symm.trans (hxor 0 0))

/-- Words that stand for elements of a ring: exclusive or is their sum, and doubling is
    the product with `x`. -/
structure Reading {W : Type} [XorOp W] [OfNat W 0] (x : R) (double : W → W) (value : W → R) :
    Prop where
  zero : value 0 = 0
  xor : ∀ a b, value (a ^^^ b) = value a + value b
  double : ∀ a, value (double a) = x * value a

/-- Horner's rule over the bits `c`, as it is done on words. -/
theorem Reading.value_horner {W : Type} [XorOp W] [OfNat W 0] {x : R} {double : W → W}
    {value : W → R} (h : Reading x double value) (n : ℕ) (c : ℕ → Bool) (b : W) :
    value ((List.range n).foldr (fun i p => double p ^^^ (if c i then b else 0)) 0) =
      evalBits x n c * value b := by
  rw [← foldr_horner]
  induction List.range n with
  | nil => rw [List.foldr_nil, List.foldr_nil, h.zero, zero_mul]
  | cons i l ih =>
    rw [List.foldr_cons, h.xor, h.double, ih, List.foldr_cons]
    by_cases hbit : c i
    · simp only [hbit, if_true]
      ring
    · simp only [hbit, Bool.false_eq_true, if_false, h.zero]
      ring

end evaluation

/-! ## Below the degree of a modulus -/

/-- The highest power of the root is what the rest of the modulus is at the root. -/
theorem root_pow {f g : (ZMod 2)[X]} {n : ℕ} (h : f = X ^ n + g) :
    AdjoinRoot.root f ^ n = AdjoinRoot.mk f g := by
  have hzero := congrArg (AdjoinRoot.mk f) h
  rw [AdjoinRoot.mk_self, map_add, map_pow, AdjoinRoot.mk_X] at hzero
  exact (eq_neg_of_add_eq_zero_left hzero.symm).trans (ZModModule.neg_eq_self _)

theorem coeff_evalBits (n : ℕ) (c : ℕ → Bool) (i : ℕ) :
    (evalBits (X : (ZMod 2)[X]) n c).coeff i = if i < n ∧ c i then 1 else 0 := by
  have hterm (j : ℕ) : (if c j then X ^ j else 0 : (ZMod 2)[X]).coeff i =
      if j = i then if c i then 1 else 0 else 0 := by
    by_cases hji : j = i
    · subst hji
      cases c j <;> simp
    · rw [if_neg hji]
      cases c j <;> simp [coeff_X_pow, Ne.symm hji]
  rw [evalBits, finsetSum_coeff, Finset.sum_congr rfl fun j _ => hterm j, Finset.sum_ite_eq']
  by_cases hi : i < n <;> simp [hi]

/-- Bits that stand for the same element are the same, as long as there are no more of
    them than the degree of the modulus. -/
theorem eq_of_evalBits_root {f : (ZMod 2)[X]} {n : ℕ} (hf : f.natDegree = n) (hn : n ≠ 0)
    {c d : ℕ → Bool} (h : evalBits (AdjoinRoot.root f) n c = evalBits (AdjoinRoot.root f) n d)
    {i : ℕ} (hi : i < n) : c i = d i := by
  have hf0 : f ≠ 0 := by
    rintro rfl
    exact hn (hf.symm.trans natDegree_zero)
  have hlt (b : ℕ → Bool) : (evalBits X n b : (ZMod 2)[X]).degree < f.degree := by
    rw [degree_eq_natDegree hf0, hf, degree_lt_iff_coeff_zero]
    intro j hj
    rw [coeff_evalBits, if_neg fun hij => absurd hij.1 (by omega)]
  have hdvd : f ∣ evalBits X n c - evalBits X n d := by
    rw [← AdjoinRoot.mk_eq_mk, map_evalBits, map_evalBits, AdjoinRoot.mk_X, h]
  have heq := sub_eq_zero.1 (eq_zero_of_dvd_of_degree_lt hdvd
    ((degree_sub_le _ _).trans_lt (max_lt (hlt c) (hlt d))))
  have hcoeff := congrArg (coeff · i) heq
  simp only [coeff_evalBits, hi, true_and] at hcoeff
  cases hc : c i <;> cases hd : d i <;> simp_all

/-! ## Irreducible moduli -/

/-- **Rabin's test.**  Let the degree `d` of `f` be a power of the prime `p`.  If the root
    of `f` is a fixed point of `d` Frobenius maps in a row, and `d / p` of them move it by
    what has an inverse, then `f` is irreducible. -/
theorem irreducible_of_root {k : Type*} [Field k] [Finite k] {f : k[X]} {p m : ℕ} (hp : p.Prime)
    (hdeg : f.natDegree = p ^ (m + 1))
    (hroot : AdjoinRoot.root f ^ Nat.card k ^ p ^ (m + 1) = AdjoinRoot.root f)
    (hunit : IsUnit (AdjoinRoot.root f ^ Nat.card k ^ p ^ m - AdjoinRoot.root f)) :
    Irreducible f := by
  have hpos : f.natDegree ≠ 0 := hdeg ▸ (pow_pos hp.pos _).ne'
  have hf0 : f ≠ 0 := by
    rintro rfl
    exact hpos natDegree_zero
  have hmk (n : ℕ) : AdjoinRoot.root f ^ n - AdjoinRoot.root f = AdjoinRoot.mk f (X ^ n - X) := by
    rw [map_sub, map_pow, AdjoinRoot.mk_X]
  obtain ⟨g, hg, hgf⟩ := WfDvdMonoid.exists_irreducible_factor
    (fun h => hpos (natDegree_eq_zero_of_isUnit h)) hf0
  have hdvd : g.natDegree ∣ p ^ (m + 1) := by
    refine hg.natDegree_dvd_of_dvd_X_pow_card_pow_sub_X (hgf.trans ?_)
    rw [← AdjoinRoot.mk_eq_zero, ← hmk, hroot, sub_self]
  -- a factor of lower degree would divide what has an inverse modulo `f`
  have hnot : ¬g.natDegree ∣ p ^ m := by
    intro h
    have hgX := hg.natDegree_dvd_iff_dvd_X_pow_card_pow_sub_X.1 h
    rw [hmk] at hunit
    obtain ⟨r, hr⟩ := isUnit_iff_exists_inv.1 hunit
    obtain ⟨r, rfl⟩ := AdjoinRoot.mk_surjective r
    rw [← map_mul, ← map_one (AdjoinRoot.mk f), AdjoinRoot.mk_eq_mk] at hr
    have hone : g ∣ 1 := (dvd_sub_right (dvd_mul_of_dvd_left hgX r)).1 (hgf.trans hr)
    exact hg.not_isUnit (isUnit_of_dvd_one hone)
  obtain ⟨j, hj, hgdeg⟩ := (Nat.dvd_prime_pow hp).1 hdvd
  have hjm : j = m + 1 := by
    by_contra hne
    exact hnot (hgdeg ▸ pow_dvd_pow p (by omega))
  have hassoc : Associated g f :=
    associated_of_dvd_of_natDegree_le hgf hf0 (by rw [hdeg, hgdeg, hjm])
  exact hassoc.irreducible hg

end ObliviousStore.Binary

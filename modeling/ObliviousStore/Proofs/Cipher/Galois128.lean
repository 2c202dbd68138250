/-
  The words that authenticate messages form a field.

  A word stands for a polynomial over two elements modulo `x^128 + x^7 + x^2 + x + 1`
  (`value`), and `mul` is the product of what its factors stand for (`value_mul`).  The
  modulus is irreducible: 128 squarings lead from `x` back to `x`, and 64 of them lead to
  a word whose sum with `x` has an inverse.  So no product of two words is zero unless one
  of them is (`mul_eq_zero_iff`).
-/
import Mathlib.Tactic.ComputeDegree
import ObliviousStore.Cipher.Galois128
import ObliviousStore.Proofs.Cipher.Binary

namespace ObliviousStore.Galois128

open Polynomial Binary

noncomputable def modulus : (ZMod 2)[X] := X ^ 128 + (X ^ 7 + X ^ 2 + X + 1)

noncomputable abbrev root : AdjoinRoot modulus := AdjoinRoot.root modulus

theorem natDegree_modulus : modulus.natDegree = 128 := by
  unfold modulus
  compute_degree!

/-! ## What a word stands for -/

/-- The highest bit of a word is the constant coefficient. -/
noncomputable def value (a : Element) : AdjoinRoot modulus := evalBits root 128 a.getMsbD

theorem value_xor (a b : Element) : value (a ^^^ b) = value a + value b := by
  rw [value, value, value, ← evalBits_xor]
  exact evalBits_congr fun i _ => BitVec.getMsbD_xor

theorem value_zero : value 0 = 0 := value_zero_of_xor BitVec.xor_self value_xor

theorem value_injective : Function.Injective value := by
  intro a b h
  apply BitVec.eq_of_getMsbD_eq
  intro i hi
  exact eq_of_evalBits_root natDegree_modulus (by decide) h hi

theorem value_reduction : value reduction = root ^ 128 := by
  have hbits : (Finset.range 128).filter (fun i => reduction.getMsbD i) = {7, 2, 1, 0} := by decide
  have hmodulus : modulus = X ^ 128 + (X ^ 7 + X ^ 2 + X + 1) := by
    unfold modulus
    ring
  have hpow := root_pow hmodulus
  rw [value, evalBits_eq_sum hbits, hpow]
  simp [add_assoc]

theorem value_mulX (a : Element) : value (mulX a) = root * value a := by
  have hshift : evalBits root 128 (a >>> 1).getMsbD =
      evalBits root 128 (fun i => decide (i ≠ 0) && a.getMsbD (i - 1)) := by
    refine evalBits_congr fun i hi => ?_
    rw [BitVec.getMsbD_ushiftRight]
    simp
    omega
  have hlow : a.getMsbD 127 = a.getLsbD 0 := by simp [BitVec.getMsbD]
  have hstep : root * value a = value (a >>> 1) + if a.getLsbD 0 then root ^ 128 else 0 := by
    rw [value, value, hshift, ← hlow]
    exact mul_evalBits root 127 a.getMsbD
  rw [hstep, mulX]
  split
  · rw [value_xor, value_reduction]
  · rw [add_zero]

theorem reading : Reading root mulX value := ⟨value_zero, value_xor, value_mulX⟩

theorem value_mul (a b : Element) : value (mul a b) = value a * value b := by
  -- the coefficients are read from the lowest bit on, the highest coefficient first
  have hreverse : (List.range 128).reverse = (List.range 128).map (127 - ·) := by decide
  rw [mul, List.foldl_eq_foldr_reverse, hreverse, List.foldr_map]
  refine (reading.value_horner 128 (fun i => a.getLsbD (127 - i)) b).trans ?_
  refine congrArg (· * value b) (evalBits_congr fun i hi => ?_)
  simp [BitVec.getMsbD, hi]

/-! ## The modulus is irreducible -/

/-- `n` squarings in a row, on the number of a word.  A number is taken apart before it is
    squared, so that it is known when the kernel squares it. -/
def squareTimes : ℕ → ℕ → ℕ
  | 0, w => w
  | _ + 1, 0 => 0
  | n + 1, w + 1 =>
    let a := BitVec.ofNat 128 (w + 1)
    squareTimes n (mul a a).toNat

theorem value_squareTimes (n w : ℕ) :
    value (BitVec.ofNat 128 (squareTimes n w)) = value (BitVec.ofNat 128 w) ^ 2 ^ n := by
  induction n generalizing w with
  | zero => rw [squareTimes, pow_zero, pow_one]
  | succ n ih =>
    cases w with
    | zero =>
      have hzero : value (BitVec.ofNat 128 0) = 0 := value_zero
      rw [squareTimes, hzero, zero_pow (pow_pos two_pos _).ne']
    | succ w =>
      rw [squareTimes, ih, BitVec.ofNat_toNat, BitVec.setWidth_eq, value_mul, ← sq, ← pow_mul,
        ← pow_succ']

/-- The word for `x`. -/
def wordX : ℕ := 0x40000000000000000000000000000000

/-- The word for `x ^ 2 ^ 64`. -/
def wordY : ℕ := 0x6F9945A9E519A7229D4C1AD657F8A686

theorem squareTimes_wordX : squareTimes 64 wordX = wordY := by decide +kernel

theorem squareTimes_wordY : squareTimes 64 wordY = wordX := by decide +kernel

/-- The word for the inverse of what 64 squarings add to `x`. -/
def wordInverse : ℕ := 0x180DA934BF53158251C13DBB149F5279

theorem mul_wordInverse : mul (BitVec.ofNat 128 wordY ^^^ BitVec.ofNat 128 wordX)
    (BitVec.ofNat 128 wordInverse) = BitVec.ofNat 128 (1 <<< 127) := by decide +kernel

theorem value_wordX : value (BitVec.ofNat 128 wordX) = root := by
  have hbits : (Finset.range 128).filter (fun i => (BitVec.ofNat 128 wordX).getMsbD i) = {1} := by
    decide
  rw [value, evalBits_eq_pow hbits, pow_one]

theorem value_one : value (BitVec.ofNat 128 (1 <<< 127)) = 1 := by
  have hbits : (Finset.range 128).filter (fun i => (BitVec.ofNat 128 (1 <<< 127)).getMsbD i) =
      {0} := by decide
  rw [value, evalBits_eq_pow hbits, pow_zero]

theorem irreducible_modulus : Irreducible modulus := by
  have hcard : Nat.card (ZMod 2) = 2 := Nat.card_zmod 2
  have hy : value (BitVec.ofNat 128 wordY) = root ^ 2 ^ 64 := by
    rw [← squareTimes_wordX, value_squareTimes, value_wordX]
  have hx : root = root ^ 2 ^ 128 := by
    calc root = value (BitVec.ofNat 128 wordX) := value_wordX.symm
      _ = value (BitVec.ofNat 128 wordY) ^ 2 ^ 64 := by
        rw [← squareTimes_wordY, value_squareTimes]
      _ = root ^ 2 ^ 128 := by rw [hy, ← pow_mul, ← pow_add]
  have hunit : (root ^ 2 ^ 64 - root) * value (BitVec.ofNat 128 wordInverse) = 1 := by
    rw [← value_one, ← mul_wordInverse, value_mul, value_xor, hy, value_wordX,
      ZModModule.sub_eq_add]
  refine irreducible_of_root (p := 2) (m := 6) Nat.prime_two natDegree_modulus ?_ ?_
  · rw [hcard]
    exact hx.symm
  · rw [hcard]
    exact IsUnit.of_mul_eq_one _ hunit

/-- **There are no divisors of zero.** -/
theorem mul_eq_zero_iff {a b : Element} : mul a b = 0 ↔ a = 0 ∨ b = 0 := by
  have : Fact (Irreducible modulus) := ⟨irreducible_modulus⟩
  have hvalue (c : Element) : value c = 0 ↔ c = 0 := by
    rw [← value_zero, value_injective.eq_iff]
  rw [← hvalue, value_mul, mul_eq_zero, hvalue, hvalue]

end ObliviousStore.Galois128

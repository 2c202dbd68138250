/-
  The arithmetic of bytes behind the block cipher.

  A byte stands for a polynomial over two elements modulo `x^8 + x^4 + x^3 + x + 1`
  (`value`), and `mul` is the product of what its factors stand for (`value_mul`).  So an
  inverse, the power with exponent 254, is reached by eleven products (`inverse_eq_chain`),
  which makes the cipher short enough to be run on a block (`hashKey_zero`).
-/
import Mathlib.Tactic.ComputeDegree
import ObliviousStore.Engine.AesGcm
import ObliviousStore.Proofs.Cipher.Binary

namespace ObliviousStore.Aes256

open Polynomial Binary

noncomputable def modulus : (ZMod 2)[X] := X ^ 8 + (X ^ 4 + X ^ 3 + X + 1)

noncomputable abbrev root : AdjoinRoot modulus := AdjoinRoot.root modulus

theorem natDegree_modulus : modulus.natDegree = 8 := by
  unfold modulus
  compute_degree!

/-! ## What a byte stands for -/

/-- The lowest bit of a byte is the constant coefficient. -/
noncomputable def value (a : UInt8) : AdjoinRoot modulus := evalBits root 8 a.toNat.testBit

theorem value_xor (a b : UInt8) : value (a ^^^ b) = value a + value b := by
  rw [value, value, value, ← evalBits_xor]
  refine evalBits_congr fun i _ => ?_
  rw [UInt8.toNat_xor, Nat.testBit_xor]

theorem value_zero : value 0 = 0 := value_zero_of_xor UInt8.xor_self value_xor

theorem value_one : value 1 = 1 := by
  have hbits : (Finset.range 8).filter (fun i => (1 : UInt8).toNat.testBit i) = {0} := by decide
  rw [value, evalBits_eq_pow hbits, pow_zero]

theorem value_injective : Function.Injective value := by
  intro a b h
  apply UInt8.toNat_inj.1
  refine Nat.eq_of_testBit_eq fun i => ?_
  by_cases hi : i < 8
  · exact eq_of_evalBits_root natDegree_modulus (by decide) h hi
  · have hhigh (c : UInt8) : c.toNat.testBit i = false :=
      Nat.testBit_lt_two_pow (c.toNat_lt.trans_le (Nat.pow_le_pow_right two_pos (by omega)))
    rw [hhigh, hhigh]

theorem value_reduction : value 0x1b = root ^ 8 := by
  have hbits : (Finset.range 8).filter (fun i => (0x1b : UInt8).toNat.testBit i) =
      {4, 3, 1, 0} := by decide
  have hpow : root ^ 8 = AdjoinRoot.mk modulus (X ^ 4 + X ^ 3 + X + 1) := root_pow rfl
  rw [value, evalBits_eq_sum hbits, hpow]
  simp [add_assoc]

theorem value_double (a : UInt8) : value (double a) = root * value a := by
  have hshift : value (a <<< 1) = evalBits root 8 fun i =>
      decide (i ≠ 0) && a.toNat.testBit (i - 1) := by
    refine evalBits_congr fun i hi => ?_
    rw [UInt8.toNat_shiftLeft, Nat.testBit_mod_two_pow, Nat.testBit_shiftLeft]
    simp [hi, Nat.one_le_iff_ne_zero]
  have hhigh : a.toNat.testBit 7 = !decide (a < 128) := by
    have hlt := a.toNat_lt
    rw [Nat.testBit_eq_decide_div_mod_eq, ← decide_not, decide_eq_decide, UInt8.lt_iff_toNat_lt]
    simp
    omega
  have hstep : root * value a =
      value (a <<< 1) + if a.toNat.testBit 7 then root ^ 8 else 0 := by
    rw [value, hshift]
    exact mul_evalBits root 7 a.toNat.testBit
  rw [hstep, double, value_xor, hhigh]
  by_cases ha : a < 128
  · simp [ha, value_zero]
  · simp [ha, value_reduction]

theorem reading : Reading root double value := ⟨value_zero, value_xor, value_double⟩

theorem value_mul (a b : UInt8) : value (mul a b) = value a * value b :=
  reading.value_horner 8 a.toNat.testBit b

/-! ## Inverses -/

theorem value_inverse (a : UInt8) : value (inverse a) = value a ^ 254 := by
  have hpow (n : ℕ) (p : UInt8) :
      value ((List.replicate n a).foldl mul p) = value p * value a ^ n := by
    induction n generalizing p with
    | zero => rw [List.replicate_zero, List.foldl_nil, pow_zero, mul_one]
    | succ n ih => rw [List.replicate_succ, List.foldl_cons, ih, value_mul, mul_assoc, pow_succ']
  rw [inverse, hpow, value_one, one_mul]

/-- The power with exponent 254, by way of those with the exponents 3, 15 and 240. -/
def chain (a : UInt8) : UInt8 :=
  let square (b : UInt8) := mul b b
  let a2 := square a
  let a3 := mul a2 a
  let a12 := square (square a3)
  let a15 := mul a12 a3
  let a240 := square (square (square (square a15)))
  mul (mul a240 a12) a2

theorem inverse_eq_chain : inverse = chain := by
  funext a
  apply value_injective
  simp only [value_inverse, chain, value_mul]
  ring

/-! ## The cipher on the block of zeros -/

/-- Under the key of zeros, the point the hash is taken at. -/
theorem hashKey_zero (tape : Tape) :
    Gcm.hashKey (AesGcmEngine.cipher ⟨⟨Vector.replicate keySize 0⟩, tape⟩) =
      0xDC95C078A2408989AD48A21492842087#128 := by
  have hcipher : AesGcmEngine.cipher ⟨⟨Vector.replicate keySize 0⟩, tape⟩ =
      (Schedule.ofKey ⟨Vector.replicate keySize 0⟩).encrypt := rfl
  rw [hcipher]
  unfold Gcm.hashKey Schedule.encrypt Schedule.ofKey expandOnce lastRound round substitute
    substitution
  rw [inverse_eq_chain]
  decide +kernel

end ObliviousStore.Aes256

/-
  What the tag of a sealed form tells apart.

  A hash at a point that is not zero differs on lists that differ in one coefficient
  (`hash_ne_of_differsOnce`): no product with the point is lost.  The tag reads the
  associated data and the ciphertext in blocks of 16 bytes, so two ciphertexts that
  differ in one block have different tags (`tag_ne_of_ciphertext`), and so have two
  strings of associated data (`tag_ne_of_associated`).
-/
import Mathlib.Data.Nat.Digits.Defs
import ObliviousStore.Cipher.Gcm
import ObliviousStore.Proofs.Bucket.Packing
import ObliviousStore.Proofs.Cipher.Galois128

namespace ObliviousStore

/-- The lists have different members at one place and are the same before and after it. -/
inductive DiffersOnce {α : Type} : List α → List α → Prop
  | head {a b : α} (h : a ≠ b) (l : List α) : DiffersOnce (a :: l) (b :: l)
  | cons (a : α) {l l' : List α} (h : DiffersOnce l l') : DiffersOnce (a :: l) (a :: l')

namespace DiffersOnce

variable {α : Type} {l l' : List α}

theorem append_left (h : DiffersOnce l l') (m : List α) : DiffersOnce (m ++ l) (m ++ l') := by
  induction m with
  | nil => exact h
  | cons a m ih => exact .cons a ih

theorem append_right (h : DiffersOnce l l') (m : List α) : DiffersOnce (l ++ m) (l' ++ m) := by
  induction h with
  | head h l => exact .head h (l ++ m)
  | cons a h ih => exact .cons a ih

end DiffersOnce

namespace Galois128

/-! ## Bytes of an element -/

theorem foldl_eq_ofDigits (x : Bytes) :
    x.foldl (fun n b => 256 * n + b.toNat) 0 = Nat.ofDigits 256 (x.reverse.map UInt8.toNat) := by
  rw [List.foldl_eq_foldr_reverse]
  induction x.reverse with
  | nil => rfl
  | cons b l ih => rw [List.foldr_cons, ih, List.map_cons, Nat.ofDigits_cons, Nat.add_comm]

theorem toNat_mem_lt {x : Bytes} : ∀ d ∈ x.reverse.map UInt8.toNat, d < 256 := by
  intro d hd
  obtain ⟨b, -, rfl⟩ := List.mem_map.1 hd
  exact b.toNat_lt

theorem toNat_ofBytes {x : Bytes} (hx : x.length ≤ 16) : (ofBytes x).toNat =
    Nat.ofDigits 256 (x.reverse.map UInt8.toNat) * 256 ^ (16 - x.length) := by
  have hdigits := Nat.ofDigits_lt_base_pow_length (by decide : 1 < 256) (toNat_mem_lt (x := x))
  rw [List.length_map, List.length_reverse] at hdigits
  have hlt : Nat.ofDigits 256 (x.reverse.map UInt8.toNat) * 256 ^ (16 - x.length) < 2 ^ 128 := by
    calc _ < 256 ^ x.length * 256 ^ (16 - x.length) :=
          Nat.mul_lt_mul_of_pos_right hdigits (by positivity)
      _ = 256 ^ 16 := by rw [← pow_add, Nat.add_sub_cancel' hx]
      _ = 2 ^ 128 := (pow_mul 2 8 16).symm
  have hshift : 2 ^ (8 * (16 - x.length)) = 256 ^ (16 - x.length) := pow_mul 2 8 _
  rw [ofBytes, BitVec.toNat_ofNat, foldl_eq_ofDigits, Nat.shiftLeft_eq, hshift,
    Nat.mod_eq_of_lt hlt]

theorem ofBytes_injective {x y : Bytes} (hx : x.length ≤ 16) (hxy : x.length = y.length)
    (h : ofBytes x = ofBytes y) : x = y := by
  have hnat := congrArg BitVec.toNat h
  rw [toNat_ofBytes hx, toNat_ofBytes (hxy ▸ hx), ← hxy] at hnat
  have hmap := Nat.ofDigits_inj_of_len_eq (by decide) (by simpa using hxy) toNat_mem_lt
    toNat_mem_lt (Nat.eq_of_mul_eq_mul_right (by positivity) hnat)
  exact List.reverse_injective (List.map_injective_iff.2 (fun _ _ => UInt8.toNat_inj.1) hmap)

theorem toBytes_injective : Function.Injective toBytes := by
  intro a b h
  apply BitVec.eq_of_getLsbD_eq
  intro i hi
  have hbyte : 15 - i / 8 < 16 := by omega
  have hbit (c : Element) : (toBytes c)[15 - i / 8].toNat.testBit (i % 8) = c.getLsbD i := by
    have hshift : 8 * (15 - (15 - i / 8)) + i % 8 = i := by omega
    rw [toBytes, Vector.getElem_ofFn, UInt8.toNat_ofNat', Nat.testBit_mod_two_pow,
      Nat.testBit_shiftRight, hshift, BitVec.testBit_toNat]
    simp [Nat.mod_lt]
  rw [← hbit, ← hbit, h]

/-! ## Hashes at a point that is not zero -/

variable {h : Element}

theorem mul_left_injective (hh : h ≠ 0) : Function.Injective (mul · h) := by
  intro a b hab
  have hzero : mul (a ^^^ b) h = 0 := by
    apply value_injective
    rw [value_mul, value_xor, add_mul, ← value_mul, ← value_mul, value_zero]
    exact (congrArg (value (mul a h) + value ·) hab.symm).trans (ZModModule.add_self _)
  exact BitVec.xor_eq_zero_iff.1 ((mul_eq_zero_iff.1 hzero).resolve_right hh)

theorem foldl_hash_injective (hh : h ≠ 0) (l : List Element) :
    Function.Injective fun v => l.foldl (fun v c => mul (v ^^^ c) h) v := by
  induction l with
  | nil => exact fun _ _ => id
  | cons c l ih => exact fun v w hvw => (BitVec.xor_left_inj c).1 (mul_left_injective hh (ih hvw))

/-- A hash at a point that is not zero tells lists apart that differ once. -/
theorem hash_ne_of_differsOnce (hh : h ≠ 0) {l l' : List Element} (hl : DiffersOnce l l') :
    hash h l ≠ hash h l' := by
  unfold hash
  generalize (0 : Element) = v
  induction hl generalizing v with
  | head hab l =>
    exact fun heq =>
      hab ((BitVec.xor_right_inj _).1 (mul_left_injective hh (foldl_hash_injective hh l heq)))
  | cons c hl ih => exact ih (mul (v ^^^ c) h)

end Galois128

open Bytes

/-! ## Blocks of 16 bytes -/

theorem chunks_of_ne {n : Nat} (hn : n ≠ 0) {x y : Bytes} (hlength : x.length = y.length)
    (hxy : x ≠ y) : chunks n x = x.take n :: chunks n (x.drop n) := by
  have hx : x ≠ [] := by
    rintro rfl
    exact hxy (List.length_eq_zero_iff.1 hlength.symm).symm
  rw [chunks, if_neg (not_or.2 ⟨hn, hx⟩)]

/-- Strings of one length that differ within one block. -/
theorem differsOnce_chunks {x y : Bytes} {k : Nat} (hlength : x.length = y.length)
    (hoff : ∀ i, i / 16 ≠ k → x[i]? = y[i]?) (hxy : x ≠ y) :
    DiffersOnce ((chunks 16 x).map Galois128.ofBytes) ((chunks 16 y).map Galois128.ofBytes) := by
  induction k generalizing x y with
  | zero =>
    have hrest : x.drop 16 = y.drop 16 := by
      refine List.ext_getElem? fun i => ?_
      rw [List.getElem?_drop, List.getElem?_drop, hoff (16 + i) (by omega)]
    have hfirst : x.take 16 ≠ y.take 16 := fun h =>
      hxy (by rw [← List.take_append_drop 16 x, h, hrest, List.take_append_drop])
    rw [chunks_of_ne (by decide) hlength hxy, chunks_of_ne (by decide) hlength.symm hxy.symm,
      hrest]
    refine .head (mt (Galois128.ofBytes_injective ?_ ?_) hfirst) _
    · rw [List.length_take]
      omega
    · rw [List.length_take, List.length_take, hlength]
  | succ k ih =>
    have hfirst : x.take 16 = y.take 16 := by
      refine List.ext_getElem? fun i => ?_
      rw [List.getElem?_take, List.getElem?_take]
      split
      · exact hoff i (by omega)
      · rfl
    have hrest : x.drop 16 ≠ y.drop 16 := fun h =>
      hxy (by rw [← List.take_append_drop 16 x, h, hfirst, List.take_append_drop])
    rw [chunks_of_ne (by decide) hlength hxy, chunks_of_ne (by decide) hlength.symm hxy.symm,
      hfirst]
    refine .cons _ (ih ?_ (fun i hi => ?_) hrest)
    · rw [List.length_drop, List.length_drop, hlength]
    · rw [List.getElem?_drop, List.getElem?_drop, hoff (16 + i) (by omega)]

namespace Gcm

variable {cipher : CipherBlock → CipherBlock}

theorem tag_ne_of_differsOnce (hkey : hashKey cipher ≠ 0) (iv : Iv) {a a' x x' : Bytes}
    (h : DiffersOnce (hashInput a x) (hashInput a' x')) :
    tag cipher iv a x ≠ tag cipher iv a' x' := by
  intro heq
  have hsum := Galois128.toBytes_injective heq
  exact Galois128.hash_ne_of_differsOnce hkey h ((BitVec.xor_left_inj _).1 hsum)

/-- Ciphertexts of one length that differ within one block have different tags. -/
theorem tag_ne_of_ciphertext (hkey : hashKey cipher ≠ 0) (iv : Iv) (associated : Bytes)
    {x y : Bytes} {k : Nat} (hlength : x.length = y.length)
    (hoff : ∀ i, i / 16 ≠ k → x[i]? = y[i]?) (hxy : x ≠ y) :
    tag cipher iv associated x ≠ tag cipher iv associated y := by
  apply tag_ne_of_differsOnce hkey
  rw [hashInput, hashInput, List.map_append, List.map_append, hlength]
  exact ((differsOnce_chunks hlength hoff hxy).append_left _).append_right _

/-- So have strings of associated data, for the same ciphertext. -/
theorem tag_ne_of_associated (hkey : hashKey cipher ≠ 0) (iv : Iv) (ciphertext : Bytes)
    {a b : Bytes} {k : Nat} (hlength : a.length = b.length)
    (hoff : ∀ i, i / 16 ≠ k → a[i]? = b[i]?) (hab : a ≠ b) :
    tag cipher iv a ciphertext ≠ tag cipher iv b ciphertext := by
  apply tag_ne_of_differsOnce hkey
  rw [hashInput, hashInput, List.map_append, List.map_append, hlength]
  exact ((differsOnce_chunks hlength hoff hab).append_right _).append_right _

end Gcm

end ObliviousStore

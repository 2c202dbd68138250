/-
  Byte strings — the form in which everything leaves the client: lists of
  octets, the little-endian form of a 32-bit word, fixed fields cut out of a
  longer string, and the division of a string into pieces of one size.

  * `slice` is a field of known width, total because its bounds are part of
    its type;
  * `ofLittleEndian_littleEndian` and `littleEndian_ofLittleEndian`: a word and
    its four bytes determine each other;
  * `flatten_chunks`: cutting loses nothing, and `length_of_mem_chunks`: no
    piece is empty or longer than asked for.
-/
namespace ObliviousStore

/-- A string of octets. -/
abbrev Bytes := List UInt8

namespace Bytes

/-- The most bytes one buffer can hold. -/
def maxLength : Nat := 0x7FFFFFFFFFFFFFFF

/-! ## Fields of a fixed width -/

/-- The `n` bytes of `x` from position `i` on. -/
def slice (x : Bytes) (i n : Nat) (h : i + n ≤ x.length) : Vector UInt8 n :=
  ⟨((x.drop i).take n).toArray, by simp; omega⟩

@[simp] theorem toList_slice (x : Bytes) (i n : Nat) (h : i + n ≤ x.length) :
    (slice x i n h).toList = (x.drop i).take n := by
  simp [slice, Vector.toList]

theorem slice_eq {n : Nat} {x : Bytes} {i : Nat} {v : Vector UInt8 n} {rest : Bytes}
    (h : i + n ≤ x.length) (hx : x.drop i = v.toList ++ rest) : slice x i n h = v := by
  apply Vector.toList_inj.1
  rw [toList_slice, hx, List.take_left' Vector.length_toList]

/-! ## Words -/

/-- The four base-256 digits of a word, lowest first. -/
def littleEndian (w : UInt32) : Bytes :=
  [w.toNat, w.toNat / 256, w.toNat / 65536, w.toNat / 16777216].map UInt8.ofNat

/-- The word with the base-256 digits `x`, lowest first. -/
def ofLittleEndian (x : Bytes) : UInt32 :=
  UInt32.ofNat (x.foldr (fun b n => b.toNat + 256 * n) 0)

/-- The four base-256 digits of a word, highest first. -/
def bigEndian (w : UInt32) : Bytes := (littleEndian w).reverse

@[simp] theorem length_littleEndian (w : UInt32) : (littleEndian w).length = 4 := rfl

@[simp] theorem length_bigEndian (w : UInt32) : (bigEndian w).length = 4 := rfl

theorem ofLittleEndian_littleEndian (w : UInt32) : ofLittleEndian (littleEndian w) = w := by
  have := w.toNat_lt
  apply UInt32.toNat_inj.1
  simp only [ofLittleEndian, littleEndian, List.map_cons, List.map_nil, List.foldr_cons,
    List.foldr_nil, UInt8.toNat_ofNat', UInt32.toNat_ofNat']
  omega

theorem littleEndian_ofLittleEndian {x : Bytes} (h : x.length = 4) :
    littleEndian (ofLittleEndian x) = x := by
  match x, h with
  | [a, b, c, d], _ =>
    have ha := a.toNat_lt
    have hb := b.toNat_lt
    have hc := c.toNat_lt
    have hd := d.toNat_lt
    simp only [littleEndian, ofLittleEndian, List.foldr_cons, List.foldr_nil, List.map_cons,
      List.map_nil, UInt32.toNat_ofNat', List.cons.injEq, and_true, ← UInt8.toNat_inj,
      UInt8.toNat_ofNat']
    omega

/-! ## Pieces of one size -/

/-- Cuts `x` into pieces of `n` bytes, the last of which may be shorter; there
    are none when `n = 0`. -/
def chunks (n : Nat) (x : Bytes) : List Bytes :=
  if n = 0 ∨ x = [] then [] else x.take n :: chunks n (x.drop n)
termination_by x.length
decreasing_by
  rename_i h
  have : x.length ≠ 0 := fun e => h (.inr (List.length_eq_zero_iff.1 e))
  simp only [List.length_drop]
  omega

theorem flatten_chunks {n : Nat} (hn : n ≠ 0) (x : Bytes) : (chunks n x).flatten = x := by
  fun_induction chunks n x with
  | case1 x h => rcases h with h | h <;> simp_all
  | case2 x h ih => simp [ih]

theorem length_of_mem_chunks {n : Nat} {x c : Bytes} (h : c ∈ chunks n x) :
    0 < c.length ∧ c.length ≤ n := by
  fun_induction chunks n x with
  | case1 => simp at h
  | case2 x hx ih =>
    rcases List.mem_cons.1 h with rfl | h
    · have : x.length ≠ 0 := fun e => hx (.inr (List.length_eq_zero_iff.1 e))
      simp; omega
    · exact ih h

/-! ## Masks -/

/-- The bytewise exclusive or of `x` with a mask, as long as the shorter of the
    two. -/
def mask (x m : Bytes) : Bytes := List.zipWith (· ^^^ ·) x m

@[simp] theorem length_mask (x m : Bytes) : (mask x m).length = min x.length m.length := by
  simp [mask]

/-- A mask that covers a string and is put on twice leaves it as it was. -/
theorem mask_mask {x m : Bytes} (h : x.length ≤ m.length) : mask (mask x m) m = x := by
  induction x generalizing m with
  | nil => simp [mask]
  | cons a x ih =>
    cases m with
    | nil => simp at h
    | cons b m =>
      have := ih (m := m) (by simpa using h)
      simp only [mask] at this ⊢
      simp only [List.zipWith_cons_cons, this, UInt8.xor_assoc, UInt8.xor_self, UInt8.xor_zero]

end Bytes

end ObliviousStore

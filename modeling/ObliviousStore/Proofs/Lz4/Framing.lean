/-
  Reading a frame back — parsing undoes writing.

  A length is read back with the bytes behind it untouched (`takeLength_append`),
  and so is a sequence whose distance fits its two bytes (`takePiece_encode`);
  `Frame.parse_encode` is the induction over the sequences.
-/
import ObliviousStore.Lz4.Search

namespace ObliviousStore.Lz4

open Bytes

/-- A sequence with a distance that two bytes hold. -/
def Sequence.Writable (s : Sequence) : Prop := 0 < s.offset ∧ s.offset ≤ maxOffset

/-- A frame of writable sequences. -/
def Frame.Writable (f : Frame) : Prop := ∀ s ∈ f.sequences, s.Writable

/-! ## Lengths and tokens -/

theorem takeLength_append (n : Nat) (rest : Bytes) :
    takeLength (nibble n) (continued n ++ rest) = some (n, rest) := by
  unfold takeLength nibble continued
  by_cases h : n < 15
  · rw [if_neg (by omega), if_pos h, Nat.min_eq_left (by omega), List.nil_append]
  · rw [if_pos (by omega), if_neg h, takeCount_countBytes, Nat.add_sub_cancel' (by omega)]

theorem token_div (l m : Nat) : (token l m).toNat / 16 = nibble l := by
  simp only [token, nibble, UInt8.toNat_ofNat']
  omega

theorem token_mod (l m : Nat) : (token l m).toNat % 16 = nibble m := by
  simp only [token, nibble, UInt8.toNat_ofNat']
  omega

theorem takeExactly_append (x rest : Bytes) :
    takeExactly x.length (x ++ rest) = some (x, rest) := by
  simp [takeExactly]

/-! ## Pieces -/

theorem takeMatch_append {s : Sequence} (h : s.Writable) (literals rest : Bytes) :
    takeMatch literals (nibble s.extra)
        (UInt8.ofNat s.offset :: UInt8.ofNat (s.offset / 256) :: (continued s.extra ++ rest)) =
      some (.sequence ⟨literals, s.offset, s.extra⟩ rest) := by
  obtain ⟨hpos, hmax⟩ := h
  have hoffset : (UInt8.ofNat s.offset).toNat + 256 * (UInt8.ofNat (s.offset / 256)).toNat =
      s.offset := by
    have : maxOffset = 65535 := rfl
    simp only [UInt8.toNat_ofNat']
    omega
  simp only [takeMatch, hoffset]
  rw [if_neg (by omega), takeLength_append, Option.map_some]

theorem takePiece_encode {s : Sequence} (h : s.Writable) (rest : Bytes) :
    takePiece (s.encode ++ rest) = some (.sequence s rest) := by
  simp only [Sequence.encode, List.cons_append, List.append_assoc, List.nil_append, takePiece,
    token_div, token_mod, takeLength_append, takeExactly_append, Option.bind_eq_bind,
    Option.bind_some, List.isEmpty_cons, Bool.false_eq_true, if_false]
  exact takeMatch_append h s.literals rest

theorem takePiece_encodeTail (tail : Bytes) :
    takePiece (encodeTail tail) = some (.last tail) := by
  have hl := takeLength_append tail.length tail
  have ht := takeExactly_append tail []
  rw [List.append_nil] at ht
  simp only [encodeTail, List.cons_append, takePiece, token_div, hl, ht, Option.bind_eq_bind,
    Option.bind_some, List.isEmpty_nil, if_true, Option.pure_def]

/-! ## Frames -/

theorem parseAfter_encode (done : List Sequence) {sequences : List Sequence} (tail : Bytes)
    (h : ∀ s ∈ sequences, s.Writable) :
    parseAfter done (sequences.flatMap Sequence.encode ++ encodeTail tail) =
      some ⟨done.reverse ++ sequences, tail⟩ := by
  induction sequences generalizing done with
  | nil =>
    have hp := takePiece_encodeTail tail
    rw [List.flatMap_nil, List.nil_append, parseAfter]
    split <;> simp_all
  | cons s sequences ih =>
    have hp := takePiece_encode (h s (by simp))
      (sequences.flatMap Sequence.encode ++ encodeTail tail)
    rw [← List.append_assoc, ← List.flatMap_cons] at hp
    rw [parseAfter]
    split
    · simp_all
    · simp_all
    · rename_i s' rest hp'
      rw [hp', Option.some.injEq, Piece.sequence.injEq] at hp
      obtain ⟨rfl, rfl⟩ := hp
      rw [ih (s' :: done) fun s hs => h s (by simp [hs])]
      simp

/-- Parsing undoes writing. -/
theorem Frame.parse_encode {f : Frame} (h : f.Writable) : Frame.parse f.encode = some f := by
  rw [Frame.parse, Frame.encode, parseAfter_encode [] f.tail h]
  simp

end ObliviousStore.Lz4

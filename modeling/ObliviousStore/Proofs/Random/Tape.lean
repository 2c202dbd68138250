/-
  What is taken from a tape — intervals and words, one right after another.

  A number waits for the first word that is accepted (`Settles`), and a shuffle takes
  the words of its numbers in turn (`Spends`): however many are rejected, it uses the
  words from where the tape is up to where it leaves it (`drawShuffle_spends`).
-/
import ObliviousStore.Random.Shuffle

namespace ObliviousStore

/-! ## Intervals and words -/

namespace Tape

@[simp] theorem position_advance (t : Tape) (n : Nat) : (t.advance n).position = t.position + n := rfl

@[simp] theorem interval_advance (t : Tape) (m p n : Nat) :
    (t.advance m).interval p n = t.interval p n := rfl

@[simp] theorem advance_zero (t : Tape) : t.advance 0 = t := rfl

@[simp] theorem advance_advance (t : Tape) (m n : Nat) :
    (t.advance m).advance n = t.advance (m + n) := by
  simp only [advance, Nat.add_assoc]

/-- The next `k` intervals of `n` bytes. -/
def intervals (t : Tape) (n k : Nat) : List (Vector UInt8 n) :=
  (List.range k).map fun i => t.interval (t.position + n * i) n

theorem intervals_succ (t : Tape) (n k : Nat) :
    t.intervals n (k + 1) = t.interval t.position n :: (t.advance n).intervals n k := by
  simp only [intervals, List.range_succ_eq_map, List.map_cons, List.map_map, Nat.mul_zero,
    Nat.add_zero, interval_advance, position_advance]
  congr 1
  refine List.map_congr_left fun i _ => ?_
  rw [Function.comp_apply, Nat.mul_succ, Nat.add_assoc, Nat.add_comm n]

/-- The next `k` words. -/
def words (t : Tape) (k : Nat) : List UInt32 :=
  (t.intervals 4 k).map fun x => Bytes.ofLittleEndian x.toList

@[simp] theorem words_zero (t : Tape) : t.words 0 = [] := rfl

theorem words_succ (t : Tape) (k : Nat) : t.words (k + 1) = t.word.1 :: t.word.2.words k := by
  rw [words, intervals_succ, List.map_cons]
  rfl

@[simp] theorem length_words (t : Tape) (k : Nat) : (t.words k).length = k := by
  rw [words, List.length_map, intervals, List.length_map, List.length_range]

theorem words_add (t : Tape) (m k : Nat) :
    t.words (m + k) = t.words m ++ (t.advance (4 * m)).words k := by
  induction m generalizing t with
  | zero => rw [Nat.zero_add, words_zero, Nat.mul_zero, advance_zero, List.nil_append]
  | succ m ih =>
    have hrest : t.word.2.advance (4 * m) = t.advance (4 * (m + 1)) := by
      rw [word, advance_advance, Nat.mul_succ, Nat.add_comm]
    rw [Nat.succ_add, words_succ, words_succ, ih, hrest, List.cons_append]

end Tape

/-! ## Numbers and shuffles -/

/-- The words of one number below `r`: the first that is accepted is the last. -/
inductive Settles (r : Nat) : List UInt32 → Nat → Prop where
  | accepted {w : UInt32} {j : Nat} (h : accept? r w = some j) : Settles r [w] j
  | rejected {w : UInt32} {ws : List UInt32} {j : Nat} (h : accept? r w = none)
      (hs : Settles r ws j) : Settles r (w :: ws) j

/-- The words of the swaps of positions `i` down to 1. -/
inductive Spends : Nat → List UInt32 → Swaps → Prop where
  | done : Spends 0 [] []
  | swap {i j : Nat} {ws ws' : List UInt32} {swaps : Swaps} (h : Settles (i + 2) ws j)
      (hs : Spends i ws' swaps) : Spends (i + 1) (ws ++ ws') ((i + 1, j) :: swaps)

theorem drawBelow_settles (r attempts : Nat) (t : Tape) :
    ∃ k, (drawBelow r attempts t).2 = t.advance (4 * k) ∧
      ∀ j, (drawBelow r attempts t).1 = some j → Settles r (t.words k) j := by
  induction attempts generalizing t with
  | zero => exact ⟨0, rfl, fun j h => absurd h (by simp [drawBelow])⟩
  | succ attempts ih =>
    cases hw : accept? r t.word.1 with
    | some j =>
      have hdraw : drawBelow r (attempts + 1) t = (some j, t.word.2) := by simp only [drawBelow, hw]
      rw [hdraw]
      refine ⟨1, rfl, fun j' h => ?_⟩
      obtain rfl : j = j' := Option.some.inj h
      exact .accepted hw
    | none =>
      have hdraw : drawBelow r (attempts + 1) t = drawBelow r attempts t.word.2 := by
        simp only [drawBelow, hw]
      obtain ⟨k, ht, hj⟩ := ih t.word.2
      rw [hdraw]
      refine ⟨k + 1, ?_, fun j h => ?_⟩
      · rw [ht, Tape.word, Tape.advance_advance, Nat.mul_succ, Nat.add_comm]
      · rw [Tape.words_succ]
        exact .rejected hw (hj j h)

theorem drawSwaps_spends (i : Nat) (t : Tape) :
    ∃ k, (drawSwaps i t).2 = t.advance (4 * k) ∧
      ∀ swaps, (drawSwaps i t).1 = .ok swaps → Spends i (t.words k) swaps := by
  induction i generalizing t with
  | zero =>
    refine ⟨0, rfl, fun swaps h => ?_⟩
    obtain rfl : [] = swaps := Except.ok.inj h
    exact .done
  | succ i ih =>
    have hdraw := drawBelow_settles (i + 2) patience t
    rw [drawSwaps]
    generalize drawBelow (i + 2) patience t = d at hdraw ⊢
    obtain ⟨k, ht, hj⟩ := hdraw
    rcases d with ⟨_ | j, t₁⟩
    · exact ⟨k, ht, fun swaps h => absurd h (by simp)⟩
    · obtain rfl : t₁ = t.advance (4 * k) := ht
      have hrest := ih (t.advance (4 * k))
      simp only
      generalize drawSwaps i (t.advance (4 * k)) = d at hrest ⊢
      obtain ⟨m, ht', hswaps⟩ := hrest
      rw [Tape.advance_advance, ← Nat.mul_add] at ht'
      rcases d with ⟨err | swaps, t₂⟩
      · exact ⟨k + m, ht', fun swaps h => absurd h (by simp)⟩
      · refine ⟨k + m, ht', fun swaps' h => ?_⟩
        obtain rfl : (i + 1, j) :: swaps = swaps' := Except.ok.inj h
        rw [Tape.words_add]
        exact .swap (hj j rfl) (hswaps swaps rfl)

/-- A shuffle takes words from where the tape is, and a shuffle that succeeds is made
    of all that it took. -/
theorem drawShuffle_spends (n : Nat) (t : Tape) :
    ∃ k, (drawShuffle n t).2 = t.advance (4 * k) ∧
      ∀ swaps, (drawShuffle n t).1 = .ok swaps → Spends (n - 1) (t.words k) swaps :=
  drawSwaps_spends (n - 1) t

end ObliviousStore

/-
  What the search finds stands for the input — whatever the table of positions
  proposed.

  A match is worth what its bytes are: `Repeats d k p q` says that the bytes of
  `d` between `p` and `q` stand `k` bytes earlier as well, and then copying from
  `k` bytes back writes just these bytes (`copyBack_extract`).  The four bytes
  of a candidate and both of its extensions repeat (`repeats_sequenceAt`), so that
  the sequences found up to a position write the input up to that position;
  this is what the search carries on (`content_searchFrom`).
-/
import ObliviousStore.Proofs.Lz4.Expansion
import ObliviousStore.Proofs.Lz4.Framing

namespace ObliviousStore.Lz4

open Bytes

/-- The bytes from `p` up to `q` stand `k` bytes earlier as well. -/
def Repeats (d : Array UInt8) (k p q : Nat) : Prop :=
  ∀ i, p ≤ i → i < q → d.getD i 0 = d.getD (i - k) 0

theorem Repeats.append {d : Array UInt8} {k p q r : Nat} (h₁ : Repeats d k p q)
    (h₂ : Repeats d k q r) : Repeats d k p r := by
  intro i hp hr
  by_cases hq : i < q
  · exact h₁ i hp hq
  · exact h₂ i (by omega) hr

/-! ## Candidates and their extensions -/

theorem repeats_sameFour {d : Array UInt8} {p q : Nat} (hq : q ≤ p) (h : sameFour d q p) :
    Repeats d (p - q) p (p + 4) := by
  simp only [sameFour, Bool.and_eq_true, beq_iff_eq] at h
  obtain ⟨⟨⟨h0, h1⟩, h2⟩, h3⟩ := h
  intro i hp hi
  obtain rfl | rfl | rfl | rfl : i = p ∨ i = p + 1 ∨ i = p + 2 ∨ i = p + 3 := by omega
  · rw [← h0, Nat.sub_sub_self hq]
  · rw [← h1, show p + 1 - (p - q) = q + 1 by omega]
  · rw [← h2, show p + 2 - (p - q) = q + 2 by omega]
  · rw [← h3, show p + 3 - (p - q) = q + 3 by omega]

theorem repeats_extendBack {d : Array UInt8} {p q : Nat} (room : Nat) (hq : q ≤ p)
    (hr : room ≤ q) :
    Repeats d (p - q) (extendBack d p q room) p := by
  induction room generalizing p q with
  | zero => intro i hp hi; rw [extendBack] at hp; omega
  | succ room ih =>
    rw [extendBack]
    split
    · rename_i he
      have hrest := ih (p := p - 1) (q := q - 1) (by omega) (by omega)
      rw [show p - 1 - (q - 1) = p - q by omega] at hrest
      refine hrest.append fun i hp hi => ?_
      obtain rfl : i = p - 1 := by omega
      rw [show p - 1 - (p - q) = q - 1 by omega]
      exact beq_iff_eq.1 he
    · intro i hp hi; omega

theorem repeats_extendOn {d : Array UInt8} {p q : Nat} (room : Nat) (hq : q ≤ p) :
    Repeats d (p - q) p (extendOn d p q room) := by
  induction room generalizing p q with
  | zero => intro i hp hi; rw [extendOn] at hi; omega
  | succ room ih =>
    rw [extendOn]
    split
    · rename_i he
      have hrest := ih (p := p + 1) (q := q + 1) (by omega)
      rw [Nat.add_sub_add_right] at hrest
      refine Repeats.append (q := p + 1) (fun i hp hi => ?_) hrest
      obtain rfl : i = p := by omega
      rw [Nat.sub_sub_self hq]
      exact beq_iff_eq.1 he
    · intro i hp hi; omega

/-! ## Copying -/

theorem getD_extract {d : Array UInt8} {i p : Nat} (hi : i < p) (hp : p ≤ d.size) :
    (d.extract 0 p).getD i 0 = d.getD i 0 := by
  rw [Array.getD_eq_getD_getElem?, Array.getD_eq_getD_getElem?,
    Array.getElem?_extract_of_lt (by omega), Array.getElem?_eq_getElem (by omega)]
  simp only [Nat.zero_add]

/-- Copying bytes that repeat writes the next bytes, also where the copy reaches
    into what it writes. -/
theorem copyBack_extract {d : Array UInt8} {k p : Nat} (n : Nat) (hk : 0 < k) (hp : k ≤ p)
    (hn : p + n ≤ d.size) (h : Repeats d k p (p + n)) :
    copyBack (d.extract 0 p) k n = d.extract 0 (p + n) := by
  induction n generalizing p with
  | zero => rfl
  | succ n ih =>
    have hsize : (d.extract 0 p).size = p := by rw [Array.size_extract_of_le (by omega)]; omega
    have hbyte : (d.extract 0 p).getD (p - k) 0 = d[p] := by
      rw [getD_extract (by omega) (by omega), ← h p (Nat.le_refl p) (by omega),
        Array.getD_eq_getD_getElem?, Array.getElem?_eq_getElem (by omega), Option.getD_some]
    rw [copyBack, hsize, hbyte, Array.push_extract_getElem (by omega), Nat.min_eq_left (by omega),
      ih (by omega) (by omega) fun i hi hi' => h i (by omega) (by omega)]
    congr 1
    omega

/-! ## Sequences -/

/-- Where the match of a sequence begins and ends. -/
theorem sequenceAt_bound {d : Array UInt8} {start p q : Nat} (hs : start ≤ p)
    (hd : p + 12 ≤ d.size) :
    let first := extendBack d p q (min q (p - start))
    start ≤ first ∧ p - q ≤ first ∧ first ≤ p ∧ first + minMatch ≤ (sequenceAt d start p q).2 ∧
      (sequenceAt d start p q).2 ≤ d.size := by
  intro first
  have hm : minMatch = 4 := rfl
  have hstop : (sequenceAt d start p q).2 = extendOn d (first + minMatch)
    (first + minMatch - (p - q)) (d.size - 6 - (first + minMatch)) := rfl
  have hfirst := extendBack_bound d p q (min q (p - start))
  have hon := extendOn_bound d (first + minMatch) (first + minMatch - (p - q))
    (d.size - 6 - (first + minMatch))
  rw [← hstop] at hon
  omega

theorem repeats_sequenceAt {d : Array UInt8} {p q : Nat} (start : Nat) (hq : q < p)
    (h : sameFour d q p) :
    Repeats d (p - q) (extendBack d p q (min q (p - start))) (sequenceAt d start p q).2 := by
  have hm : minMatch = 4 := rfl
  have hback := repeats_extendBack (d := d) (p := p) (min q (p - start)) (Nat.le_of_lt hq)
    (Nat.min_le_left q _)
  obtain ⟨hlow, hhigh⟩ := extendBack_bound d p q (min q (p - start))
  simp only [sequenceAt]
  generalize extendBack d p q (min q (p - start)) = first at *
  have hfour : Repeats d (p - q) first (first + minMatch) := fun i hi hi' =>
    hback.append (repeats_sameFour (by omega) h) i hi (by omega)
  have hon := repeats_extendOn (d := d) (p := first + minMatch) (q := first + minMatch - (p - q))
    (d.size - 6 - (first + minMatch)) (by omega)
  rw [Nat.sub_sub_self (by omega)] at hon
  exact hfour.append hon

/-- The sequence of a match takes the output on from where its literals begin to
    where the match ends. -/
theorem write_sequenceAt {d : Array UInt8} {start p q : Nat} (hs : start ≤ p)
    (hd : p + 12 ≤ d.size) (hq : q < p) (h : sameFour d q p) :
    (sequenceAt d start p q).1.write (d.extract 0 start) =
      some (d.extract 0 (sequenceAt d start p q).2) := by
  have hrep := repeats_sequenceAt start hq h
  obtain ⟨h₁, h₂, h₃, h₄, h₅⟩ := sequenceAt_bound (q := q) hs hd
  have hliterals : d.extract 0 start ++
      (d.extract start (extendBack d p q (min q (p - start)))).toList.toArray =
        d.extract 0 (extendBack d p q (min q (p - start))) := by
    rw [Array.toArray_toList, Array.extract_append_extract, Nat.min_eq_left (by omega),
      Nat.max_eq_right h₁]
  have hlength : (sequenceAt d start p q).1.extra + minMatch =
      (sequenceAt d start p q).2 - extendBack d p q (min q (p - start)) := by
    simp only [sequenceAt] at h₄ ⊢
    omega
  rw [Sequence.write, hlength]
  simp only [sequenceAt, hliterals] at hrep h₄ h₅ ⊢
  rw [if_pos (by rw [Array.size_extract_of_le (by omega)]; omega),
    copyBack_extract _ (by omega) h₂ (by omega) (by rwa [Nat.add_sub_cancel' (by omega)]),
    Nat.add_sub_cancel' (by omega)]

/-! ## The search -/

/-- The sequences found so far write the input up to where the search goes on. -/
theorem content_searchFrom {d : Array UInt8} {t : Table} {done : List Sequence} {start p : Nat}
    (h : start ≤ p) (hs : start ≤ d.size)
    (hdone : done.reverse.foldlM Sequence.write #[] = some (d.extract 0 start)) :
    (searchFrom d t done start p h).content? = some d.toList := by
  fun_induction searchFrom d t done start p h with
  | case1 t done start p h _ =>
    simp only [Frame.content?, hdone, Option.map_some, Option.some.injEq]
    rw [← Array.toList_append, Array.extract_append_extract]
    simp [Nat.max_eq_right hs]
  | case2 t done start p h p' q t' hf found ih =>
    obtain ⟨hd, hp, hq, -, hsame⟩ := findMatch_bound hf
    have hstart : start ≤ p' := Nat.le_trans h hp
    have hwrite := write_sequenceAt hstart hd hq hsame
    refine ih (sequenceAt_bound hstart hd).2.2.2.2 ?_
    rw [List.reverse_cons, List.foldlM_append, hdone]
    simp only [List.foldlM_cons, List.foldlM_nil, Option.bind_eq_bind, Option.bind_some, found,
      hwrite, Option.pure_def]

theorem writable_searchFrom {d : Array UInt8} {t : Table} {done : List Sequence} {start p : Nat}
    (h : start ≤ p) (hdone : ∀ s ∈ done, s.Writable) :
    (searchFrom d t done start p h).Writable := by
  fun_induction searchFrom d t done start p h with
  | case1 => exact fun s hs => hdone s (List.mem_reverse.1 hs)
  | case2 t done start p h p' q t' hf found ih =>
    obtain ⟨-, -, hq, hmax, -⟩ := findMatch_bound hf
    refine ih fun s hs => ?_
    rcases List.mem_cons.1 hs with rfl | hs
    · exact ⟨Nat.sub_pos_of_lt hq, hmax⟩
    · exact hdone s hs

/-- The frame of a string stands for the string. -/
theorem content_search (x : Bytes) : (Frame.search x).content? = some x := by
  unfold Frame.search
  simp only
  split
  · simp [Frame.content?]
  · rw [content_searchFrom _ (Nat.zero_le _) (by simp)]

theorem writable_search (x : Bytes) : (Frame.search x).Writable := by
  unfold Frame.search
  simp only
  split
  · simp [Frame.Writable]
  · exact writable_searchFrom _ (by simp)

end ObliviousStore.Lz4

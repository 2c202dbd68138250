/-
  Shuffles are drawn without bias.

  For each of its numbers a shuffle passes over words that are rejected and takes one
  that is accepted: the words taken (`Tape.Offers`) alone decide what it does
  (`drawSwaps_eq_ok_iff`).  Whatever they are, the shuffle permutes its items
  (`exists_applies`), and every permutation is made by as many sequences of accepted
  words as every other (`ncard_realising`).
-/
import Mathlib.Algebra.BigOperators.Group.Finset.Basic
import ObliviousStore.Proofs.Random.Acceptance
import ObliviousStore.Proofs.Random.Permutation
import ObliviousStore.Proofs.Random.Tape

namespace ObliviousStore

variable {n : Nat}

/-! ## The words that are taken -/

/-- The numbers that a sequence of words stands for, if all of them are accepted: the
    first word is for the last position. -/
def numbers? : List UInt32 → Option (List Nat)
  | [] => some []
  | w :: ws => (accept? (ws.length + 2) w).bind fun j => (numbers? ws).map (j :: ·)

theorem numbers?_cons_eq_some_iff {w : UInt32} {ws : List UInt32} {js : List Nat} :
    numbers? (w :: ws) = some js ↔
      ∃ j js', accept? (ws.length + 2) w = some j ∧ numbers? ws = some js' ∧ j :: js' = js := by
  simp only [numbers?, Option.bind_eq_some_iff, Option.map_eq_some_iff]
  constructor
  · rintro ⟨j, hj, js', hjs, rfl⟩
    exact ⟨j, js', hj, hjs, rfl⟩
  · rintro ⟨j, js', hj, hjs, rfl⟩
    exact ⟨j, hj, js', hjs, rfl⟩

/-- The words that a shuffle takes from a tape, and the tape after them: for each
    number, `k` words are rejected and the next one is accepted. -/
inductive Tape.Offers : Tape → List UInt32 → Tape → Prop where
  | done (t : Tape) : Offers t [] t
  | word {t t₁ t' : Tape} {w : UInt32} {ws : List UInt32} {k j : Nat} (hfew : k < patience)
      (hrejected : ∀ v ∈ t.words k, accept? (ws.length + 2) v = none)
      (hword : (t.advance (4 * k)).word = (w, t₁))
      (haccepted : accept? (ws.length + 2) w = some j) (h : Offers t₁ ws t') :
      Offers t (w :: ws) t'

/-- A number is drawn if one of the words tried is accepted, and it is the first of
    them. -/
theorem drawBelow_eq_some_iff {r attempts j : Nat} {t t' : Tape} :
    drawBelow r attempts t = (some j, t') ↔
      ∃ k w, k < attempts ∧ (∀ v ∈ t.words k, accept? r v = none) ∧
        (t.advance (4 * k)).word = (w, t') ∧ accept? r w = some j := by
  induction attempts generalizing t with
  | zero =>
    constructor
    · intro h
      exact absurd (congrArg Prod.fst h) (by simp [drawBelow])
    · rintro ⟨k, w, hk, -⟩
      exact absurd hk (Nat.not_lt_zero k)
  | succ attempts ih =>
    have hrest (k : Nat) : t.word.2.advance (4 * k) = t.advance (4 * (k + 1)) := by
      rw [Tape.word, Tape.advance_advance, Nat.mul_succ, Nat.add_comm]
    cases hw : accept? r t.word.1 with
    | some i =>
      have hdraw : drawBelow r (attempts + 1) t = (some i, t.word.2) := by
        simp only [drawBelow, hw]
      rw [hdraw]
      constructor
      · intro h
        obtain ⟨hj, rfl⟩ := Prod.mk.inj h
        exact ⟨0, t.word.1, Nat.succ_pos _, fun v hv => absurd hv (by simp), rfl, hw.trans hj⟩
      · rintro ⟨k, w, -, hrejected, hword, hj⟩
        cases k with
        | zero =>
          obtain ⟨rfl, rfl⟩ := Prod.mk.inj hword
          exact Prod.ext (hw.symm.trans hj) rfl
        | succ k =>
          rw [Tape.words_succ] at hrejected
          exact absurd (hw.symm.trans (hrejected _ List.mem_cons_self)) (by simp)
    | none =>
      have hdraw : drawBelow r (attempts + 1) t = drawBelow r attempts t.word.2 := by
        simp only [drawBelow, hw]
      rw [hdraw, ih]
      constructor
      · rintro ⟨k, w, hk, hrejected, hword, hj⟩
        rw [hrest] at hword
        refine ⟨k + 1, w, Nat.succ_lt_succ hk, ?_, hword, hj⟩
        rw [Tape.words_succ]
        exact List.forall_mem_cons.2 ⟨hw, hrejected⟩
      · rintro ⟨k, w, hk, hrejected, hword, hj⟩
        cases k with
        | zero =>
          obtain ⟨rfl, rfl⟩ := Prod.mk.inj hword
          exact absurd (hw.symm.trans hj) (by simp)
        | succ k =>
          rw [Tape.words_succ] at hrejected
          rw [← hrest] at hword
          exact ⟨k, w, Nat.lt_of_succ_lt_succ hk, (List.forall_mem_cons.1 hrejected).2, hword, hj⟩

theorem length_of_numbers? {ws : List UInt32} {js : List Nat} (h : numbers? ws = some js) :
    js.length = ws.length := by
  induction ws generalizing js with
  | nil =>
    obtain rfl : [] = js := Option.some.inj h
    rfl
  | cons w ws ih =>
    obtain ⟨j, js, -, hjs, rfl⟩ := numbers?_cons_eq_some_iff.1 h
    rw [List.length_cons, List.length_cons, ih hjs]

/-- The swaps of a shuffle are those of the numbers that the words taken stand for. -/
theorem drawSwaps_eq_ok_iff {i : Nat} {t t' : Tape} {swaps : Swaps} :
    drawSwaps i t = (.ok swaps, t') ↔
      ∃ ws js, ws.length = i ∧ t.Offers ws t' ∧ numbers? ws = some js ∧
        Swaps.ofNumbers js = swaps := by
  induction i generalizing t swaps with
  | zero =>
    constructor
    · intro h
      obtain ⟨hswaps, rfl⟩ := Prod.mk.inj h
      exact ⟨[], [], rfl, .done t, rfl, Except.ok.inj hswaps⟩
    · rintro ⟨ws, js, hlength, hoffers, hjs, rfl⟩
      obtain rfl := List.length_eq_zero_iff.1 hlength
      obtain rfl : [] = js := Option.some.inj hjs
      cases hoffers
      rfl
  | succ i ih =>
    constructor
    · intro h
      rw [drawSwaps] at h
      rcases hdraw : drawBelow (i + 2) patience t with ⟨_ | j, t₁⟩
      · rw [hdraw] at h
        exact absurd (congrArg Prod.fst h) (by simp)
      · simp only [hdraw] at h
        rcases hrest : drawSwaps i t₁ with ⟨err | swaps', t₂⟩
        · rw [hrest] at h
          exact absurd (congrArg Prod.fst h) (by simp)
        · rw [hrest] at h
          obtain ⟨hswaps, rfl⟩ := Prod.mk.inj h
          obtain rfl : (i + 1, j) :: swaps' = swaps := Except.ok.inj hswaps
          obtain ⟨k, w, hk, hrejected, hword, hj⟩ := drawBelow_eq_some_iff.1 hdraw
          obtain ⟨ws, js, rfl, hoffers, hjs, rfl⟩ := ih.1 hrest
          refine ⟨w :: ws, j :: js, rfl, .word hk hrejected hword hj hoffers, ?_, ?_⟩
          · exact numbers?_cons_eq_some_iff.2 ⟨j, js, hj, hjs, rfl⟩
          · rw [Swaps.ofNumbers, length_of_numbers? hjs]
    · rintro ⟨ws, js, hlength, hoffers, hjs, rfl⟩
      cases hoffers with
      | done => exact absurd hlength (by simp)
      | @word _ t₁ _ w ws k j hk hrejected hword hj hrest =>
        obtain rfl : ws.length = i := Nat.succ.inj hlength
        obtain ⟨j', js', hj', hjs', rfl⟩ := numbers?_cons_eq_some_iff.1 hjs
        obtain rfl : j = j' := Option.some.inj (hj.symm.trans hj')
        have hdraw := drawBelow_eq_some_iff.2 ⟨k, w, hk, hrejected, hword, hj⟩
        rw [drawSwaps, hdraw]
        simp only [ih.2 ⟨ws, js', rfl, hrest, hjs', rfl⟩]
        rw [Swaps.ofNumbers, length_of_numbers? hjs']

/-! ## The permutation they make -/

theorem atOrBefore_of_numbers? {ws : List UInt32} {js : List Nat} (h : numbers? ws = some js) :
    Swaps.AtOrBefore js := by
  induction ws generalizing js with
  | nil =>
    obtain rfl : [] = js := Option.some.inj h
    trivial
  | cons w ws ih =>
    obtain ⟨j, js, hj, hjs, rfl⟩ := numbers?_cons_eq_some_iff.1 h
    refine ⟨?_, ih hjs⟩
    rw [length_of_numbers? hjs]
    exact Nat.le_of_lt_succ (lt_of_accept? hj)

/-- The sequences of accepted words with which a shuffle of `n` items applies a
    permutation. -/
def Realising (σ : Equiv.Perm (Fin n)) : Set (List UInt32) :=
  {ws | ws.length = n - 1 ∧ ∃ js, numbers? ws = some js ∧ (Swaps.ofNumbers js).Applies σ}

/-- A shuffle applies a permutation if it takes words that realise it. -/
theorem drawShuffle_applies_iff (σ : Equiv.Perm (Fin n)) (t t' : Tape) :
    (∃ swaps, drawShuffle n t = (.ok swaps, t') ∧ swaps.Applies σ) ↔
      ∃ ws ∈ Realising σ, t.Offers ws t' := by
  constructor
  · rintro ⟨swaps, hdraw, happlies⟩
    obtain ⟨ws, js, hlength, hoffers, hjs, rfl⟩ := drawSwaps_eq_ok_iff.1 hdraw
    exact ⟨ws, ⟨hlength, js, hjs, happlies⟩, hoffers⟩
  · rintro ⟨ws, ⟨hlength, js, hjs, happlies⟩, hoffers⟩
    exact ⟨_, drawSwaps_eq_ok_iff.2 ⟨ws, js, hlength, hoffers, hjs, rfl⟩, happlies⟩

theorem exists_applies_of_drawShuffle {t t' : Tape} {swaps : Swaps}
    (h : drawShuffle n t = (.ok swaps, t')) : ∃ σ : Equiv.Perm (Fin n), swaps.Applies σ := by
  obtain ⟨ws, js, hlength, -, hjs, rfl⟩ := drawSwaps_eq_ok_iff.1 h
  exact Swaps.exists_applies ((length_of_numbers? hjs).trans hlength) (atOrBefore_of_numbers? hjs)

/-! ## Counting them -/

/-- The sequences of words that stand for some numbers, one choice for each. -/
theorem ncard_numbers? {js : List Nat} (hjs : Swaps.AtOrBefore js)
    (hlength : js.length + 1 < UInt32.size) :
    {ws | numbers? ws = some js}.ncard = ∏ i ∈ Finset.range js.length, 2 ^ leadingZeros (i + 2) := by
  induction js with
  | nil =>
    have hnil : {ws | numbers? ws = some []} = {[]} := by
      ext ws
      constructor
      · intro h
        exact List.length_eq_zero_iff.1 (length_of_numbers? h).symm
      · rintro rfl
        rfl
    rw [hnil, Set.ncard_singleton]
    rfl
  | cons j js ih =>
    obtain ⟨hj, hjs⟩ := hjs
    have himage : {ws | numbers? ws = some (j :: js)} = (fun p => p.1 :: p.2) ''
        ({w | accept? (js.length + 2) w = some j} ×ˢ {ws | numbers? ws = some js}) := by
      ext ws
      constructor
      · intro h
        cases ws with
        | nil => exact absurd (length_of_numbers? h) (by simp)
        | cons w ws =>
          obtain ⟨j', js', hw, hws, heq⟩ := numbers?_cons_eq_some_iff.1 h
          obtain ⟨rfl, rfl⟩ := List.cons_eq_cons.1 heq
          rw [← length_of_numbers? hws] at hw
          exact ⟨(w, ws), ⟨hw, hws⟩, rfl⟩
      · rintro ⟨⟨w, ws⟩, ⟨hw, hws⟩, rfl⟩
        refine numbers?_cons_eq_some_iff.2 ⟨j, js, ?_, hws, rfl⟩
        rwa [← length_of_numbers? hws]
    have hinjective : Function.Injective fun p : UInt32 × List UInt32 => p.1 :: p.2 := by
      rintro ⟨w, ws⟩ ⟨w', ws'⟩ h
      obtain ⟨rfl, rfl⟩ := List.cons_eq_cons.1 h
      rfl
    rw [List.length_cons] at hlength
    rw [himage, Set.ncard_image_of_injective _ hinjective, Set.ncard_prod,
      ncard_accept? (by omega) hlength (by omega), ih hjs (by omega), List.length_cons,
      Finset.prod_range_succ, Nat.mul_comm]

/-- Every permutation is realised by as many sequences of accepted words. -/
theorem ncard_realising (hn : n < UInt32.size) (σ : Equiv.Perm (Fin n)) :
    (Realising σ).ncard = ∏ i ∈ Finset.range (n - 1), 2 ^ leadingZeros (i + 2) := by
  obtain ⟨js, ⟨hlength, hjs, happlies⟩, hunique⟩ := Swaps.existsUnique_ofNumbers σ
  have hset : Realising σ = {ws | numbers? ws = some js} := by
    ext ws
    constructor
    · rintro ⟨hws, js', hjs', happlies'⟩
      obtain rfl := hunique js' ⟨(length_of_numbers? hjs').trans hws, atOrBefore_of_numbers? hjs',
        happlies'⟩
      exact hjs'
    · intro h
      exact ⟨(length_of_numbers? h).symm.trans hlength, js, h, happlies⟩
  have hsmall : js.length + 1 < UInt32.size := by
    simp only [UInt32.size] at hn ⊢
    omega
  rw [hset, ncard_numbers? hjs hsmall, hlength]

end ObliviousStore

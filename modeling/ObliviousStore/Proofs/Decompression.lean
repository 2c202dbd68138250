/-
  Decompression under a bound (`decompress_bound_is_cutoff`).

  Whatever the bytes, what they expand to is told without a bound (`expansion?`).  The
  bound is compared with its length and makes no other difference: a bound that has room
  for it gives all of it, and any other fails with that bound (`decompress_eq_ok_iff`).
-/
import ObliviousStore.Proofs.Compression

namespace ObliviousStore

open Bytes Lz4

/-- The string that compressed bytes stand for, if they stand for one. -/
def expansion? (c : Bytes) : Option Bytes := (Frame.parse c).bind Frame.content?

theorem expansion?_eq_some_iff {c x : Bytes} :
    expansion? c = some x ↔ ∃ f, Frame.parse c = some f ∧ f.content? = some x :=
  Option.bind_eq_some_iff

/-! ## One bound -/

variable {c x : Bytes} {bound : Nat}

theorem decompress_eq_ok_iff (hb : bound ≤ maxLength) :
    decompress c bound = .ok x ↔ expansion? c = some x ∧ x ≠ [] ∧ x.length ≤ bound := by
  constructor
  · intro h
    unfold decompress at h
    rw [if_neg (Nat.not_lt.2 hb)] at h
    split at h
    · rename_i b rest hexpand
      obtain rfl : b :: rest = x := Except.ok.inj h
      obtain ⟨f, hf, hfx⟩ := Option.bind_eq_some_iff.1 hexpand
      obtain ⟨hcontent, hlength⟩ := Frame.expand_eq_some.1 hfx
      exact ⟨expansion?_eq_some_iff.2 ⟨f, hf, hcontent⟩, List.cons_ne_nil b rest, hlength⟩
    · exact absurd h (by simp)
  · rintro ⟨hx, hne, hlength⟩
    obtain ⟨f, hf, hcontent⟩ := expansion?_eq_some_iff.1 hx
    rw [decompress_of_content bound hf hcontent, if_neg (Nat.not_lt.2 hb), if_pos ⟨hne, hlength⟩]

/-- What does not succeed fails with its bound. -/
theorem decompress_eq_error_of_forall (hb : bound ≤ maxLength)
    (h : ∀ x, decompress c bound ≠ .ok x) : decompress c bound = .error (.decompression bound) := by
  unfold decompress at h ⊢
  rw [if_neg (Nat.not_lt.2 hb)] at h ⊢
  split
  · rename_i b rest hexpand
    rw [hexpand] at h
    exact absurd rfl (h (b :: rest))
  · rfl

/-! ## All bounds -/

/-- A string that is not empty is let through by the bounds that have room for it. -/
theorem decompress_of_expansion (hx : expansion? c = some x) (hne : x ≠ [])
    (hb : bound ≤ maxLength) :
    decompress c bound =
      if x.length ≤ bound then .ok x else .error (.decompression bound) := by
  split
  · rename_i hlength
    exact (decompress_eq_ok_iff hb).2 ⟨hx, hne, hlength⟩
  · rename_i hlength
    refine decompress_eq_error_of_forall hb fun y hy => hlength ?_
    obtain ⟨hy, -, hle⟩ := (decompress_eq_ok_iff hb).1 hy
    obtain rfl : x = y := Option.some.inj (hx.symm.trans hy)
    exact hle

/-- **A bound is only a cutoff.**  What comes out under one bound is not empty, lies within
    that bound, and comes out under every other bound that has room for it; without room the
    failure names the bound.  So the same string comes out whatever bound has room for it, or
    nothing comes out under any: what the bytes stand for decides which. -/
theorem decompress_bound_is_cutoff (c : Bytes) :
    (∀ b₁ b₂ x, b₁ ≤ maxLength → b₂ ≤ maxLength → decompress c b₁ = .ok x →
      x ≠ [] ∧ x.length ≤ b₁ ∧
        decompress c b₂ = if x.length ≤ b₂ then .ok x else .error (.decompression b₂)) ∧
    ((∃ x, expansion? c = some x ∧ x ≠ [] ∧ x.length ≤ maxLength ∧ ∀ b ≤ maxLength,
        decompress c b = if x.length ≤ b then .ok x else .error (.decompression b)) ∨
      (∀ x, expansion? c = some x → x = [] ∨ maxLength < x.length) ∧
        ∀ b ≤ maxLength, decompress c b = .error (.decompression b)) := by
  constructor
  · intro b₁ b₂ x h₁ h₂ h
    obtain ⟨hx, hne, hlength⟩ := (decompress_eq_ok_iff h₁).1 h
    exact ⟨hne, hlength, decompress_of_expansion hx hne h₂⟩
  · by_cases h : ∃ x, expansion? c = some x ∧ x ≠ [] ∧ x.length ≤ maxLength
    · obtain ⟨x, hx, hne, hfits⟩ := h
      exact .inl ⟨x, hx, hne, hfits, fun b hb => decompress_of_expansion hx hne hb⟩
    · right
      constructor
      · intro x hx
        rcases Nat.lt_or_ge maxLength x.length with hlarge | hfits
        · exact .inr hlarge
        · exact .inl (Decidable.byContradiction fun hne => h ⟨x, hx, hne, hfits⟩)
      · intro b hb
        refine decompress_eq_error_of_forall hb fun x hok => h ?_
        obtain ⟨hx, hne, hlength⟩ := (decompress_eq_ok_iff hb).1 hok
        exact ⟨x, hx, hne, Nat.le_trans hlength hb⟩

/-- A match that reaches into the bytes it is writing: eight bytes come out under a bound of
    eight, and a bound of seven fails. -/
theorem decompress_bound_is_cutoff_overlap :
    let c : Bytes := [0x12, 7, 1, 0, 0x10, 8]
    let x : Bytes := [7, 7, 7, 7, 7, 7, 7, 8]
    8 ≤ maxLength ∧ 7 ≤ maxLength ∧ decompress c 8 = .ok x ∧
      decompress c 7 = .error (.decompression 7) := by
  intro c x
  let f : Frame := ⟨[⟨[7], 1, 2⟩], [8]⟩
  have hwritable : f.Writable := List.forall_mem_singleton.2 ⟨by decide, by decide⟩
  have hparse : Frame.parse c = some f := Frame.parse_encode hwritable
  have hcontent : f.content? = some x := by decide
  have hok : decompress c 8 = .ok x := decompress_of_content 8 hparse hcontent
  have hroom : 8 ≤ maxLength ∧ 7 ≤ maxLength := by decide
  obtain ⟨-, -, hcut⟩ := (decompress_bound_is_cutoff c).1 8 7 x hroom.1 hroom.2 hok
  exact ⟨hroom.1, hroom.2, hok, hcut⟩

end ObliviousStore

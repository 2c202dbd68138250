/-
  Stashes are filled up with what is drawn, and with nothing else (`pad_appends_missing`).

  A decoy is the block that a drawn string is the wire form of, but for its type
  (`HoldsDraw`).  A padding appends one for each draw that succeeds, in order, and ends with
  the first draw that fails; its stash counts for nothing but its length.
-/
import ObliviousStore.Engine.Scripted
import ObliviousStore.Proofs.Block.Binding
import ObliviousStore.Proofs.Engine.Draws
import ObliviousStore.Proofs.Engine.Task

namespace ObliviousStore.Stash

variable {size : Nat} {E : Type} [CryptoEngine E]

/-! ## Decoys -/

/-- The block holds the bytes of a draw, in every field but its type. -/
structure HoldsDraw (x : Vector UInt8 (wireSize size)) (b : Block size) : Prop where
  decode_eq : (Block.decode size x.toList).map (·.withKind .dummy) = .ok b
  kind_eq : b.header.kind = .dummy
  encode_eq : b.encode = x.toList.set 4 BlockType.dummy.tag

/-- The decoy that a draw makes. -/
def decoyOf (x : Vector UInt8 (wireSize size)) : Block size :=
  (Block.ofWire x.toList Vector.length_toList).asDummy

theorem decode_draw (x : Vector UInt8 (wireSize size)) :
    (Block.decode size x.toList).map Block.asDummy = .ok (decoyOf x) := by
  rw [Block.decode_eq_ok Vector.length_toList]
  rfl

theorem holdsDraw_decoyOf (x : Vector UInt8 (wireSize size)) : HoldsDraw x (decoyOf x) where
  decode_eq := decode_draw x
  kind_eq := rfl
  encode_eq := by
    show ((Block.ofWire x.toList Vector.length_toList).withKind .dummy).encode = _
    rw [Block.encode_withKind, Block.encode_ofWire]

variable {e e₁ e' : E} {n k : Nat} {r : Except StoreError Unit}
  {drawn : List (Vector UInt8 (wireSize size))}

theorem goes_decoy {σ : Type} {x : Vector UInt8 (wireSize size)}
    (h : CryptoEngine.randomBytes (wireSize size) e = (.ok x, e₁)) (s : σ) :
    (decoy size s).Goes e [.randomBytes (wireSize size)] (.ok (decoyOf x), s) e₁ := by
  have hquery := Dialogue.Goes.query (.randomBytes (wireSize size)) h s
  have hdecode : Dialogue.Goes (.done ((Block.decode size x.toList).map Block.asDummy, s)) e₁ []
      (.ok (decoyOf x), s) e₁ := by
    rw [decode_draw]
    exact .done _ e₁
  exact hquery.bind_ok hdecode

theorem goes_decoy_of_error {σ : Type} {err : StoreError}
    (h : CryptoEngine.randomBytes (wireSize size) e = (.error err, e')) (s : σ) :
    (decoy size s).Goes e [.randomBytes (wireSize size)] (.error err, s) e' := by
  exact (Dialogue.Goes.query (.randomBytes (wireSize size)) h s).bind_error _

theorem goes_decoys (h : Draws (wireSize size) k e drawn r e') (stash : Stash size) :
    (decoys k stash).Goes e (drawCalls (wireSize size) drawn r)
      (r, stash ++ drawn.map decoyOf) e' := by
  induction h generalizing stash with
  | done e =>
    rw [List.map_nil, List.append_nil]
    exact .done _ e
  | failed h =>
    rw [List.map_nil, List.append_nil]
    exact (goes_decoy_of_error h stash).bind_error _
  | @drawn k e e₁ e' x xs r h _ ih =>
    have hrest := ih (stash ++ [decoyOf x])
    rw [List.append_assoc, List.singleton_append] at hrest
    rw [drawCalls_cons, List.map_cons]
    exact (goes_decoy h stash).bind_ok hrest

/-! ## Paddings -/

theorem run_pad_of_le {stash : Stash size} {target : Nat} (h : target ≤ stash.length) (e : E) :
    (pad target).run (stash, e) = ⟨.ok (), (stash, e), []⟩ := by
  simp only [pad, Op.run_bind, Op.run_get, if_neg (Nat.not_lt.2 h)]
  rfl

theorem exchanges_padding_of_le {stash : Stash size} {target : Nat} (h : target ≤ stash.length)
    (e : E) : (padding target stash).exchanges e = [] := by
  simp only [padding, if_neg (Nat.not_lt.2 h), Dialogue.exchanges_done]

theorem reports_addDecoys (k : Nat) :
    Op.Reports (fun _ => False) (addDecoys k : Op (Stash size × E) Unit) := by
  induction k with
  | zero => exact .silent fun _ => rfl
  | succ k ih =>
    refine .bind (.onSnd (.bind (.silent fun _ => rfl) fun x => ?_)) fun b => ?_
    · exact .bind (.silent fun _ => rfl) fun _ => .silent fun _ => rfl
    · exact .bind (.silent fun _ => rfl) fun _ => ih

theorem log_pad {stash : Stash size} {target : Nat} (h : stash.length < target) (e : E) :
    ((pad target).run (stash, e)).log = [.padding stash.length target] := by
  have hquiet : Op.Reports (fun _ => False)
      (Op.reserve ((target - stash.length) * wireSize size) >>= fun _ =>
        addDecoys (target - stash.length) : Op (Stash size × E) Unit) :=
    .bind (.reserve _) fun _ => reports_addDecoys _
  simp only [pad, Op.run_bind, Op.run_get, if_pos h, Op.run_report]
  exact congrArg ([.padding stash.length target] ++ ·) (hquiet.log_eq_nil (stash, e))

/-- A padding for which there is room comes to what is drawn. -/
theorem goes_padding {stash : Stash size} {target : Nat} (h : stash.length < target)
    (hfit : (target - stash.length) * wireSize size ≤ Bytes.maxLength)
    (hdraws : Draws (wireSize size) (target - stash.length) e drawn r e') :
    (padding target stash).Goes e (drawCalls (wireSize size) drawn r)
      (r, stash ++ drawn.map decoyOf) e' := by
  simp only [padding, if_pos h]
  exact (Dialogue.Goes.reserve hfit stash e).bind_ok (goes_decoys hdraws stash)

theorem run_pad_of_draws {stash : Stash size} {target : Nat} (h : stash.length < target)
    (hfit : (target - stash.length) * wireSize size ≤ Bytes.maxLength)
    (hdraws : Draws (wireSize size) (target - stash.length) e drawn r e') :
    (pad target).run (stash, e) =
      ⟨r, (stash ++ drawn.map decoyOf, e'), [.padding stash.length target]⟩ := by
  rw [(goes_padding h hfit hdraws).run_eq (converses_pad target), log_pad h]

theorem run_pad_of_lt_of_not_fits {stash : Stash size} {target : Nat} (h : stash.length < target)
    (hfit : ¬(target - stash.length) * wireSize size ≤ Bytes.maxLength) (e : E) :
    (pad target).run (stash, e) =
      ⟨.error .oversizedBuffer, (stash, e), [.padding stash.length target]⟩ := by
  simp only [pad, Op.run_bind, Op.run_get, if_pos h, Op.run_report, Op.reserve, if_neg hfit,
    Op.run_throw]
  rfl

/-- What a padding appends, and all else that it does, is told by the length of the stash. -/
theorem exists_run_pad (size present target : Nat) (e : E) :
    ∃ r decoys e' l, ∀ stash : Stash size, stash.length = present →
      (pad target).run (stash, e) = ⟨r, (stash ++ decoys, e'), l⟩ := by
  by_cases hmissing : present < target
  · by_cases hfit : (target - present) * wireSize size ≤ Bytes.maxLength
    · obtain ⟨drawn, r, e', hdraws⟩ := exists_draws (wireSize size) (target - present) e
      refine ⟨r, drawn.map decoyOf, e', [.padding present target], ?_⟩
      rintro stash rfl
      exact run_pad_of_draws hmissing hfit hdraws
    · refine ⟨.error .oversizedBuffer, [], e, [.padding present target], ?_⟩
      rintro stash rfl
      rw [List.append_nil]
      exact run_pad_of_lt_of_not_fits hmissing hfit e
  · refine ⟨.ok (), [], e, [], ?_⟩
    rintro stash rfl
    rw [List.append_nil]
    exact run_pad_of_le (Nat.not_lt.1 hmissing) e

/-- A stash that was padded is as long as it was to be. -/
theorem le_length_of_run_pad {stash stash' : Stash size} {target : Nat} {l : List Event}
    (h : (pad target).run (stash, e) = ⟨.ok (), (stash', e'), l⟩) : target ≤ stash'.length := by
  by_cases hmissing : stash.length < target
  · by_cases hfit : (target - stash.length) * wireSize size ≤ Bytes.maxLength
    · obtain ⟨drawn, r, e₁, hdraws⟩ := exists_draws (wireSize size) (target - stash.length) e
      rw [run_pad_of_draws hmissing hfit hdraws, Outcome.mk.injEq, Prod.mk.injEq] at h
      obtain ⟨rfl, ⟨rfl, -⟩, -⟩ := h
      have hlength := hdraws.ok_iff.1 rfl
      rw [List.length_append, List.length_map, hlength]
      exact Nat.le_of_eq (Nat.add_sub_cancel' (Nat.le_of_lt hmissing)).symm
    · rw [run_pad_of_lt_of_not_fits hmissing hfit, Outcome.mk.injEq] at h
      exact absurd h.1 (by simp)
  · rw [run_pad_of_le (Nat.not_lt.1 hmissing), Outcome.mk.injEq, Prod.mk.injEq] at h
    rw [← h.2.1.1]
    exact Nat.not_lt.1 hmissing

/-- **A padding appends what is missing, also when it fails.**  A stash that is long enough
    is left alone, without a word to the engine or to the log.  Otherwise a wire form is
    drawn for each block that is missing, as long as draws succeed; the stash keeps its
    blocks, followed by the decoy of each draw, and the first failure of a draw is the only
    one there is.  What is appended is told by the length of the stash, and a stash that was
    padded needs no more padding. -/
theorem pad_appends_missing (stash : Stash size) (target : Nat) (e : E) :
    Op.Converses (pad target : Op (Stash size × E) Unit) (padding target) ∧
    (target ≤ stash.length → (pad target).run (stash, e) = ⟨.ok (), (stash, e), []⟩ ∧
      (padding target stash).exchanges e = []) ∧
    (stash.length < target → (target - stash.length) * wireSize size ≤ Bytes.maxLength →
      ∃ drawn r e', Draws (wireSize size) (target - stash.length) e drawn r e' ∧
        drawn.length ≤ target - stash.length ∧
        (r = .ok () ↔ drawn.length = target - stash.length) ∧
        ((padding target stash).exchanges e).map Exchange.query =
          drawCalls (wireSize size) drawn r ∧
        ∃ decoys, List.Forall₂ HoldsDraw drawn decoys ∧
          (pad target).run (stash, e) =
            ⟨r, (stash ++ decoys, e'), [.padding stash.length target]⟩) ∧
    (∃ r decoys e' l, ∀ stash' : Stash size, stash'.length = stash.length →
      (pad target).run (stash', e) = ⟨r, (stash' ++ decoys, e'), l⟩) ∧
    ∀ stash' e' l, (pad target).run (stash, e) = ⟨.ok (), (stash', e'), l⟩ →
      ∀ target' ≤ target, ∀ e'' : E,
        (pad target').run (stash', e'') = ⟨.ok (), (stash', e''), []⟩ := by
  refine ⟨converses_pad target, ?_, ?_, exists_run_pad size stash.length target e, ?_⟩
  · intro h
    exact ⟨run_pad_of_le h e, exchanges_padding_of_le h e⟩
  · intro h hfit
    obtain ⟨drawn, r, e', hdraws⟩ := exists_draws (wireSize size) (target - stash.length) e
    refine ⟨drawn, r, e', hdraws, hdraws.length_le, hdraws.ok_iff,
      (goes_padding h hfit hdraws).query_eq, drawn.map decoyOf, ?_, run_pad_of_draws h hfit hdraws⟩
    exact List.forall₂_map_right_iff.2 (List.forall₂_same.2 fun x _ => holdsDraw_decoyOf x)
  · intro stash' e' l hrun target' hle e''
    exact run_pad_of_le (Nat.le_trans hle (le_length_of_run_pad hrun)) e''

/-- A stash of one block that two are missing from, beside an engine whose second draw
    fails: one decoy is appended.  Without that failure the stash is as long as it is to be,
    and needs no more padding. -/
theorem pad_appends_missing_scripted :
    let e (faults : List Fault) : ScriptedEngine AesGcmEngine :=
      ⟨⟨⟨Vector.replicate keySize 0⟩, ⟨fun p => UInt8.ofNat p, none, 0⟩⟩, faults, .zero⟩
    let broken := e [⟨.randomBytes, 1, .failure⟩]
    let stash : Stash 1 := [.new 7 .normal #v[8]]
    let x (p : Nat) : Vector UInt8 (wireSize 1) := .ofFn fun i => UInt8.ofNat (p + i)
    let decoy : Block 1 := ⟨⟨0x03020100, .dummy, .ofFn fun i => UInt8.ofNat (5 + i),
      .ofFn fun i => UInt8.ofNat (17 + i)⟩, #v[33]⟩
    1 < 3 ∧ (3 - 1) * wireSize 1 ≤ Bytes.maxLength ∧
      (∃ e', Draws (wireSize 1) 2 broken [x 0] (.error .randomness) e' ∧
        (pad 3).run (stash, broken) =
          ⟨.error .randomness, (stash ++ [decoy], e'), [.padding 1 3]⟩) ∧
      ((padding 3 stash).exchanges broken).map Exchange.query =
        [.randomBytes (wireSize 1), .randomBytes (wireSize 1)] ∧
      (pad 1).run (stash, broken) = ⟨.ok (), (stash, broken), []⟩ ∧
      ∃ stash' e', (pad 3).run (stash, e []) = ⟨.ok (), (stash', e'), [.padding 1 3]⟩ ∧
        stash'.length = 3 ∧ (pad 2).run (stash', e') = ⟨.ok (), (stash', e'), []⟩ := by
  intro e broken stash x decoy
  obtain ⟨-, -, hshort, -, -⟩ := pad_appends_missing stash 3 broken
  obtain ⟨drawn, r, e', hdraws, -, -, hcalls, decoys, hdecoys, hrun⟩ :=
    hshort (by decide) (by decide)
  obtain ⟨rfl, rfl, rfl⟩ := hdraws.unique (.drawn (x := x 0) rfl (.failed rfl))
  obtain ⟨b, rfl, hb⟩ : ∃ b, decoys = [b] ∧ HoldsDraw (x 0) b := by
    cases hdecoys with
    | cons hb hnone =>
      cases hnone
      exact ⟨_, rfl, hb⟩
  have hdecode : (Block.decode 1 (x 0).toList).map (·.withKind .dummy) = .ok decoy := by
    decide +kernel
  obtain rfl : b = decoy := Except.ok.inj (hb.decode_eq.symm.trans hdecode)
  -- The same stash is long enough for one block, and is filled up by an engine that works.
  obtain ⟨-, hfull, -, -, -⟩ := pad_appends_missing stash 1 broken
  obtain ⟨-, -, hsound, -, hagain⟩ := pad_appends_missing stash 3 (e [])
  obtain ⟨drawn, r, e', hdraws', -, -, -, decoys, hdecoys, hpadded⟩ :=
    hsound (by decide) (by decide)
  obtain ⟨rfl, rfl, rfl⟩ :=
    hdraws'.unique (.drawn (x := x 0) rfl (.drawn (x := x 34) rfl (.done _)))
  refine ⟨by decide, by decide, ⟨_, hdraws, hrun⟩, hcalls, (hfull (by decide)).1, _, _, hpadded, ?_,
    hagain _ _ _ hpadded 2 (by decide) _⟩
  rw [List.length_append, ← hdecoys.length_eq]
  rfl

end ObliviousStore.Stash

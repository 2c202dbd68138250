/-
  What sampled buckets are made of, and what keeps them from being made
  (`sample_composition`).

  The blocks are numbered without a gap, as many of the first are real as are half of the
  total, and the payload of each is the lowest byte of its number and what was drawn for it
  (`Composed`).  A number that no identifier has ends the sampling before anything is drawn
  for it, and before the shuffle.
-/
import ObliviousStore.Proofs.Bucket.Sample
import ObliviousStore.Proofs.Engine.Draws

namespace ObliviousStore.Bucket

variable {size : Nat} {E σ : Type}

/-! ## Composition -/

/-- How many draws so many blocks take: a payload of no bytes takes none. -/
def drawsFor (size count : Nat) : Nat := if size = 0 then 0 else count

/-- The payload is the lowest byte of the identifier, followed by what was drawn. -/
def HoldsPayload {n : Nat} (x : Vector UInt8 n) (b : Block size) : Prop :=
  b.data.toList = b.header.id.toUInt8 :: x.toList

/-- So does each block of a bucket for which something was drawn at its place. -/
def HoldPayloads {n : Nat} (drawn : List (Vector UInt8 n)) (blocks : Bucket size) : Prop :=
  ∀ (i : Nat) x, drawn[i]? = some x → ∀ b, blocks[i]? = some b → HoldsPayload x b

/-- A block of a sampled bucket, at the place that its number gives. -/
structure Sampled (real offset : Nat) (drawn : List (Vector UInt8 (size - 1))) (b : Block size) :
    Prop where
  kind_eq : b.header.kind = if b.header.id.toNat - offset < real then .normal else .dummy
  iv_eq : b.header.iv = .replicate ivSize 0
  macTag_eq : b.header.macTag = .replicate macTagSize 0
  data_eq : ∀ x, drawn[b.header.id.toNat - offset]? = some x → HoldsPayload x b

/-- A bucket of `count` blocks for a store of `total` blocks, with the numbers from `offset`
    on and what was drawn. -/
structure Composed (total count offset : Nat) (drawn : List (Vector UInt8 (size - 1)))
    (bucket : Bucket size) : Prop where
  length_eq : bucket.length = count
  ids_perm : (bucket.map (·.header.id.toNat)).Perm (List.range' offset count)
  countP_eq : bucket.countP Block.isNormal = min (total / 2) count
  sampled : ∀ b ∈ bucket, Sampled (total / 2) offset drawn b

theorem countP_range_lt (real count : Nat) :
    (List.range count).countP (fun i => decide (i < real)) = min real count := by
  induction count with
  | zero => exact (Nat.min_zero real).symm
  | succ count ih =>
    rw [List.range_succ, List.countP_append, ih, List.countP_singleton]
    split <;> simp_all <;> omega

section ordered

variable [CryptoEngine E] {total count offset : Nat} {e e₁ : E} {l : List Event}
  {blocks : Bucket size}

theorem map_header_ordered (h : (ordered size total count offset).run e = ⟨.ok blocks, e₁, l⟩) :
    blocks.map Block.header = (List.range count).map fun i =>
      .fresh (UInt32.ofNat (offset + i)) (sampleKind (total / 2) i) := by
  rw [← List.forall₂_eq_eq_eq]
  refine List.forall₂_map_left_iff.2 (List.forall₂_map_right_iff.2 ?_)
  exact (forall₂_ordered h).flip.imp fun b i hi => hi.1

theorem lt_of_run_ordered (h : (ordered size total count offset).run e = ⟨.ok blocks, e₁, l⟩)
    {i : Nat} (hi : i < count) : offset + i < UInt32.size := by
  obtain ⟨hlength, hblocks⟩ := List.forall₂_iff_get.1 (forall₂_ordered h)
  have hi₁ : i < (List.range count).length := by rwa [List.length_range]
  have hlt := (hblocks i hi₁ (hlength ▸ hi₁)).2
  rwa [List.get_eq_getElem, List.getElem_range] at hlt

theorem map_id_ordered (h : (ordered size total count offset).run e = ⟨.ok blocks, e₁, l⟩) :
    blocks.map (·.header.id.toNat) = List.range' offset count := by
  have hids := congrArg (List.map (·.id.toNat)) (map_header_ordered h)
  rw [List.map_map, List.map_map] at hids
  rw [List.range'_eq_map_range]
  refine hids.trans (List.map_congr_left fun i hi => ?_)
  exact UInt32.toNat_ofNat_of_lt' (lt_of_run_ordered h (List.mem_range.1 hi))

theorem countP_ordered (h : (ordered size total count offset).run e = ⟨.ok blocks, e₁, l⟩) :
    blocks.countP Block.isNormal = min (total / 2) count := by
  calc blocks.countP Block.isNormal
      = (blocks.map Block.header).countP (·.kind == .normal) := by
        rw [List.countP_map]
        rfl
    _ = (List.range count).countP fun i => decide (i < total / 2) := by
        rw [map_header_ordered h, List.countP_map]
        refine List.countP_congr fun i _ => ?_
        simp only [Function.comp, Header.fresh, sampleKind]
        split <;> simp_all
    _ = min (total / 2) count := countP_range_lt _ _

theorem sampled_ordered (h : (ordered size total count offset).run e = ⟨.ok blocks, e₁, l⟩)
    {drawn : List (Vector UInt8 (size - 1))} (hpayload : HoldPayloads drawn blocks)
    {b : Block size} (hb : b ∈ blocks) : Sampled (total / 2) offset drawn b := by
  obtain ⟨i, hi⟩ := List.mem_iff_getElem?.1 hb
  have hlt : i < count := by
    rw [← length_of_run_ordered h]
    exact (List.getElem?_eq_some_iff.1 hi).1
  have hheader : b.header = .fresh (UInt32.ofNat (offset + i)) (sampleKind (total / 2) i) := by
    have hmap := congrArg (·[i]?) (map_header_ordered h)
    simpa [hi, List.getElem?_range hlt] using hmap
  have hplace : b.header.id.toNat - offset = i := by
    rw [hheader]
    show (UInt32.ofNat (offset + i)).toNat - offset = i
    rw [UInt32.toNat_ofNat_of_lt' (lt_of_run_ordered h hlt), Nat.add_sub_cancel_left]
  refine ⟨?_, by rw [hheader]; rfl, by rw [hheader]; rfl, ?_⟩
  · rw [hplace, hheader]
    rfl
  · rw [hplace]
    exact fun x hx => hpayload i x hx b hi

/-- A shuffle moves the blocks and changes none. -/
theorem composed_apply (h : (ordered size total count offset).run e = ⟨.ok blocks, e₁, l⟩)
    {drawn : List (Vector UInt8 (size - 1))} (hpayload : HoldPayloads drawn blocks)
    (swaps : Swaps) : Composed total count offset drawn (swaps.apply blocks) where
  length_eq := by rw [Swaps.length_apply, length_of_run_ordered h]
  ids_perm := by
    rw [← map_id_ordered h]
    exact (swaps.apply_perm blocks).map _
  countP_eq := by rw [(swaps.apply_perm blocks).countP_eq, countP_ordered h]
  sampled := fun _ hb => sampled_ordered h hpayload ((swaps.apply_perm blocks).mem_iff.1 hb)

end ordered

/-! ## Calls -/

section calls

variable [CryptoEngine E] {real total count offset i n k : Nat} {e e₁ e' : E}
  {r : Except StoreError Unit}

theorem goes_numbered {x : Vector UInt8 n} (hi : offset + i < UInt32.size)
    (h : CryptoEngine.randomBytes n e = (.ok x, e₁)) (s : σ) :
    ∃ b : Block (n + 1), (numbered (n + 1) real offset i s).Goes e [.randomBytes n] (.ok b, s) e₁ ∧
      HoldsPayload x b := by
  have hquery := Dialogue.Goes.query (.randomBytes n) h s
  simp only [numbered, if_pos hi, payload]
  refine ⟨_, (hquery.bind_done rfl).bind_done rfl, ?_⟩
  simp only [HoldsPayload, Block.new, Header.fresh, Vector.toList_cast, Vector.toList_append]
  rfl

theorem goes_numbered_of_error {err : StoreError} (hi : offset + i < UInt32.size)
    (h : CryptoEngine.randomBytes n e = (.error err, e')) (s : σ) :
    (numbered (n + 1) real offset i s).Goes e [.randomBytes n] (.error err, s) e' := by
  simp only [numbered, if_pos hi, payload]
  exact ((Dialogue.Goes.query (.randomBytes n) h s).bind_error _).bind_error _

theorem goes_numbered_of_le (hi : UInt32.size ≤ offset + i) (s : σ) (e : E) :
    (numbered size real offset i s).Goes e [] (.error .integerConversion, s) e := by
  simp only [numbered, if_neg (Nat.not_lt.2 hi)]
  exact .done _ e

/-- Blocks whose numbers all have identifiers take a draw each, if they have bytes to draw. -/
theorem goes_places (real : Nat) {j : Nat} {drawn : List (Vector UInt8 n)}
    (h : Draws n k e drawn r e') (hfits : ∀ i < j + k, offset + i < UInt32.size) (s : σ) :
    ∃ blocks : Bucket (n + 1),
      (Script.mapM (numbered (n + 1) real offset) (List.range' j k) s).Goes e (drawCalls n drawn r)
        (r.map fun _ => blocks, s) e' ∧
      (r = .ok () → List.Forall₂ HoldsPayload drawn blocks) := by
  -- Each draw is for the place that comes next; the first that fails is the end.
  induction h generalizing j with
  | done e => exact ⟨[], .done _ e, fun _ => .nil⟩
  | failed h =>
    refine ⟨[], (goes_numbered_of_error (hfits j (by omega)) h s).bind_error _, ?_⟩
    intro hr
    cases hr
  | @drawn k e e₁ e' x xs r h _ ih =>
    obtain ⟨b, hb, hpayload⟩ := goes_numbered (hfits j (by omega)) h s
    obtain ⟨blocks, hblocks, hpayloads⟩ := @ih (j + 1) fun i hi => hfits i (by omega)
    rw [drawCalls_cons]
    cases r with
    | error err =>
      have hrest := hblocks.bind_error fun bs => .pure (b :: bs)
      exact ⟨[], hb.bind_ok hrest, fun hr => by cases hr⟩
    | ok u =>
      have hrest := hblocks.bind_done (f := fun bs => .pure (b :: bs)) rfl
      exact ⟨b :: blocks, hb.bind_ok hrest, fun hr => .cons hpayload (hpayloads hr)⟩

theorem goes_places_zero (real : Nat) {places : List Nat}
    (hfits : ∀ i ∈ places, offset + i < UInt32.size) (s : σ) (e : E) : ∃ blocks : Bucket 0,
      (Script.mapM (numbered 0 real offset) places s).Goes e [] (.ok blocks, s) e := by
  induction places with
  | nil => exact ⟨[], .done _ e⟩
  | cons i places ih =>
    obtain ⟨hi, hplaces⟩ := List.forall_mem_cons.1 hfits
    obtain ⟨blocks, hblocks⟩ := ih hplaces
    have hfirst : ∃ b : Block 0, (numbered 0 real offset i s).Goes e [] (.ok b, s) e := by
      simp only [numbered, if_pos hi, payload]
      exact ⟨_, .done _ e⟩
    obtain ⟨b, hb⟩ := hfirst
    exact ⟨b :: blocks, hb.bind_ok (hblocks.bind_done rfl)⟩

/-- The first `k` blocks, if all their numbers have identifiers. -/
theorem goes_ordered (real : Nat) {drawn : List (Vector UInt8 (size - 1))}
    (h : Draws (size - 1) (drawsFor size k) e drawn r e')
    (hfits : ∀ i < k, offset + i < UInt32.size) (s : σ) :
    ∃ blocks : Bucket size,
      (Script.mapM (numbered size real offset) (List.range k) s).Goes e
        (drawCalls (size - 1) drawn r) (r.map fun _ => blocks, s) e' ∧
      (r = .ok () → HoldPayloads drawn blocks) := by
  cases size with
  | zero =>
    have hnone : Draws 0 0 e drawn r e' := h
    cases hnone
    obtain ⟨blocks, hblocks⟩ := goes_places_zero real
      (fun i hi => hfits i (List.mem_range.1 hi)) s e
    exact ⟨blocks, hblocks, fun _ i x hx => by cases hx⟩
  | succ n =>
    have hdraws : Draws n k e drawn r e' := h
    obtain ⟨blocks, hblocks, hpayloads⟩ := goes_places real (j := 0) hdraws
      (fun i hi => hfits i (by omega)) s
    rw [List.range_eq_range']
    refine ⟨blocks, hblocks, fun hr i x hx b hb => ?_⟩
    obtain ⟨hi, rfl⟩ := List.getElem?_eq_some_iff.1 hx
    obtain ⟨hi', rfl⟩ := List.getElem?_eq_some_iff.1 hb
    exact (hpayloads hr).get hi hi'

/-- After the places whose numbers have identifiers comes the first that has none. -/
theorem range_eq_append (hcount : UInt32.size - offset < count) :
    ∃ places, List.range count =
      List.range (UInt32.size - offset) ++ (UInt32.size - offset) :: places := by
  obtain ⟨m, rfl⟩ : ∃ m, count = (UInt32.size - offset) + (m + 1) :=
    ⟨count - (UInt32.size - offset) - 1, by omega⟩
  refine ⟨(List.range m).map fun i => (UInt32.size - offset) + (i + 1), ?_⟩
  rw [List.range_add, List.range_succ_eq_map, List.map_cons, List.map_map]
  rfl

theorem goes_sampling_of_ordered {asked : List Query} {blocks : Bucket size} {s : σ}
    (hroom : count * wireSize size ≤ Bytes.maxLength)
    (h : (Script.mapM (numbered size (total / 2) offset) (List.range count) s).Goes e asked
      (.ok blocks, s) e₁) :
    (sampling size total count offset s).Goes e (asked ++ [.shuffle count])
      ((CryptoEngine.shuffle count e₁).1.map (Swaps.apply · blocks), s)
      (CryptoEngine.shuffle count e₁).2 := by
  refine (Dialogue.Goes.reserve hroom s e).bind_ok (h.bind_ok ?_)
  rcases hshuffle : CryptoEngine.shuffle count e₁ with ⟨err | swaps, e'⟩
  · exact (Dialogue.Goes.query (.shuffle count) hshuffle s).bind_error _
  · exact (Dialogue.Goes.query (.shuffle count) hshuffle s).bind_done rfl

theorem goes_sampling_of_error {asked : List Query} {err : StoreError} {s : σ}
    (hroom : count * wireSize size ≤ Bytes.maxLength)
    (h : (Script.mapM (numbered size (total / 2) offset) (List.range count) s).Goes e asked
      (.error err, s) e') :
    (sampling size total count offset s).Goes e asked (.error err, s) e' :=
  (Dialogue.Goes.reserve hroom s e).bind_ok (h.bind_error _)

/-- A number that has no identifier is the end, unless a draw before it failed. -/
theorem goes_sampling_of_lt {drawn : List (Vector UInt8 (size - 1))}
    (hroom : count * wireSize size ≤ Bytes.maxLength) (hcount : UInt32.size - offset < count)
    (h : Draws (size - 1) (drawsFor size (UInt32.size - offset)) e drawn r e') (s : σ) :
    (sampling size total count offset s).Goes e (drawCalls (size - 1) drawn r)
      (r.bind fun _ => .error .integerConversion, s) e' := by
  have hfits : ∀ i < UInt32.size - offset, offset + i < UInt32.size := fun i hi => by omega
  obtain ⟨blocks, hblocks, -⟩ := goes_ordered (total / 2) h hfits s
  obtain ⟨places, hplaces⟩ := range_eq_append hcount
  have hlast : (Script.mapM (numbered size (total / 2) offset)
      ((UInt32.size - offset) :: places) s).Goes e' [] (.error .integerConversion, s) e' :=
    (goes_numbered_of_le (by omega) s e').bind_error _
  have hall : (Script.mapM (numbered size (total / 2) offset) (List.range count) s).Goes e
      (drawCalls (size - 1) drawn r) (r.bind fun _ => .error .integerConversion, s) e' := by
    rw [hplaces, Script.mapM_append]
    cases r with
    | error err => exact hblocks.bind_error _
    | ok u =>
      have hrest := hlast.bind_error fun bs => .pure (blocks ++ bs)
      rw [← List.append_nil (drawCalls _ _ _)]
      exact hblocks.bind_ok hrest
  cases r with
  | error err => exact goes_sampling_of_error hroom hall
  | ok u => exact goes_sampling_of_error hroom hall

end calls

/-! ## Sampling -/

section sampling

variable [CryptoEngine E] {total count offset : Nat} {e e₁ : E} {r : Except StoreError Unit}
  {drawn : List (Vector UInt8 (size - 1))}

theorem reports_samplePayload (id : BlockId) (size : Nat) :
    Op.Reports (fun _ => False) (samplePayload id size : Op E _) := by
  cases size with
  | zero => exact .silent fun _ => rfl
  | succ n => exact .bind (.silent fun _ => rfl) fun rest => .silent fun _ => rfl

theorem reports_sampleBlock (size real offset i : Nat) :
    Op.Reports (fun _ => False) (sampleBlock size real offset i : Op E _) := by
  unfold sampleBlock
  split
  · exact .bind (reports_samplePayload _ size) fun data => .silent fun _ => rfl
  · exact .silent fun _ => rfl

theorem log_sample (size total count offset : Nat) (e : E) :
    ((sample size total count offset).run e).log =
      [.sampling count offset (min (total / 2) count)] := by
  have hquiet : Op.Reports (fun _ => False) (Op.reserve (count * wireSize size) >>= fun _ =>
      (List.range count).mapM (sampleBlock size (total / 2) offset) >>= fun blocks =>
        Op.call (CryptoEngine.shuffle count) >>= fun swaps =>
          pure (swaps.apply blocks) : Op E (Bucket size)) := by
    refine .bind (.reserve _) fun _ => .bind (.listMapM ?_ _) fun blocks => ?_
    · exact fun i => reports_sampleBlock size (total / 2) offset i
    · exact .bind (.silent fun _ => rfl) fun swaps => .silent fun _ => rfl
  exact congrArg ([.sampling count offset (min (total / 2) count)] ++ ·) (hquiet.log_eq_nil e)

theorem converses_ordered (size total count offset : Nat) :
    Op.Converses (Op.onSnd (ordered size total count offset) : Op (σ × E) (Bucket size))
      (Script.mapM (numbered size (total / 2) offset) (List.range count)) :=
  .mapM (fun i => converses_sampleBlock size (total / 2) offset i) (List.range count)

theorem run_sample_of_goes {asked : List Query} {result : Except StoreError (Bucket size)}
    (h : (sampling size total count offset ()).Goes e asked (result, ()) e₁) :
    (sample size total count offset).run e =
      ⟨result, e₁, [.sampling count offset (min (total / 2) count)]⟩ := by
  rw [h.run_onSnd_eq (converses_sample size total count offset), log_sample]

/-- What a sampling asks of an engine, what it comes to, and the engine after it. -/
inductive SampleRun (size total count offset : Nat) (e : E) :
    List Query → Except StoreError (Bucket size) → E → Prop where
  /-- All was drawn, and the blocks are shuffled if the engine can. -/
  | shuffled {drawn : List (Vector UInt8 (size - 1))} {e₁ : E} {blocks : Bucket size}
      (hfits : count = 0 ∨ offset + count ≤ UInt32.size)
      (hdraws : Draws (size - 1) (drawsFor size count) e drawn (.ok ()) e₁)
      (hcomposed : ∀ swaps : Swaps, Composed total count offset drawn (swaps.apply blocks)) :
      SampleRun size total count offset e (drawCalls (size - 1) drawn (.ok ()) ++ [.shuffle count])
        ((CryptoEngine.shuffle count e₁).1.map (Swaps.apply · blocks))
        (CryptoEngine.shuffle count e₁).2
  /-- A draw failed. -/
  | drawFailed {drawn : List (Vector UInt8 (size - 1))} {err : StoreError} {e' : E}
      (hfits : count = 0 ∨ offset + count ≤ UInt32.size)
      (hdraws : Draws (size - 1) (drawsFor size count) e drawn (.error err) e') :
      SampleRun size total count offset e (drawCalls (size - 1) drawn (.error err)) (.error err) e'
  /-- Not all numbers have an identifier: those that have one are drawn for, and a draw that
      fails comes first. -/
  | noIdentifier {drawn : List (Vector UInt8 (size - 1))} {r : Except StoreError Unit} {e' : E}
      (hpos : 0 < count) (hlate : UInt32.size < offset + count)
      (hdraws : Draws (size - 1) (drawsFor size (UInt32.size - offset)) e drawn r e') :
      SampleRun size total count offset e (drawCalls (size - 1) drawn r)
        (r.bind fun _ => .error .integerConversion) e'

theorem exists_sampleRun (total : Nat) (hroom : count * wireSize size ≤ Bytes.maxLength)
    (offset : Nat) (e : E) : ∃ asked result e', SampleRun size total count offset e asked result e' ∧
      (sampling size total count offset ()).Goes e asked (result, ()) e' := by
  by_cases hcount : count = 0 ∨ offset + count ≤ UInt32.size
  · have hfits : ∀ i < count, offset + i < UInt32.size := fun i hi => by omega
    obtain ⟨drawn, r, e₁, hdraws⟩ := exists_draws (size - 1) (drawsFor size count) e
    obtain ⟨blocks, hblocks, hpayloads⟩ := goes_ordered (total / 2) hdraws hfits ()
    cases r with
    | error err =>
      exact ⟨_, _, _, .drawFailed hcount hdraws, goes_sampling_of_error hroom hblocks⟩
    | ok u =>
      have hordered := hblocks.run_onSnd_eq (converses_ordered size total count offset)
      have hcomposed := composed_apply hordered (hpayloads rfl)
      exact ⟨_, _, _, .shuffled hcount hdraws hcomposed, goes_sampling_of_ordered hroom hblocks⟩
  · obtain ⟨drawn, r, e', hdraws⟩ :=
      exists_draws (size - 1) (drawsFor size (UInt32.size - offset)) e
    exact ⟨_, _, _, .noIdentifier (by omega) (by omega) hdraws,
      goes_sampling_of_lt hroom (by omega) hdraws ()⟩

/-- Only what was shuffled succeeds. -/
theorem SampleRun.composed {asked : List Query} {bucket : Bucket size} {e' : E}
    (h : SampleRun size total count offset e asked (.ok bucket) e') :
    (count = 0 ∨ offset + count ≤ UInt32.size) ∧
      ∃ drawn e₁, Draws (size - 1) (drawsFor size count) e drawn (.ok ()) e₁ ∧
        drawn.length = drawsFor size count ∧ Composed total count offset drawn bucket := by
  generalize hresult : Except.ok bucket = result at h
  cases h with
  | @shuffled drawn e₁ blocks hfits hdraws hcomposed =>
    rcases hshuffle : (CryptoEngine.shuffle count e₁).1 with err | swaps
    · rw [hshuffle] at hresult
      cases hresult
    · rw [hshuffle] at hresult
      obtain rfl : bucket = swaps.apply blocks := Except.ok.inj hresult
      exact ⟨hfits, drawn, e₁, hdraws, hdraws.ok_iff.1 rfl, hcomposed swaps⟩
  | drawFailed => cases hresult
  | @noIdentifier drawn r => cases r <;> cases hresult

/-- **Sampled buckets are of one composition.**  A sampling that succeeds numbers its blocks
    from the offset on, once each, in an order of the engine's; so many of the first are
    normal as are half of the total, and all else is drawn or zero.  A number that no
    identifier has is an error, and nothing is shuffled, unless a draw for a number before
    it failed; otherwise all errors are the engine's own.  Numbers are not added up beyond
    what a machine word holds. -/
theorem sample_composition (size total count offset : Nat) (e : E)
    (hroom : count * wireSize size ≤ Bytes.maxLength) :
    Op.Converses (Op.onSnd (sample size total count offset) : Op (Unit × E) (Bucket size))
      (sampling size total count offset) ∧
    (∃ asked result e', SampleRun size total count offset e asked result e' ∧
      ((sampling size total count offset ()).exchanges e).map Exchange.query = asked ∧
      (sample size total count offset).run e =
        ⟨result, e', [.sampling count offset (min (total / 2) count)]⟩) ∧
    (∀ bucket e' l, (sample size total count offset).run e = ⟨.ok bucket, e', l⟩ →
      (count = 0 ∨ offset + count ≤ UInt32.size) ∧
      ∃ drawn e₁, Draws (size - 1) (drawsFor size count) e drawn (.ok ()) e₁ ∧
        drawn.length = drawsFor size count ∧ Composed total count offset drawn bucket) ∧
    ∀ i < count, ∀ blocks e' l, (ordered size total i offset).run e = ⟨.ok blocks, e', l⟩ →
      offset < UInt64.size → offset + i < UInt64.size := by
  obtain ⟨asked, result, e₁, hsample, hgoes⟩ := exists_sampleRun total hroom offset e
  have hrun := run_sample_of_goes hgoes
  refine ⟨converses_sample size total count offset,
    ⟨asked, result, e₁, hsample, hgoes.query_eq, hrun⟩, ?_, ?_⟩
  · intro bucket e' l hok
    rw [hrun, Outcome.mk.injEq] at hok
    obtain ⟨rfl, -, -⟩ := hok
    exact hsample.composed
  · intro i hi blocks e' l hordered hoffset
    -- The place before was numbered, so that its number has an identifier.
    cases i with
    | zero => exact hoffset
    | succ i =>
      have hlast := lt_of_run_ordered hordered (Nat.lt_succ_self i)
      have hwords : UInt32.size < UInt64.size := by decide
      omega

end sampling

/-- The block with the last identifier, alone and with one more that has none. -/
theorem sample_composition_last_id :
    let e : AesGcmEngine := ⟨⟨Vector.replicate keySize 0⟩, ⟨fun _ => 0xA5, none, 0⟩⟩
    let e' : AesGcmEngine := { e with tape := e.tape.advance 1 }
    let bucket : Bucket 2 := [.new 0xFFFFFFFF .normal #v[0xFF, 0xA5]]
    1 * wireSize 2 ≤ Bytes.maxLength ∧ 2 * wireSize 2 ≤ Bytes.maxLength ∧
      (sample 2 2 1 0xFFFFFFFF).run e = ⟨.ok bucket, e', [.sampling 1 0xFFFFFFFF 1]⟩ ∧
      Composed 2 1 0xFFFFFFFF [#v[0xA5]] bucket ∧
      (sample 2 2 2 0xFFFFFFFF).run e =
        ⟨.error .integerConversion, e', [.sampling 2 0xFFFFFFFF 1]⟩ ∧
      ((sampling 2 2 2 0xFFFFFFFF ()).exchanges e).map Exchange.query = [.randomBytes 1] := by
  intro e e' bucket
  have hdraws : Draws 1 1 e [#v[0xA5]] (.ok ()) e' := .drawn rfl (.done _)
  have hrun : (sample 2 2 1 0xFFFFFFFF).run e = ⟨.ok bucket, e', [.sampling 1 0xFFFFFFFF 1]⟩ := rfl
  obtain ⟨-, -, hok, -⟩ := sample_composition 2 2 1 0xFFFFFFFF e (by decide)
  obtain ⟨-, drawn, e₁, hdraws₁, -, hcomposed⟩ := hok bucket e' _ hrun
  obtain ⟨rfl, -, -⟩ := hdraws.unique hdraws₁
  obtain ⟨-, ⟨asked, result, e₂, hsample, hcalls, hfailed⟩, -, -⟩ :=
    sample_composition 2 2 2 0xFFFFFFFF e (by decide)
  cases hsample with
  | shuffled hfits | drawFailed hfits => exact absurd hfits (by decide)
  | noIdentifier hpos hlate hdraws₂ =>
    obtain ⟨rfl, rfl, rfl⟩ := hdraws.unique hdraws₂
    exact ⟨by decide, by decide, hrun, hcomposed, hfailed, hcalls⟩

end ObliviousStore.Bucket

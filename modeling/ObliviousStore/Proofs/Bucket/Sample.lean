/-
  Sampled buckets — their order is uniform (`shuffle_uniform`), and which of their
  blocks are real shows in nothing but the types (`sample_hides_kinds`).

  What is drawn for one number of real blocks is what is drawn for any other, with
  the types put in (`sampling_eq_map`): the swaps of a shuffle move blocks whatever
  they are.
-/
import ObliviousStore.Proofs.Block.Codec
import ObliviousStore.Proofs.Engine.Task
import ObliviousStore.Proofs.Random.Uniform
import ObliviousStore.Engine.AesGcm

namespace ObliviousStore

variable {E σ α : Type} {size : Nat}

theorem AesGcmEngine.shuffle_eq (n : Nat) (e : AesGcmEngine) :
    CryptoEngine.shuffle n e =
      ((drawShuffle n e.tape).1, { e with tape := (drawShuffle n e.tape).2 }) := rfl

theorem AesGcmEngine.shuffle_eq_ok_iff {n : Nat} {e : AesGcmEngine} {swaps : Swaps} {t : Tape} :
    CryptoEngine.shuffle n e = (.ok swaps, { e with tape := t }) ↔
      drawShuffle n e.tape = (.ok swaps, t) := by
  rw [shuffle_eq, Prod.mk.injEq, AesGcmEngine.mk.injEq, Prod.ext_iff]
  simp only [true_and]

namespace Bucket

/-! ## Before the shuffle -/

/-- The blocks of a sampled bucket in the order of their numbers. -/
def ordered [CryptoEngine E] (size total count offset : Nat) : Op E (Bucket size) :=
  (List.range count).mapM (sampleBlock size (total / 2) offset)

section run

variable [CryptoEngine E] {total count offset i : Nat} {e e₁ e' : E} {l : List Event}

theorem run_sample {blocks : Bucket size} (hfit : count * wireSize size ≤ Bytes.maxLength)
    (h : (ordered size total count offset).run e = ⟨.ok blocks, e₁, l⟩) :
    (sample size total count offset).run e =
      ⟨(CryptoEngine.shuffle count e₁).1.map (Swaps.apply · blocks), (CryptoEngine.shuffle count e₁).2,
        .sampling count offset (min (total / 2) count) :: l⟩ := by
  rw [ordered] at h
  simp only [sample, Op.run_bind, Op.run_report, Op.reserve, if_pos hfit, Op.run_pure, h, Op.run_call]
  rcases CryptoEngine.shuffle count e₁ with ⟨err | swaps, e₂⟩
  · simp only [List.singleton_append, List.nil_append, List.append_nil]
    rfl
  · simp only [List.singleton_append, List.nil_append, List.append_nil]
    rfl

/-- A sampled bucket is a shuffle of blocks in order. -/
theorem ordered_of_run_sample {bucket : Bucket size}
    (h : (sample size total count offset).run e = ⟨.ok bucket, e', l⟩) :
    ∃ blocks e₁ l₁ swaps, (ordered size total count offset).run e = ⟨.ok blocks, e₁, l₁⟩ ∧
      CryptoEngine.shuffle count e₁ = (.ok swaps, e') ∧ swaps.apply blocks = bucket := by
  obtain ⟨u, e₁, l₁, l₂, hreport, hrest, -⟩ := Op.of_run_bind h
  obtain ⟨v, e₂, l₃, l₄, hreserve, hdraws, -⟩ := Op.of_run_bind hrest
  obtain ⟨blocks, e₃, l₅, l₆, hordered, hlast, -⟩ := Op.of_run_bind hdraws
  obtain ⟨swaps, e₄, l₇, l₈, hshuffle, hpure, -⟩ := Op.of_run_bind hlast
  have he : e₂ = e :=
    calc e₂ = ((Op.reserve (count * wireSize size)).run e₁).state := by rw [hreserve]
      _ = e₁ := Op.state_reserve _ e₁
      _ = e := (congrArg Outcome.state hreport).symm
  rw [he] at hordered
  rw [Op.run_call, Outcome.mk.injEq] at hshuffle
  obtain rfl : e₄ = e' := congrArg Outcome.state hpure
  exact ⟨blocks, e₃, l₅, swaps, hordered, Prod.ext hshuffle.1 hshuffle.2.1,
    Except.ok.inj (congrArg Outcome.result hpure)⟩

theorem of_run_sampleBlock {real : Nat} {b : Block size}
    (h : (sampleBlock size real offset i).run e = ⟨.ok b, e', l⟩) :
    b.header = .fresh (UInt32.ofNat (offset + i)) (sampleKind real i) ∧ offset + i < UInt32.size := by
  rw [sampleBlock] at h
  split at h
  · rename_i hi
    obtain ⟨data, e₂, l₁, l₂, -, hpure, -⟩ := Op.of_run_bind h
    obtain rfl := Except.ok.inj (congrArg Outcome.result hpure)
    exact ⟨rfl, hi⟩
  · exact absurd (congrArg Outcome.result h) (by simp)

theorem forall₂_ordered {blocks : Bucket size}
    (h : (ordered size total count offset).run e = ⟨.ok blocks, e₁, l⟩) :
    List.Forall₂ (fun i b => b.header = .fresh (UInt32.ofNat (offset + i)) (sampleKind (total / 2) i) ∧
      offset + i < UInt32.size) (List.range count) blocks :=
  Op.forall₂_of_run_mapM (fun _ _ _ _ _ => of_run_sampleBlock) h

theorem length_of_run_ordered {blocks : Bucket size}
    (h : (ordered size total count offset).run e = ⟨.ok blocks, e₁, l⟩) : blocks.length = count := by
  rw [← (forall₂_ordered h).length_eq, List.length_range]

end run

/-! ## The order -/

/-- Each position of a result holds what stood where the permutation sends it. -/
structure Rearranged {n : Nat} (σ : Equiv.Perm (Fin n)) (items result : List α) : Prop where
  length_items : items.length = n
  length_result : result.length = n
  moved (k : Fin n) : result[k.val]? = items[(σ k).val]?

theorem Rearranged.of_applies {n : Nat} {σ : Equiv.Perm (Fin n)} {swaps : Swaps}
    (h : swaps.Applies σ) {items : List α} (hlength : items.length = n) :
    Rearranged σ items (swaps.apply items) where
  length_items := hlength
  length_result := by rw [Swaps.length_apply, hlength]
  moved := h items hlength

/-- **Shuffles are uniform.**  Each permutation is what one row of numbers makes, and
    what as many sequences of accepted words realise as any other; the words that are
    drawn for a number are unbiased.  A shuffle that takes words of such a sequence
    applies the permutation, and a sampled bucket is then the blocks in order,
    rearranged by it. -/
theorem shuffle_uniform (n : Nat) (hn : n < UInt32.size) :
    (∀ σ : Equiv.Perm (Fin n), ∃! js : List Nat,
      js.length = n - 1 ∧ Swaps.AtOrBefore js ∧ (Swaps.ofNumbers js).Applies σ) ∧
    (∀ r, 1 ≤ r → r < UInt32.size → Unbiased r) ∧
    (∀ σ : Equiv.Perm (Fin n),
      (Realising σ).ncard = ∏ i ∈ Finset.range (n - 1), 2 ^ leadingZeros (i + 2)) ∧
    (∀ (e : AesGcmEngine) (t : Tape) (σ : Equiv.Perm (Fin n)),
      (∃ swaps, CryptoEngine.shuffle n e = (.ok swaps, { e with tape := t }) ∧ swaps.Applies σ) ↔
        ∃ ws ∈ Realising σ, e.tape.Offers ws t) ∧
    (∀ (e e' : AesGcmEngine) (swaps : Swaps), CryptoEngine.shuffle n e = (.ok swaps, e') →
      ∃ σ : Equiv.Perm (Fin n), swaps.Applies σ) ∧
    ∀ (size total offset : Nat) (e e₁ : AesGcmEngine) (blocks : Bucket size) (l : List Event),
      n * wireSize size ≤ Bytes.maxLength →
      (ordered size total n offset).run e = ⟨.ok blocks, e₁, l⟩ →
      ∀ (σ : Equiv.Perm (Fin n)), ∀ ws ∈ Realising σ, ∀ t, e₁.tape.Offers ws t →
        ∃ bucket l', (sample size total n offset).run e =
          ⟨.ok bucket, { e₁ with tape := t }, l'⟩ ∧ Rearranged σ blocks bucket := by
  have happlies (e : AesGcmEngine) (t : Tape) (σ : Equiv.Perm (Fin n)) :
      (∃ swaps, CryptoEngine.shuffle n e = (.ok swaps, { e with tape := t }) ∧ swaps.Applies σ) ↔
        ∃ ws ∈ Realising σ, e.tape.Offers ws t := by
    simp only [AesGcmEngine.shuffle_eq_ok_iff]
    exact drawShuffle_applies_iff σ e.tape t
  refine ⟨Swaps.existsUnique_ofNumbers, fun r => unbiased, ncard_realising hn, happlies, ?_, ?_⟩
  · intro e e' swaps h
    rw [AesGcmEngine.shuffle_eq] at h
    have hswaps : (drawShuffle n e.tape).1 = .ok swaps := congrArg Prod.fst h
    exact exists_applies_of_drawShuffle (Prod.ext hswaps rfl)
  · intro size total offset e e₁ blocks l hfit hordered σ ws hws t hoffers
    obtain ⟨swaps, hswaps, hσ⟩ := (happlies e₁ t σ).2 ⟨ws, hws, hoffers⟩
    refine ⟨swaps.apply blocks, .sampling n offset (min (total / 2) n) :: l, ?_,
      .of_applies hσ (length_of_run_ordered hordered)⟩
    rw [run_sample hfit hordered, hswaps]
    rfl

/-- Three blocks on a tape whose first word is rejected and all others are zero: one of
    2 ^ 60 sequences that move the first block to the end. -/
theorem shuffle_uniform_three_blocks :
    let e : AesGcmEngine :=
      ⟨⟨Vector.replicate keySize 0⟩, ⟨fun p => if p < 4 then 255 else 0, none, 0⟩⟩
    let blocks : Bucket 0 := [.new 7 .normal #v[], .new 8 .normal #v[], .new 9 .dummy #v[]]
    let σ : Equiv.Perm (Fin 3) := Equiv.swap 0 1 * Equiv.swap 1 2
    3 < UInt32.size ∧ 3 * wireSize 0 ≤ Bytes.maxLength ∧
      (ordered 0 4 3 7).run e = ⟨.ok blocks, e, []⟩ ∧ [0, 0] ∈ Realising σ ∧
      e.tape.Offers [0, 0] (e.tape.advance 12) ∧ (Realising σ).ncard = 2 ^ 60 ∧
      ∃ bucket l, (sample 0 4 3 7).run e =
        ⟨.ok bucket, { e with tape := e.tape.advance 12 }, l⟩ ∧ Rearranged σ blocks bucket := by
  intro e blocks σ
  have hordered : (ordered 0 4 3 7).run e = ⟨.ok blocks, e, []⟩ := rfl
  have happlies : (Swaps.ofNumbers [0, 0]).Applies σ := by
    intro α items hlength k
    obtain ⟨a, b, c, rfl⟩ := List.length_eq_three.1 hlength
    match k with
    | 0 => rfl
    | 1 => rfl
    | 2 => rfl
  have hrealising : [0, 0] ∈ Realising σ := ⟨rfl, [0, 0], by decide, happlies⟩
  have hoffers : e.tape.Offers [0, 0] (e.tape.advance 12) := by
    have hfirst : e.tape.words 1 = [0xFFFFFFFF] := by decide +kernel
    have hrejected : ∀ v ∈ e.tape.words 1, accept? 3 v = none := by
      rw [hfirst]
      exact List.forall_mem_singleton.2 (by decide +kernel)
    refine .word (k := 1) (j := 0) (by decide) hrejected rfl rfl ?_
    exact .word (k := 0) (j := 0) (by decide) (List.forall_mem_nil _) rfl rfl (.done _)
  obtain ⟨-, -, hncard, -, -, hsample⟩ := shuffle_uniform 3 (by decide)
  refine ⟨by decide, by decide, hordered, hrealising, hoffers, ?_, ?_⟩
  · rw [hncard]
    decide
  · exact hsample 0 4 7 e e blocks [] (by decide) hordered σ [0, 0] hrealising _ hoffers

/-! ## The types -/

/-- Two blocks that differ in nothing but their types. -/
structure SameButKind (b b' : Block size) : Prop where
  id : b'.header.id = b.header.id
  iv : b'.header.iv = b.header.iv
  macTag : b'.header.macTag = b.header.macTag
  data : b'.data = b.data

/-- Two results that are the same failure, or buckets that differ in nothing but the
    types of their blocks. -/
inductive Alike : Except StoreError (Bucket size) → Except StoreError (Bucket size) → Prop where
  | error (err : StoreError) : Alike (.error err) (.error err)
  | ok {bucket bucket' : Bucket size} (h : List.Forall₂ SameButKind bucket bucket') :
      Alike (.ok bucket) (.ok bucket')

/-- The block with the type of its place when `real` blocks are real. -/
def retyped (real offset : Nat) (b : Block size) : Block size :=
  b.withKind (sampleKind real (b.header.id.toNat - offset))

theorem alike_map_retyped (real offset : Nat) (r : Except StoreError (Bucket size)) :
    Alike r (r.map (List.map (retyped real offset))) := by
  cases r with
  | error err => exact .error err
  | ok bucket =>
    refine .ok (List.forall₂_map_right_iff.2 (List.forall₂_same.2 fun b _ => ?_))
    exact ⟨rfl, rfl, rfl, rfl⟩

theorem numbered_eq_map (real real' offset i : Nat) :
    (numbered size real' offset i : Script σ _) =
      (numbered size real offset i).map (retyped real' offset) := by
  unfold numbered
  split
  · rename_i hi
    have hplace : (UInt32.ofNat (offset + i)).toNat - offset = i := by
      rw [UInt32.toNat_ofNat_of_lt' hi, Nat.add_sub_cancel_left]
    have hnew (data : Vector UInt8 size) :
        retyped real' offset (.new (UInt32.ofNat (offset + i)) (sampleKind real i) data) =
          .new (UInt32.ofNat (offset + i)) (sampleKind real' i) data := by
      show Block.new (UInt32.ofNat (offset + i))
        (sampleKind real' ((UInt32.ofNat (offset + i)).toNat - offset)) data = _
      rw [hplace]
    rw [Script.map_bind]
    refine congrArg (Script.bind _) (funext fun data => ?_)
    rw [← hnew]
    rfl
  · rfl

theorem drawn_eq_map (real real' offset : Nat) (places : List Nat) :
    (Script.mapM (numbered size real' offset) places : Script σ _) =
      (Script.mapM (numbered size real offset) places).map (List.map (retyped real' offset)) :=
  Script.mapM_map places fun i _ => numbered_eq_map real real' offset i

/-- Whatever is real, the same is asked for and the same is made of it, but for the
    types. -/
theorem sampling_eq_map (size total total' count offset : Nat) :
    (sampling size total' count offset : Script σ _) =
      (sampling size total count offset).map (List.map (retyped (total' / 2) offset)) := by
  rw [sampling, sampling, Script.map_bind]
  refine congrArg (Script.bind _) (funext fun u => ?_)
  rw [drawn_eq_map (total / 2), Script.bind_map, Script.map_bind]
  refine congrArg (Script.bind _) (funext fun blocks => ?_)
  rw [Script.map_bind]
  refine congrArg (Script.bind _) (funext fun swaps => ?_)
  rw [Swaps.apply_map]
  rfl

section run

variable [CryptoEngine E] {total count offset : Nat} {e e' : E} {bucket : Bucket size}
  {l : List Event}

theorem of_mem_run_sample (h : (sample size total count offset).run e = ⟨.ok bucket, e', l⟩)
    {b : Block size} (hb : b ∈ bucket) :
    ∃ i < count, b.header.id.toNat = offset + i ∧ b.header.kind = sampleKind (total / 2) i := by
  obtain ⟨blocks, e₁, l₁, swaps, hordered, -, rfl⟩ := ordered_of_run_sample h
  obtain ⟨i, hi, rfl⟩ := List.getElem_of_mem ((swaps.apply_perm blocks).mem_iff.1 hb)
  obtain ⟨hlength, hblocks⟩ := List.forall₂_iff_get.1 (forall₂_ordered hordered)
  obtain ⟨hheader, hlt⟩ := hblocks i (hlength ▸ hi) hi
  simp only [List.get_eq_getElem, List.getElem_range] at hheader hlt
  refine ⟨i, by rwa [← hlength, List.length_range] at hi, ?_, ?_⟩
  · rw [hheader]
    exact UInt32.toNat_ofNat_of_lt' hlt
  · rw [hheader]
    rfl

/-- **Sampling hides which blocks are real.**  For any two numbers of real blocks, the
    engine is asked the same, the blocks that are shuffled and the result are the
    same but for their types, and the engine is left the same. -/
theorem sample_hides_kinds (size total total' count offset : Nat) (e : E) :
    ((Task.sample total' count offset : Task size _ _).script ()).exchanges e =
      ((Task.sample total count offset : Task size _ _).script ()).exchanges e ∧
    Alike ((ordered size total count offset).run e).result
      ((ordered size total' count offset).run e).result ∧
    ((sample size total' count offset).run e).state = ((sample size total count offset).run e).state ∧
    Alike ((sample size total count offset).run e).result
      ((sample size total' count offset).run e).result ∧
    ∀ total₁ e' bucket l, (sample size total₁ count offset).run e = ⟨.ok bucket, e', l⟩ →
      ∀ b ∈ bucket, ∃ i < count, b.header.id.toNat = offset + i ∧
        (b.header.kind = .normal ↔ b.header.id.toNat - offset < total₁ / 2) := by
  have hexchanges : (sampling size total' count offset ()).exchanges e =
      (sampling size total count offset ()).exchanges e := by
    rw [sampling_eq_map size total total', Script.exchanges_map]
  have hordered (total : Nat) : Op.Converses (Op.onSnd (ordered size total count offset))
      (Script.mapM (numbered size (total / 2) offset) (List.range count) : Script Unit _ ) :=
    .mapM (fun i => converses_sampleBlock (E := E) size (total / 2) offset i) (List.range count)
  have hblocks := (hordered total).run_map (drawn_eq_map (total / 2) _ _ _ ▸ hordered total') () e
  have hbucket := (converses_sample size total count offset).run_map
    (sampling_eq_map size total total' count offset ▸ converses_sample size total' count offset) () e
  refine ⟨hexchanges, ?_, hbucket.2, ?_, ?_⟩
  · rw [hblocks.1]
    exact alike_map_retyped _ _ _
  · rw [hbucket.1]
    exact alike_map_retyped _ _ _
  · intro total₁ e' bucket l h b hb
    obtain ⟨i, hi, hid, hkind⟩ := of_mem_run_sample h hb
    refine ⟨i, hi, hid, ?_⟩
    rw [hkind, hid, Nat.add_sub_cancel_left, sampleKind]
    split <;> simp_all

end run

/-- Two blocks of which one is real, and two that are both real: what is drawn is the
    same, and they are swapped. -/
theorem sample_hides_kinds_two_blocks :
    let e : AesGcmEngine :=
      ⟨⟨Vector.replicate keySize 0⟩, ⟨fun p => if p < 2 then 0xA5 else 0, none, 0⟩⟩
    let e' : AesGcmEngine := { e with tape := e.tape.advance 6 }
    let bucket (kind : BlockType) : Bucket 2 :=
      [.new 8 kind #v[8, 0xA5], .new 7 .normal #v[7, 0xA5]]
    (sample 2 2 2 7).run e = ⟨.ok (bucket .dummy), e', [.sampling 2 7 1]⟩ ∧
      (sample 2 5 2 7).run e = ⟨.ok (bucket .normal), e', [.sampling 2 7 2]⟩ ∧
      Alike (.ok (bucket .dummy)) (.ok (bucket .normal)) ∧
      ∀ b ∈ bucket .dummy, ∃ i < 2, b.header.id.toNat = 7 + i ∧
        (b.header.kind = .normal ↔ b.header.id.toNat - 7 < 2 / 2) := by
  intro e e' bucket
  have hdraw : drawShuffle 2 (e.tape.advance 2) = (.ok [(1, 0)], e'.tape) := by
    refine drawSwaps_eq_ok_iff.2 ⟨[0], [0], rfl, ?_, by decide, rfl⟩
    exact .word (k := 0) (j := 0) (by decide) (List.forall_mem_nil _) rfl rfl (.done _)
  have hshuffle := (AesGcmEngine.shuffle_eq_ok_iff (e := { e with tape := e.tape.advance 2 })).2 hdraw
  have hordered (total : Nat) : (ordered 2 total 2 7).run e =
      ⟨.ok [.new 7 (sampleKind (total / 2) 0) #v[7, 0xA5],
        .new 8 (sampleKind (total / 2) 1) #v[8, 0xA5]], { e with tape := e.tape.advance 2 }, []⟩ := rfl
  have hone := run_sample (by decide) (hordered 2)
  have htwo := run_sample (by decide) (hordered 5)
  rw [hshuffle] at hone htwo
  obtain ⟨-, -, -, halike, hkinds⟩ := sample_hides_kinds 2 2 5 2 7 e
  rw [hone, htwo] at halike
  exact ⟨hone, htwo, halike, hkinds 2 _ _ _ hone⟩

end Bucket

end ObliviousStore

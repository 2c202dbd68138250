/-
  What encryption and decryption leave of a block, whatever its engine does.

  A run succeeds exactly if the engine's answers make up a whole (`Sealing`, `Unsealing`).
  Only then payload and tag change, and then together; a run that fails leaves at most
  another initialisation vector behind (`EncryptsWhole`, `DecryptsWhole`).  A block that is
  not normal is left alone, without a word to the engine (`never_half_changed`).
-/
import ObliviousStore.Engine.Scripted
import ObliviousStore.Proofs.Engine.Task

namespace ObliviousStore.Block

open Bytes

variable {size : Nat} {E : Type} [CryptoEngine E] {b : Block size} {e : E}

/-! ## Encryption -/

/-- The block with the initialisation vector that was drawn, if one was. -/
def afterDraw (b : Block size) : Except StoreError Iv → Block size
  | .ok iv => b.withIv iv
  | .error _ => b

theorem id_afterDraw (b : Block size) (r : Except StoreError Iv) :
    (b.afterDraw r).header.id = b.header.id := by
  cases r <;> rfl

theorem kind_afterDraw (b : Block size) (r : Except StoreError Iv) :
    (b.afterDraw r).header.kind = b.header.kind := by
  cases r <;> rfl

/-- The engine draws `iv` and seals the payload under it, and the result `x` has the
    right length. -/
structure Sealing (b : Block size) (e : E) (iv : Iv) (x : Bytes) : Prop where
  drawn : (CryptoEngine.randomBytes ivSize e).1 = .ok iv
  sealed : (CryptoEngine.encrypt iv b.header.associatedData b.data.toList
    (CryptoEngine.randomBytes ivSize e).2).1 = .ok x
  length_eq : x.length = size + macTagSize

/-- What a run of encryption leaves of a normal block. -/
structure EncryptsWhole (b : Block size) (e : E) : Prop where
  id_eq : (encrypt.run (b, e)).state.1.header.id = b.header.id
  kind_eq : (encrypt.run (b, e)).state.1.header.kind = b.header.kind
  of_error : ∀ err, (encrypt.run (b, e)).result = .error err →
    (encrypt.run (b, e)).state.1 = b.afterDraw (CryptoEngine.randomBytes ivSize e).1
  ok_iff : (encrypt.run (b, e)).result = .ok () ↔ ∃ iv x, Sealing b e iv x
  of_sealing : ∀ iv x, Sealing b e iv x →
    (encrypt.run (b, e)).state.1.header.iv = iv ∧
    (encrypt.run (b, e)).state.1.data.toList ++
      (encrypt.run (b, e)).state.1.header.macTag.toList = x ∧
    ∃ e₁ e₂, (encryption b).exchanges e =
      [⟨.randomBytes ivSize, e, .ok iv, e₁⟩,
        ⟨.encrypt iv b.header.associatedData b.data.toList, e₁, .ok x, e₂⟩]

theorem Sealing.run_encrypt (hn : b.isNormal) {iv : Iv} {x : Bytes} (h : Sealing b e iv x) :
    ∃ e', encrypt.run (b, e) = ⟨.ok (), ((b.withIv iv).withSealed x h.length_eq, e'), []⟩ := by
  rw [run_encrypt_of_isNormal hn]
  rcases hdraw : CryptoEngine.randomBytes ivSize e with ⟨r, e₁⟩
  obtain rfl : r = .ok iv := (congrArg Prod.fst hdraw).symm.trans h.drawn
  rcases hseal : (b.withIv iv).sealCall e₁ with ⟨r, e₂⟩
  have hsealed := h.sealed
  rw [hdraw] at hsealed
  obtain rfl : r = .ok x := (congrArg Prod.fst hseal).symm.trans hsealed
  refine ⟨e₂, ?_⟩
  simp only [hseal, dif_pos h.length_eq]

theorem run_encrypt_of_not_sealing (hn : b.isNormal) (h : ∀ iv x, ¬Sealing b e iv x) :
    ∃ err e', encrypt.run (b, e) =
      ⟨.error err, (b.afterDraw (CryptoEngine.randomBytes ivSize e).1, e'), []⟩ := by
  rw [run_encrypt_of_isNormal hn]
  rcases hdraw : CryptoEngine.randomBytes ivSize e with ⟨err | iv, e₁⟩
  · exact ⟨err, e₁, rfl⟩
  · rcases hseal : (b.withIv iv).sealCall e₁ with ⟨err | x, e₂⟩
    · refine ⟨err, e₂, ?_⟩
      simp only [hseal, afterDraw]
    · have hx : x.length ≠ size + macTagSize := fun hlength =>
        h iv x ⟨by rw [hdraw], by rw [hdraw]; exact congrArg Prod.fst hseal, hlength⟩
      refine ⟨.encryption, e₂, ?_⟩
      simp only [hseal, dif_neg hx, afterDraw]

theorem Sealing.exchanges_encryption (hn : b.isNormal) {iv : Iv} {x : Bytes}
    (h : Sealing b e iv x) : ∃ e₁ e₂, (encryption b).exchanges e =
      [⟨.randomBytes ivSize, e, .ok iv, e₁⟩,
        ⟨.encrypt iv b.header.associatedData b.data.toList, e₁, .ok x, e₂⟩] := by
  refine ⟨(CryptoEngine.randomBytes ivSize e).2,
    (CryptoEngine.encrypt iv b.header.associatedData b.data.toList
      (CryptoEngine.randomBytes ivSize e).2).2, ?_⟩
  simp only [encryption, hn, if_true, Dialogue.exchanges, Query.call, h.drawn, h.sealed]

theorem encryptsWhole (hn : b.isNormal) (e : E) : EncryptsWhole b e := by
  by_cases h : ∃ iv x, Sealing b e iv x
  · obtain ⟨iv, x, hs⟩ := h
    obtain ⟨e', hrun⟩ := hs.run_encrypt hn
    refine ⟨by rw [hrun]; rfl, by rw [hrun]; rfl, fun err herr => ?_, ?_, fun iv x hs => ?_⟩
    · rw [hrun] at herr
      exact absurd herr (by simp)
    · exact ⟨fun _ => ⟨iv, x, hs⟩, fun _ => by rw [hrun]⟩
    · obtain ⟨e', hrun⟩ := hs.run_encrypt hn
      rw [hrun]
      exact ⟨rfl, toList_withSealed (b.withIv iv) hs.length_eq, hs.exchanges_encryption hn⟩
  · obtain ⟨err, e', hrun⟩ := run_encrypt_of_not_sealing hn fun iv x hs => h ⟨iv, x, hs⟩
    refine ⟨?_, ?_, fun err _ => ?_, ⟨fun hok => ?_, fun hs => absurd hs h⟩, fun iv x hs => ?_⟩
    · rw [hrun, id_afterDraw]
    · rw [hrun, kind_afterDraw]
    · rw [hrun]
    · rw [hrun] at hok
      exact absurd hok (by simp)
    · exact absurd ⟨iv, x, hs⟩ h

/-! ## Decryption -/

/-- The engine opens payload and tag, and the result has the right length. -/
structure Unsealing (b : Block size) (e : E) (text : Bytes) : Prop where
  opened : (CryptoEngine.decrypt b.header.iv b.header.associatedData
    (b.data.toList ++ b.header.macTag.toList) e).1 = .ok text
  length_eq : text.length = size

/-- What a run of decryption leaves of a normal block. -/
structure DecryptsWhole (b : Block size) (e : E) : Prop where
  header_eq : (decrypt.run (b, e)).state.1.header = b.header
  of_error : ∀ err, (decrypt.run (b, e)).result = .error err → (decrypt.run (b, e)).state.1 = b
  ok_iff : (decrypt.run (b, e)).result = .ok () ↔ ∃ text, Unsealing b e text
  of_unsealing : ∀ text, Unsealing b e text →
    (decrypt.run (b, e)).state.1.data.toList = text ∧
    ∃ e₁, (decryption b).exchanges e =
      [⟨.decrypt b.header.iv b.header.associatedData (b.data.toList ++ b.header.macTag.toList),
        e, .ok text, e₁⟩]

theorem toList_withText (b : Block size) {text : Bytes} (h : text.length = size) :
    (b.withText text h).data.toList = text := by
  rw [withText, toList_slice, List.drop_zero, List.take_of_length_le (Nat.le_of_eq h)]

theorem Unsealing.run_decrypt (hn : b.isNormal) {text : Bytes} (h : Unsealing b e text) :
    ∃ e', decrypt.run (b, e) = ⟨.ok (), (b.withText text h.length_eq, e'), []⟩ := by
  rw [run_decrypt_of_isNormal hn]
  rcases hopen : b.unsealCall e with ⟨r, e₁⟩
  obtain rfl : r = .ok text := (congrArg Prod.fst hopen).symm.trans h.opened
  refine ⟨e₁, ?_⟩
  simp only [dif_pos h.length_eq]

theorem run_decrypt_of_not_unsealing (hn : b.isNormal) (h : ∀ text, ¬Unsealing b e text) :
    ∃ err e', decrypt.run (b, e) = ⟨.error err, (b, e'), []⟩ := by
  rw [run_decrypt_of_isNormal hn]
  rcases hopen : b.unsealCall e with ⟨err | text, e₁⟩
  · exact ⟨err, e₁, rfl⟩
  · have ht : text.length ≠ size := fun hlength => h text ⟨congrArg Prod.fst hopen, hlength⟩
    refine ⟨.authentication, e₁, ?_⟩
    simp only [dif_neg ht]

theorem Unsealing.exchanges_decryption (hn : b.isNormal) {text : Bytes} (h : Unsealing b e text) :
    ∃ e₁, (decryption b).exchanges e =
      [⟨.decrypt b.header.iv b.header.associatedData (b.data.toList ++ b.header.macTag.toList),
        e, .ok text, e₁⟩] := by
  refine ⟨(CryptoEngine.decrypt b.header.iv b.header.associatedData
    (b.data.toList ++ b.header.macTag.toList) e).2, ?_⟩
  simp only [decryption, hn, if_true, Dialogue.exchanges, Query.call, h.opened]

theorem decryptsWhole (hn : b.isNormal) (e : E) : DecryptsWhole b e := by
  by_cases h : ∃ text, Unsealing b e text
  · obtain ⟨text, hs⟩ := h
    obtain ⟨e', hrun⟩ := hs.run_decrypt hn
    refine ⟨by rw [hrun]; rfl, fun err herr => ?_, ?_, fun text hs => ?_⟩
    · rw [hrun] at herr
      exact absurd herr (by simp)
    · exact ⟨fun _ => ⟨text, hs⟩, fun _ => by rw [hrun]⟩
    · obtain ⟨e', hrun⟩ := hs.run_decrypt hn
      rw [hrun]
      exact ⟨toList_withText b hs.length_eq, hs.exchanges_decryption hn⟩
  · obtain ⟨err, e', hrun⟩ := run_decrypt_of_not_unsealing hn fun text hs => h ⟨text, hs⟩
    refine ⟨by rw [hrun], fun err _ => by rw [hrun], ⟨fun hok => ?_, fun hs => absurd hs h⟩,
      fun text hs => absurd ⟨text, hs⟩ h⟩
    rw [hrun] at hok
    exact absurd hok (by simp)

/-! ## Whole blocks -/

/-- **No block is ever half changed.**  Whatever its engine answers, a block that is not
    normal is left alone by encryption and by decryption, and the engine is not asked; of
    a normal block identifier and type stay, payload and tag are replaced together by the
    parts of one result or not at all, and a failure leaves no other trace than the
    initialisation vector of an encryption. -/
theorem never_half_changed (b : Block size) (e : E) :
    Op.Converses (encrypt : Op (Block size × E) Unit) encryption ∧
    Op.Converses (decrypt : Op (Block size × E) Unit) decryption ∧
    (b.header.kind ≠ .normal →
      encrypt.run (b, e) = ⟨.ok (), (b, e), []⟩ ∧ (encryption b).exchanges e = [] ∧
      decrypt.run (b, e) = ⟨.ok (), (b, e), []⟩ ∧ (decryption b).exchanges e = []) ∧
    (b.header.kind = .normal → EncryptsWhole b e ∧ DecryptsWhole b e) := by
  refine ⟨converses_encrypt, converses_decrypt, fun hkind => ?_, fun hkind => ?_⟩
  · have hn : ¬b.isNormal := mt beq_iff_eq.1 hkind
    refine ⟨run_encrypt_of_not_isNormal hn e, ?_, run_decrypt_of_not_isNormal hn e, ?_⟩
    · rw [encryption, if_neg hn, Dialogue.exchanges_done]
    · rw [decryption, if_neg hn, Dialogue.exchanges_done]
  · have hn : b.isNormal := beq_iff_eq.2 hkind
    exact ⟨encryptsWhole hn e, decryptsWhole hn e⟩

/-- A type that only looks like the normal one, and an engine whose first encryption
    fails. -/
theorem never_half_changed_scripted :
    let e : ScriptedEngine AesGcmEngine :=
      ⟨⟨⟨Vector.replicate keySize 0⟩, ⟨fun _ => 0, none, 0⟩⟩, [⟨.encrypt, 0, .failure⟩], .zero⟩
    let b : Block 1 := new 7 .normal #v[0xAB]
    let u : Block 1 := new 7 (.unknown 0) #v[0xAB]
    encrypt.run (u, e) = ⟨.ok (), (u, e), []⟩ ∧ (encryption u).exchanges e = [] ∧
      (encrypt.run (b, e)).result = .error .encryption ∧
      (encrypt.run (b, e)).state.1 = b.afterDraw (CryptoEngine.randomBytes ivSize e).1 := by
  intro e b u
  obtain ⟨-, -, hother, -⟩ := never_half_changed u e
  obtain ⟨hrun, hexchanges, -⟩ := hother (by decide)
  obtain ⟨-, -, -, hnormal⟩ := never_half_changed b e
  have hresult : (encrypt.run (b, e)).result = .error .encryption := rfl
  exact ⟨hrun, hexchanges, hresult, (hnormal rfl).1.of_error .encryption hresult⟩

end ObliviousStore.Block

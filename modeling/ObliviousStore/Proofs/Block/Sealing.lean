/-
  Runs of encryption and decryption on one block — what each of them calls, and
  where it stops.

  Under the engine of the library an encryption that succeeds seals the payload
  (`SealedUnder`), and decrypting a sealed block with an engine of the same key
  always succeeds and puts the payload back (`run_decrypt_of_sealedUnder`).
-/
import ObliviousStore.Block.Sealing
import ObliviousStore.Proofs.Cipher.Gcm
import ObliviousStore.Proofs.Op
import ObliviousStore.Engine.AesGcm

namespace ObliviousStore.Block

open Bytes

variable {size : Nat}

section run

variable {E : Type} [CryptoEngine E] {b : Block size}

theorem run_encrypt_of_not_isNormal (h : ¬b.isNormal) (e : E) :
    (encrypt : Op (Block size × E) Unit).run (b, e) = ⟨.ok (), (b, e), []⟩ := by
  simp only [encrypt, Op.run_bind, Op.run_get, h]
  rfl

theorem run_decrypt_of_not_isNormal (h : ¬b.isNormal) (e : E) :
    (decrypt : Op (Block size × E) Unit).run (b, e) = ⟨.ok (), (b, e), []⟩ := by
  simp only [decrypt, Op.run_bind, Op.run_get, h]
  rfl

/-- Encrypting stops at the first call that fails and keeps the initialisation
    vector it drew. -/
theorem run_encrypt_of_isNormal (h : b.isNormal) (e : E) :
    (encrypt : Op (Block size × E) Unit).run (b, e) =
      match CryptoEngine.randomBytes ivSize e with
      | (.error err, e') => ⟨.error err, (b, e'), []⟩
      | (.ok iv, e') =>
        match (b.withIv iv).sealCall e' with
        | (.error err, e'') => ⟨.error err, (b.withIv iv, e''), []⟩
        | (.ok result, e'') =>
          if hr : result.length = size + macTagSize then
            ⟨.ok (), ((b.withIv iv).withSealed result hr, e''), []⟩
          else ⟨.error .encryption, (b.withIv iv, e''), []⟩ := by
  simp only [encrypt, Op.run_bind, Op.run_get, h, if_true, Op.run_onSnd, Op.run_call]
  rcases hr : CryptoEngine.randomBytes ivSize e with ⟨err | iv, e'⟩
  · rfl
  · simp only [Op.run_modify, Op.run_onSnd, Op.run_call]
    rcases hs : (b.withIv iv).sealCall e' with ⟨err | result, e''⟩
    · rfl
    · simp only [List.nil_append]
      split <;> rfl

theorem run_decrypt_of_isNormal (h : b.isNormal) (e : E) :
    (decrypt : Op (Block size × E) Unit).run (b, e) =
      match b.unsealCall e with
      | (.error err, e') => ⟨.error err, (b, e'), []⟩
      | (.ok text, e') =>
        if ht : text.length = size then ⟨.ok (), (b.withText text ht, e'), []⟩
        else ⟨.error .authentication, (b, e'), []⟩ := by
  simp only [decrypt, Op.run_bind, Op.run_get, h, if_true, Op.run_onSnd, Op.run_call]
  rcases hs : b.unsealCall e with ⟨err | text, e'⟩
  · rfl
  · simp only [List.nil_append]
    split <;> rfl

end run

/-! ## Payloads and sealed payloads -/

theorem toList_withSealed (b : Block size) {result : Bytes}
    (h : result.length = size + macTagSize) :
    (b.withSealed result h).data.toList ++ (b.withSealed result h).header.macTag.toList =
      result := by
  have hrest : (result.drop size).take macTagSize = result.drop size :=
    List.take_of_length_le (by rw [List.length_drop]; omega)
  simp only [withSealed, toList_slice, List.drop_zero, hrest, List.take_append_drop]

def withData (b : Block size) (data : Vector UInt8 size) : Block size := { b with data }

theorem withText_toList (b : Block size) (data : Vector UInt8 size)
    (h : data.toList.length = size) : b.withText data.toList h = b.withData data := by
  rw [withText, withData, slice_eq _ (List.append_nil _).symm]

/-! ## Under the engine of the library -/

/-- `c` is what an encryption under a block cipher makes of `b`: a normal block
    has its payload sealed, any other is left alone. -/
structure SealedUnder (cipher : CipherBlock → CipherBlock) (b c : Block size) : Prop where
  id_eq : c.header.id = b.header.id
  kind_eq : c.header.kind = b.header.kind
  sealed : b.isNormal → c.data.toList ++ c.header.macTag.toList =
    Gcm.encrypt cipher c.header.iv b.header.associatedData b.data.toList
  data_eq : ¬b.isNormal → c.data = b.data

variable {b c : Block size} {e e' : AesGcmEngine} {l : List Event}

theorem SealedUnder.isNormal_iff {cipher : CipherBlock → CipherBlock}
    (h : SealedUnder cipher b c) : c.isNormal ↔ b.isNormal := by
  rw [isNormal, isNormal, h.kind_eq]

theorem SealedUnder.associatedData_eq {cipher : CipherBlock → CipherBlock}
    (h : SealedUnder cipher b c) : c.header.associatedData = b.header.associatedData := by
  rw [Header.associatedData, Header.associatedData, h.id_eq, h.kind_eq]

theorem run_encrypt_of_admits (hn : b.isNormal) (ht : e.tape.admits ivSize) :
    ∃ c e', encrypt.run (b, e) = ⟨.ok (), (c, e'), []⟩ ∧
      (e'.key = e.key ∧ e'.tape.limit = e.tape.limit) ∧ SealedUnder e.cipher b c := by
  have hdraw : CryptoEngine.randomBytes ivSize e =
      (.ok (e.tape.interval e.tape.position ivSize), { e with tape := e.tape.advance ivSize }) := by
    simp only [CryptoEngine.randomBytes, AesGcmEngine.draw, Tape.fill, ht, if_true]
  have hseal (iv : Iv) (t : Tape) : (b.withIv iv).sealCall { e with tape := t } =
      (.ok (Gcm.encrypt e.cipher iv b.header.associatedData b.data.toList),
        { e with tape := t }) := rfl
  have hlength (iv : Iv) : (Gcm.encrypt e.cipher iv b.header.associatedData
      b.data.toList).length = size + macTagSize := by
    rw [Gcm.length_encrypt, Vector.length_toList]
  generalize e.tape.interval e.tape.position ivSize = iv at hdraw
  rw [run_encrypt_of_isNormal hn, hdraw]
  simp only [hseal]
  rw [dif_pos (hlength iv)]
  refine ⟨(b.withIv iv).withSealed _ (hlength iv), _, rfl, ⟨rfl, rfl⟩, rfl, rfl, fun _ => ?_, ?_⟩
  · exact toList_withSealed (b.withIv iv) (hlength iv)
  · exact fun h => absurd hn h

theorem run_encrypt_of_not_admits (hn : b.isNormal) (ht : ¬e.tape.admits ivSize) :
    encrypt.run (b, e) = ⟨.error .randomness, (b, e), []⟩ := by
  have hdraw : CryptoEngine.randomBytes ivSize e = (.error .randomness, e) := by
    simp only [CryptoEngine.randomBytes, AesGcmEngine.draw, Tape.fill, ht]
    rfl
  rw [run_encrypt_of_isNormal hn, hdraw]

/-- An encryption under the engine of the library fails only for want of an
    initialisation vector, and never changes the key. -/
theorem run_encrypt (b : Block size) (e : AesGcmEngine) :
    ∃ r c e', encrypt.run (b, e) = ⟨r, (c, e'), []⟩ ∧ e'.key = e.key ∧
      (r = .ok () ↔ b.isNormal → e.tape.admits ivSize) ∧
      (r = .ok () → SealedUnder e.cipher b c) := by
  by_cases hn : b.isNormal
  · by_cases ht : e.tape.admits ivSize
    · obtain ⟨c, e', hrun, ⟨hkey, -⟩, hc⟩ := run_encrypt_of_admits hn ht
      exact ⟨.ok (), c, e', hrun, hkey, ⟨fun _ _ => ht, fun _ => rfl⟩, fun _ => hc⟩
    · refine ⟨.error .randomness, b, e, run_encrypt_of_not_admits hn ht, rfl, ?_, ?_⟩
      · exact ⟨fun h => absurd h (by simp), fun h => absurd (h hn) ht⟩
      · exact fun h => absurd h (by simp)
  · refine ⟨.ok (), b, e, run_encrypt_of_not_isNormal hn e, rfl, ?_, fun _ => ⟨rfl, rfl, ?_, ?_⟩⟩
    · exact ⟨fun _ h => absurd h hn, fun _ => rfl⟩
    · exact fun h => absurd h hn
    · exact fun _ => rfl

/-- With a tape without a limit every block is encrypted, and so is the next one. -/
theorem exists_run_encrypt (b : Block size) (h : e.tape.limit = none) :
    ∃ c e', encrypt.run (b, e) = ⟨.ok (), (c, e'), []⟩ ∧ e'.tape.limit = none := by
  by_cases hn : b.isNormal
  · obtain ⟨c, e', hrun, ⟨-, hlimit⟩, -⟩ :=
      run_encrypt_of_admits hn (Tape.admits_of_limit_eq_none h ivSize)
    exact ⟨c, e', hrun, hlimit.trans h⟩
  · exact ⟨b, e, run_encrypt_of_not_isNormal hn e, h⟩

theorem sealedUnder_of_run_encrypt (h : encrypt.run (b, e) = ⟨.ok (), (c, e'), l⟩) :
    SealedUnder e.cipher b c ∧ e'.key = e.key := by
  obtain ⟨r, c', e₁, hrun, hkey, -, hsealed⟩ := run_encrypt b e
  rw [hrun, Outcome.mk.injEq, Prod.mk.injEq] at h
  obtain ⟨rfl, ⟨rfl, rfl⟩, -⟩ := h
  exact ⟨hsealed rfl, hkey⟩

theorem keeps_key_encrypt (key : SecretKey) :
    Op.Keeps (fun st : Block size × AesGcmEngine => st.2.key = key) encrypt := by
  rintro ⟨b, e⟩ he
  obtain ⟨r, c, e', hrun, hkey, -⟩ := run_encrypt b e
  rw [hrun]
  exact hkey.trans he

theorem unsealCall_snd (c : Block size) (e : AesGcmEngine) : (c.unsealCall e).2 = e := by
  simp only [unsealCall, CryptoEngine.decrypt]
  split <;> rfl

/-- A decryption leaves the engine of the library as it is. -/
theorem keeps_decrypt (e₀ : AesGcmEngine) :
    Op.Keeps (fun st : Block size × AesGcmEngine => st.2 = e₀) decrypt := by
  rintro ⟨c, e⟩ he
  by_cases hn : c.isNormal
  · have hsnd := unsealCall_snd c e
    rw [run_decrypt_of_isNormal hn]
    rcases hcall : c.unsealCall e with ⟨err | text, e'⟩
    · rw [hcall] at hsnd
      exact hsnd.trans he
    · rw [hcall] at hsnd
      simp only
      split <;> exact hsnd.trans he
  · rw [run_decrypt_of_not_isNormal hn]
    exact he

theorem keeps_key_decrypt (key : SecretKey) :
    Op.Keeps (fun st : Block size × AesGcmEngine => st.2.key = key) decrypt := by
  rintro ⟨c, e⟩ he
  exact (congrArg AesGcmEngine.key (keeps_decrypt e (c, e) rfl)).trans he

/-- Decrypting a sealed block puts its payload back and changes nothing else. -/
theorem run_decrypt_of_sealedUnder (h : SealedUnder e.cipher b c) :
    decrypt.run (c, e) = ⟨.ok (), (c.withData b.data, e), []⟩ := by
  by_cases hn : b.isNormal
  · have hcall : c.unsealCall e = (.ok b.data.toList, e) := by
      have hopen := Gcm.decrypt?_encrypt e.cipher c.header.iv b.header.associatedData b.data.toList
      simp only [unsealCall, CryptoEngine.decrypt, h.sealed hn, h.associatedData_eq, hopen]
    rw [run_decrypt_of_isNormal (h.isNormal_iff.2 hn), hcall]
    simp only [Vector.length_toList, dif_pos, withText_toList]
  · rw [run_decrypt_of_not_isNormal (mt h.isNormal_iff.1 hn), withData, ← h.data_eq hn]

end ObliviousStore.Block

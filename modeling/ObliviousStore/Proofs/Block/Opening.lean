/-
  What opens under the engine of the library.

  Whether a normal block is decrypted depends on its tag alone (`run_decrypt`): it has to
  be the one that its initialisation vector, its identifier and type and its payload have
  together.  So decryption accepts the results of encryptions and nothing else, and takes
  them back (`decrypt_accepts_sealed`).
-/
import ObliviousStore.Proofs.Block.Sealing

namespace ObliviousStore.Block

open Bytes

variable {size : Nat} {c : Block size} {e : AesGcmEngine}

/-- The payload and the tag of the block are the sealed form of `text`. -/
def Seals (cipher : CipherBlock → CipherBlock) (c : Block size) (text : Vector UInt8 size) : Prop :=
  Gcm.encrypt cipher c.header.iv (littleEndian c.header.id ++ [c.header.kind.tag]) text.toList =
    c.data.toList ++ c.header.macTag.toList

def withMacTag (c : Block size) (macTag : MacTag) : Block size :=
  { c with header := { c.header with macTag } }

/-- The tag that the rest of the block calls for. -/
def rightTag (cipher : CipherBlock → CipherBlock) (c : Block size) : MacTag :=
  Gcm.tag cipher c.header.iv c.header.associatedData c.data.toList

/-- The payload with the keystream added. -/
def opened (cipher : CipherBlock → CipherBlock) (c : Block size) : Vector UInt8 size :=
  ⟨(Gcm.crypt cipher c.header.iv c.data.toList).toArray, by simp⟩

theorem decrypt?_block (cipher : CipherBlock → CipherBlock) (c : Block size) :
    Gcm.decrypt? cipher c.header.iv c.header.associatedData
        (c.data.toList ++ c.header.macTag.toList) =
      if c.header.macTag = rightTag cipher c then some (opened cipher c).toList else none :=
  Gcm.decrypt?_append cipher c.header.iv c.header.associatedData c.data.toList c.header.macTag

theorem run_decrypt (hc : c.isNormal) (e : AesGcmEngine) :
    decrypt.run (c, e) =
      if c.header.macTag = rightTag e.cipher c then
        ⟨.ok (), (c.withData (opened e.cipher c), e), []⟩
      else ⟨.error .authentication, (c, e), []⟩ := by
  rw [run_decrypt_of_isNormal hc]
  simp only [unsealCall, CryptoEngine.decrypt, decrypt?_block]
  by_cases hm : c.header.macTag = rightTag e.cipher c
  · simp only [hm, if_true, Vector.length_toList, dif_pos, withText_toList]
  · simp only [hm, if_false]

theorem seals_iff {cipher : CipherBlock → CipherBlock} {text : Vector UInt8 size} :
    Seals cipher c text ↔ c.header.macTag = rightTag cipher c ∧ opened cipher c = text := by
  rw [Seals, eq_comm, ← Header.associatedData, ← Gcm.decrypt?_eq_some_iff, decrypt?_block,
    Option.ite_none_right_eq_some, Option.some.injEq, Vector.toList_inj]

theorem seals_of_run_encrypt {b : Block size} {e₁ e₂ : AesGcmEngine} {l : List Event}
    (hc : c.isNormal) (h : encrypt.run (b, e₁) = ⟨.ok (), (c, e₂), l⟩) (hkey : e.key = e₁.key) :
    Seals e.cipher c b.data := by
  obtain ⟨hs, -⟩ := sealedUnder_of_run_encrypt h
  rw [Seals, AesGcmEngine.cipher_eq_of_key_eq hkey, ← Header.associatedData, hs.associatedData_eq]
  exact (hs.sealed (hs.isNormal_iff.1 hc)).symm

/-- **Decryption accepts the results of encryptions and nothing else.**  A normal block is
    decrypted to the one payload that it is sealed with, its header left as it is; a block
    that is sealed with none is refused and left as it is.  Of all tags one is accepted,
    and what an encryption under the same key made is taken back. -/
theorem decrypt_accepts_sealed (c : Block size) (hc : c.isNormal) (e : AesGcmEngine) :
    (∀ text, (decrypt.run (c, e)).result = .ok () ∧ (decrypt.run (c, e)).state.1.data = text ↔
      Seals e.cipher c text) ∧
    (∀ text, Seals e.cipher c text →
      decrypt.run (c, e) = ⟨.ok (), (c.withData text, e), []⟩) ∧
    ((∀ text, ¬Seals e.cipher c text) →
      decrypt.run (c, e) = ⟨.error .authentication, (c, e), []⟩) ∧
    (∃! m : MacTag, (decrypt.run (c.withMacTag m, e)).result = .ok ()) ∧
    ∀ (b : Block size) (e₁ e₂ : AesGcmEngine) (l : List Event),
      encrypt.run (b, e₁) = ⟨.ok (), (c, e₂), l⟩ → e.key = e₁.key →
        decrypt.run (c, e) = ⟨.ok (), (c.withData b.data, e), []⟩ ∧
        c.header.id = b.header.id ∧ c.header.kind = b.header.kind ∧
        ∀ m, m ≠ c.header.macTag →
          decrypt.run (c.withMacTag m, e) = ⟨.error .authentication, (c.withMacTag m, e), []⟩ := by
  have hseal {text : Vector UInt8 size} (h : Seals e.cipher c text) :
      decrypt.run (c, e) = ⟨.ok (), (c.withData text, e), []⟩ := by
    obtain ⟨htag, rfl⟩ := seals_iff.1 h
    rw [run_decrypt hc, if_pos htag]
  have htag (m : MacTag) : decrypt.run (c.withMacTag m, e) =
      if m = rightTag e.cipher c then
        ⟨.ok (), ((c.withMacTag m).withData (opened e.cipher c), e), []⟩
      else ⟨.error .authentication, (c.withMacTag m, e), []⟩ :=
    run_decrypt (c := c.withMacTag m) hc e
  refine ⟨fun text => ⟨fun h => ?_, fun h => ?_⟩, fun text => hseal, fun h => ?_, ?_, ?_⟩
  · rw [run_decrypt hc] at h
    by_cases hm : c.header.macTag = rightTag e.cipher c
    · rw [if_pos hm] at h
      exact seals_iff.2 ⟨hm, h.2⟩
    · rw [if_neg hm] at h
      exact absurd h.1 (by simp)
  · rw [hseal h]
    exact ⟨rfl, rfl⟩
  · rw [run_decrypt hc, if_neg fun hm => h _ (seals_iff.2 ⟨hm, rfl⟩)]
  · refine ⟨rightTag e.cipher c, ?_, fun m hm => ?_⟩
    · simp only [htag, if_true]
    · by_contra hne
      simp only [htag, hne, if_false] at hm
      exact absurd hm (by simp)
  · intro b e₁ e₂ l hrun hkey
    obtain ⟨hs, -⟩ := sealedUnder_of_run_encrypt hrun
    have hsealed := seals_of_run_encrypt hc hrun hkey
    refine ⟨hseal hsealed, hs.id_eq, hs.kind_eq, fun m hm => ?_⟩
    rw [htag, if_neg fun h => hm (h.trans (seals_iff.1 hsealed).1.symm)]

/-- A block encrypted under the key of zeros. -/
theorem decrypt_accepts_sealed_zero :
    let e : AesGcmEngine := ⟨⟨Vector.replicate keySize 0⟩, ⟨fun _ => 0, none, 0⟩⟩
    let b : Block 1 := new 7 .normal #v[0xAB]
    ∃ c e', encrypt.run (b, e) = ⟨.ok (), (c, e'), []⟩ ∧ c.isNormal ∧ Seals e.cipher c b.data ∧
      decrypt.run (c, e) = ⟨.ok (), (c.withData b.data, e), []⟩ ∧
      (∃! m : MacTag, (decrypt.run (c.withMacTag m, e)).result = .ok ()) := by
  intro e b
  obtain ⟨c, e', hrun, -, hs⟩ := run_encrypt_of_admits (b := b) (e := e) rfl rfl
  have hc : c.isNormal := hs.isNormal_iff.2 rfl
  obtain ⟨-, hsealed, -, htag, -⟩ := decrypt_accepts_sealed c hc e
  have hseals : Seals e.cipher c b.data := seals_of_run_encrypt hc hrun rfl
  exact ⟨c, e', hrun, hc, hseals, hsealed b.data hseals, htag⟩

end ObliviousStore.Block

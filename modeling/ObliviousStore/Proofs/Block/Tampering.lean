/-
  Tampering that the tag always tells.

  The tag of an encrypted block is a hash of its identifier, its type and its payload.
  Under a key whose hash is taken at a point that is not zero, no change within one run
  of 16 bytes leaves it as it is, so that such a change to the payload, or any change to
  the identifier, is refused (`decrypt_tampered`).
-/
import ObliviousStore.Proofs.Block.Opening
import ObliviousStore.Proofs.Cipher.Aes256
import ObliviousStore.Proofs.Cipher.Tag

namespace ObliviousStore.Block

open Bytes

variable {size : Nat} {b c : Block size} {e e' e'' : AesGcmEngine} {l : List Event}

def withId (b : Block size) (id : BlockId) : Block size :=
  { b with header := { b.header with id } }

theorem rightTag_withData_ne {cipher : CipherBlock → CipherBlock} (hkey : Gcm.hashKey cipher ≠ 0)
    {data : Vector UInt8 size} {k : Nat} (hne : data ≠ c.data)
    (hoff : ∀ i (h : i < size), i / 16 ≠ k → data[i] = c.data[i]) :
    rightTag cipher (c.withData data) ≠ rightTag cipher c := by
  refine Gcm.tag_ne_of_ciphertext (k := k) hkey c.header.iv c.header.associatedData ?_ ?_ ?_
  · rw [Vector.length_toList, Vector.length_toList]
  · intro i hi
    rw [Vector.getElem?_toList, Vector.getElem?_toList]
    by_cases h : i < size
    · rw [Vector.getElem?_eq_getElem h, Vector.getElem?_eq_getElem h]
      exact congrArg some (hoff i h hi)
    · have hle := Nat.le_of_not_lt h
      rw [Vector.getElem?_eq_none hle, Vector.getElem?_eq_none hle]
  · exact mt Vector.toList_inj.1 hne

theorem associatedData_withId_ne {id : BlockId} (hne : id ≠ c.header.id) :
    (c.withId id).header.associatedData ≠ c.header.associatedData := by
  intro h
  have hword := congrArg ofLittleEndian (List.append_cancel_right h)
  rw [ofLittleEndian_littleEndian, ofLittleEndian_littleEndian] at hword
  exact hne hword

theorem rightTag_withId_ne {cipher : CipherBlock → CipherBlock} (hkey : Gcm.hashKey cipher ≠ 0)
    {id : BlockId} (hne : id ≠ c.header.id) :
    rightTag cipher (c.withId id) ≠ rightTag cipher c := by
  -- identifier and type take up five bytes of the first sixteen
  refine Gcm.tag_ne_of_associated (k := 0) hkey c.header.iv c.data.toList rfl (fun i hi => ?_)
    (associatedData_withId_ne hne)
  have hlength (h : Header) : h.associatedData.length ≤ i := by
    rw [Header.associatedData, List.length_append, length_littleEndian, List.length_singleton]
    omega
  rw [List.getElem?_eq_none (hlength _), List.getElem?_eq_none (hlength _)]

/-- **Local tampering is always told.**  Under a key whose hash is taken at a point that is
    not zero, an encrypted block whose payload was changed within one run of 16 bytes, in
    some bits of one byte for instance, or whose identifier was changed, is refused and
    left as it is. -/
theorem decrypt_tampered (hb : b.isNormal) (hc : encrypt.run (b, e) = ⟨.ok (), (c, e'), l⟩)
    (hk : e''.key = e.key) (hkey : Gcm.hashKey e.cipher ≠ 0) :
    (∀ (data : Vector UInt8 size) (k : Nat), data ≠ c.data →
      (∀ i (h : i < size), i / 16 ≠ k → data[i] = c.data[i]) →
      decrypt.run (c.withData data, e'') =
        ⟨.error .authentication, (c.withData data, e''), []⟩) ∧
    (∀ i (h : i < size) (mask : UInt8), mask ≠ 0 →
      decrypt.run (c.withData (c.data.set i (c.data[i] ^^^ mask)), e'') =
        ⟨.error .authentication, (c.withData (c.data.set i (c.data[i] ^^^ mask)), e''), []⟩) ∧
    ∀ id, id ≠ c.header.id →
      decrypt.run (c.withId id, e'') = ⟨.error .authentication, (c.withId id, e''), []⟩ := by
  have hnormal : c.isNormal := (sealedUnder_of_run_encrypt hc).1.isNormal_iff.2 hb
  have hright : c.header.macTag = rightTag e''.cipher c :=
    (seals_iff.1 (seals_of_run_encrypt hnormal hc hk)).1
  rw [← AesGcmEngine.cipher_eq_of_key_eq hk] at hkey
  have hdata {data : Vector UInt8 size} {k : Nat} (hne : data ≠ c.data)
      (hoff : ∀ i (h : i < size), i / 16 ≠ k → data[i] = c.data[i]) :
      decrypt.run (c.withData data, e'') =
        ⟨.error .authentication, (c.withData data, e''), []⟩ := by
    rw [run_decrypt (c := c.withData data) hnormal, if_neg]
    exact fun h => rightTag_withData_ne hkey hne hoff (h.symm.trans hright)
  refine ⟨fun data k hne hoff => hdata hne hoff, fun i h mask hmask => ?_, fun id hne => ?_⟩
  · refine hdata (k := i / 16) (fun heq => hmask ?_) fun j hj hij => ?_
    · have hbyte : c.data[i] ^^^ mask = c.data[i] :=
        (Vector.getElem_set_self h).symm.trans (congrArg (·[i]) heq)
      exact (UInt8.xor_right_inj _).1 (hbyte.trans UInt8.xor_zero.symm)
    · exact Vector.getElem_set_ne _ _ fun hji => hij (by rw [hji])
  · rw [run_decrypt (c := c.withId id) hnormal, if_neg]
    exact fun h => rightTag_withId_ne hkey hne (h.symm.trans hright)

/-- A block encrypted under the key of zeros. -/
theorem decrypt_tampered_zero :
    let e : AesGcmEngine := ⟨⟨Vector.replicate keySize 0⟩, ⟨fun _ => 0, none, 0⟩⟩
    let b : Block 1 := new 7 .normal #v[0xAB]
    ∃ c e', encrypt.run (b, e) = ⟨.ok (), (c, e'), []⟩ ∧ Gcm.hashKey e.cipher ≠ 0 ∧
      (∀ mask : UInt8, mask ≠ 0 →
        decrypt.run (c.withData (c.data.set 0 (c.data[0] ^^^ mask)), e) =
          ⟨.error .authentication, (c.withData (c.data.set 0 (c.data[0] ^^^ mask)), e), []⟩) ∧
      (c.header.id ≠ 8 ∧
        decrypt.run (c.withId 8, e) = ⟨.error .authentication, (c.withId 8, e), []⟩) := by
  intro e b
  obtain ⟨c, e', hrun, -, hs⟩ := run_encrypt_of_admits (b := b) (e := e) rfl rfl
  have hkey : Gcm.hashKey e.cipher ≠ 0 := by
    rw [Aes256.hashKey_zero]
    decide
  have hid : c.header.id ≠ 8 := by
    rw [hs.id_eq]
    decide
  obtain ⟨-, hmask, hother⟩ := decrypt_tampered (by rfl) hrun rfl hkey
  exact ⟨c, e', hrun, hkey, hmask 0 (by decide), hid, hother 8 hid.symm⟩

end ObliviousStore.Block

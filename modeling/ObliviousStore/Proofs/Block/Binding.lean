/-
  What an encryption binds to the payload of a block, and what it does not.

  The type is part of the associated data, but it is also what decides whether
  a block is decrypted at all: a block whose type byte was rewritten after its
  encryption passes for one that was never encrypted
  (`decrypt_rewritten_kind`).
-/
import ObliviousStore.Proofs.Block.Codec
import ObliviousStore.Proofs.Block.Sealing

namespace ObliviousStore.Block

variable {size : Nat}

/-- The fifth byte of the wire form is the type. -/
theorem encode_withKind (c : Block size) (kind : BlockType) :
    (c.withKind kind).encode = c.encode.set 4 kind.tag := by
  simp only [encode, withKind, List.append_assoc]
  rw [List.set_append_right _ _ (Nat.le_of_eq (Bytes.length_littleEndian _)),
    Bytes.length_littleEndian]
  rfl

theorem decode_set_kind (c : Block size) (t : UInt8) :
    decode size (c.encode.set 4 t) = .ok (c.withKind (.ofTag t)) := by
  have hset := encode_withKind c (.ofTag t)
  rw [BlockType.tag_ofTag] at hset
  rw [← hset, decode_encode, canonical]
  simp only [withKind, BlockType.tag_ofTag]

/-- **The type of an encrypted block is not authenticated.**  With any other byte
    than its own in the place of its type, an encrypted block is read and passes
    decryption as it stands, with its ciphertext for a payload; the authentication
    fails for none of them. -/
theorem decrypt_rewritten_kind {b c : Block size} {e e' e'' : AesGcmEngine} {l : List Event}
    (hb : b.isNormal) (hc : encrypt.run (b, e) = ⟨.ok (), (c, e'), l⟩) (hk : e''.key = e.key)
    (t : UInt8) :
    decode size (c.encode.set 4 t) = .ok (c.withKind (.ofTag t)) ∧
      decrypt.run (c.withKind (.ofTag t), e'') =
        ⟨.ok (), (if t = BlockType.normal.tag then c.withData b.data else c.withKind (.ofTag t),
          e''), []⟩ := by
  obtain ⟨hs, -⟩ := sealedUnder_of_run_encrypt hc
  refine ⟨decode_set_kind c t, ?_⟩
  by_cases ht : t = BlockType.normal.tag
  · have hkind : c.withKind (.ofTag t) = c := by
      have hnormal : c.header.kind = .normal := beq_iff_eq.1 (hs.isNormal_iff.2 hb)
      rw [ht, show BlockType.ofTag BlockType.normal.tag = c.header.kind from hnormal.symm]
      rfl
    rw [← AesGcmEngine.cipher_eq_of_key_eq hk] at hs
    rw [if_pos ht, hkind, run_decrypt_of_sealedUnder hs]
  · rw [if_neg ht, run_decrypt_of_not_isNormal (mt (isNormal_withKind_ofTag c t).1 ht)]

/-- A block encrypted under the key of zeros and made a dummy afterwards. -/
theorem decrypt_rewritten_kind_dummy :
    let e : AesGcmEngine := ⟨⟨Vector.replicate keySize 0⟩, ⟨fun _ => 0, none, 0⟩⟩
    let b : Block 1 := new 7 .normal #v[0xAB]
    ∃ c e', encrypt.run (b, e) = ⟨.ok (), (c, e'), []⟩ ∧
      BlockType.dummy.tag ≠ BlockType.normal.tag ∧
      decode 1 (c.encode.set 4 BlockType.dummy.tag) = .ok (c.withKind .dummy) ∧
      decrypt.run (c.withKind .dummy, e) = ⟨.ok (), (c.withKind .dummy, e), []⟩ := by
  intro e b
  obtain ⟨c, e', hc, -, -⟩ := run_encrypt_of_admits (b := b) (e := e) rfl rfl
  exact ⟨c, e', hc, by decide, decrypt_rewritten_kind rfl hc rfl BlockType.dummy.tag⟩

end ObliviousStore.Block

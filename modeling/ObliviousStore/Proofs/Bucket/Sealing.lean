/-
  Encrypted buckets — what an encryption makes of every block of a bucket, and
  what a decryption gives back.

  A decrypted block still has the initialisation vector and the tag of its
  encryption; what comes back is the rest of it, its `content`.
-/
import ObliviousStore.Proofs.Block.Codec
import ObliviousStore.Proofs.Block.Sealing

namespace ObliviousStore

open Block

variable {size : Nat}

/-- What a client knows a block by: identifier, type and payload. -/
abbrev Content (size : Nat) : Type := BlockId × BlockType × Vector UInt8 size

def Block.content (b : Block size) : Content size := (b.header.id, b.header.kind, b.data)

def Bucket.contents (bucket : Bucket size) : List (Content size) := bucket.map content

namespace Bucket

variable {bucket sealed : Bucket size} {e e' : AesGcmEngine} {l : List Event}

theorem sealedUnder_of_run_encrypt
    (h : (Op.forEach encrypt).run (bucket, e) = ⟨.ok (), (sealed, e'), l⟩) :
    List.Forall₂ (SealedUnder e.cipher) bucket sealed := by
  refine Op.forall₂_of_run_forEach (I := fun e₁ => e₁.key = e.key) ?_ rfl h
  intro b e₁ c e₂ l' he hrun
  obtain ⟨hs, hkey⟩ := Block.sealedUnder_of_run_encrypt hrun
  rw [AesGcmEngine.cipher_eq_of_key_eq he] at hs
  exact ⟨hs, hkey.trans he⟩

/-- A sealed bucket is decrypted to the contents it was made of. -/
theorem run_decrypt_of_sealedUnder (h : List.Forall₂ (SealedUnder e.cipher) bucket sealed) :
    ∃ opened : Bucket size, (Op.forEach decrypt).run (sealed, e) = ⟨.ok (), (opened, e), []⟩ ∧
      Bucket.contents opened = Bucket.contents bucket := by
  induction h with
  | nil => exact ⟨[], Op.run_forEach_nil e, rfl⟩
  | @cons b c bucket sealed hbc _ ih =>
    obtain ⟨opened, hrun, hcontents⟩ := ih
    refine ⟨c.withData b.data :: opened, ?_, ?_⟩
    · rw [Op.run_forEach_cons_ok (Block.run_decrypt_of_sealedUnder hbc), hrun]
      rfl
    · have hb : (c.withData b.data).content = b.content := by
        simp only [content, withData, hbc.id_eq, hbc.kind_eq]
      simp only [contents, List.map_cons, hb] at hcontents ⊢
      rw [hcontents]

/-- Sealing leaves the types alone, so a sealed bucket is read back as it is if
    the bucket would be. -/
theorem map_canonical_of_sealedUnder {cipher : CipherBlock → CipherBlock}
    (h : List.Forall₂ (SealedUnder cipher) bucket sealed)
    (hkind : ∀ b ∈ bucket, b.header.kind.Canonical) : sealed.map canonical = sealed := by
  induction h with
  | nil => rfl
  | @cons b c bucket sealed hbc _ ih =>
    obtain ⟨hb, hbucket⟩ := List.forall_mem_cons.1 hkind
    rw [List.map_cons, ih hbucket, canonical_eq_self (by rwa [hbc.kind_eq])]

end Bucket

end ObliviousStore

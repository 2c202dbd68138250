/-
  Galois/counter mode as a relation between texts and their sealed forms.

  Decryption accepts exactly what encryption makes (`decrypt?_eq_some_iff`), so
  that a sealed form determines its text.
-/
import ObliviousStore.Cipher.Gcm

namespace ObliviousStore.Gcm

variable {cipher : CipherBlock → CipherBlock} {iv : Iv} {associated text x : Bytes}

theorem length_encrypt (cipher : CipherBlock → CipherBlock) (iv : Iv) (associated text : Bytes) :
    (encrypt cipher iv associated text).length = text.length + macTagSize := by
  simp only [encrypt, List.length_append, length_crypt, Vector.length_toList]

/-- A sealed form is opened to the text it was made of. -/
theorem decrypt?_encrypt (cipher : CipherBlock → CipherBlock) (iv : Iv) (associated text : Bytes) :
    decrypt? cipher iv associated (encrypt cipher iv associated text) = some text := by
  have hlength : (encrypt cipher iv associated text).length - macTagSize =
      (crypt cipher iv text).length := by
    rw [length_encrypt, length_crypt, Nat.add_sub_cancel]
  rw [decrypt?, if_pos (by rw [length_encrypt]; exact Nat.le_add_left _ _), hlength]
  simp only [encrypt, List.take_left, List.drop_left, if_true, crypt_crypt]

/-- Whatever is opened is the sealed form of what it is opened to. -/
theorem eq_encrypt_of_decrypt? (h : decrypt? cipher iv associated x = some text) :
    x = encrypt cipher iv associated text := by
  simp only [decrypt?, Option.ite_none_right_eq_some, Option.some.injEq] at h
  obtain ⟨-, htag, rfl⟩ := h
  rw [encrypt, crypt_crypt, ← htag, List.take_append_drop]

/-- What follows a ciphertext is compared with the right tag. -/
theorem decrypt?_append (cipher : CipherBlock → CipherBlock) (iv : Iv) (associated x : Bytes)
    (m : MacTag) : decrypt? cipher iv associated (x ++ m.toList) =
      if m = tag cipher iv associated x then some (crypt cipher iv x) else none := by
  have hlength : (x ++ m.toList).length - macTagSize = x.length := by
    rw [List.length_append, Vector.length_toList, Nat.add_sub_cancel]
  have hle : macTagSize ≤ (x ++ m.toList).length := by
    rw [List.length_append, Vector.length_toList]
    exact Nat.le_add_left _ _
  simp only [decrypt?, hlength, hle, if_true, List.take_left, List.drop_left, Vector.toList_inj]

/-- Decryption accepts the sealed forms and nothing else. -/
theorem decrypt?_eq_some_iff :
    decrypt? cipher iv associated x = some text ↔ x = encrypt cipher iv associated text := by
  constructor
  · exact eq_encrypt_of_decrypt?
  · rintro rfl
    exact decrypt?_encrypt cipher iv associated text

end ObliviousStore.Gcm

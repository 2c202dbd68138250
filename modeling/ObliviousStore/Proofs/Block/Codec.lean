/-
  The wire form of a block, read in both directions (`wire_form_two_way`).

  Everything survives being written and read back but the two types whose byte
  already names another (`ofWire_encode`).  So two blocks have one wire form
  exactly if they differ in nothing but two such types (`encode_eq_encode_iff`);
  and of the two, only `unknown 0` comes back as a block that carries data.
-/
import ObliviousStore.Block.Codec

namespace ObliviousStore

open Bytes

/-! ## Types -/

/-- A type that its byte reads back as. -/
def BlockType.Canonical (k : BlockType) : Prop := k ≠ .unknown 0 ∧ k ≠ .unknown 1

instance (k : BlockType) : Decidable k.Canonical := inferInstanceAs (Decidable (_ ∧ _))

theorem BlockType.ofTag_inj {s t : UInt8} : ofTag s = ofTag t ↔ s = t := by
  constructor
  · intro h
    rw [← tag_ofTag s, h, tag_ofTag]
  · exact congrArg ofTag

/-- The one type that is not normal and whose byte is that of normal blocks. -/
theorem BlockType.tag_eq_tag_normal_iff {k : BlockType} :
    k.tag = normal.tag ↔ k = normal ∨ k = unknown 0 := by
  cases k with
  | normal => simp
  | dummy => simp [tag]
  | unknown t => simp [tag]

/-! ## Blocks -/

namespace Block

variable {size : Nat}

def withKind (b : Block size) (kind : BlockType) : Block size :=
  { b with header := { b.header with kind } }

/-- The block as it is read back from its wire form. -/
def canonical (b : Block size) : Block size := b.withKind (.ofTag b.header.kind.tag)

theorem canonical_eq_self {b : Block size} (h : b.header.kind.Canonical) : b.canonical = b := by
  rw [canonical, (BlockType.ofTag_tag b.header.kind).2 h]
  rfl

theorem canonical_eq_self_iff {b : Block size} : b.canonical = b ↔ b.header.kind.Canonical := by
  constructor
  · intro h
    exact (BlockType.ofTag_tag b.header.kind).1 (congrArg (fun c : Block size => c.header.kind) h)
  · exact canonical_eq_self

theorem isNormal_iff {b : Block size} : b.isNormal ↔ b.header.kind = .normal := beq_iff_eq

theorem isNormal_withKind_ofTag (b : Block size) (t : UInt8) :
    (b.withKind (.ofTag t)).isNormal ↔ t = BlockType.normal.tag := by
  rw [isNormal_iff, ← BlockType.ofTag_inj]
  rfl

/-- A block reads back as carrying data, or not, as before, unless its type is `unknown 0`. -/
theorem isNormal_canonical_ne_iff {b : Block size} :
    b.canonical.isNormal ≠ b.isNormal ↔ b.header.kind = .unknown 0 := by
  rw [Ne, Bool.eq_iff_iff, canonical, isNormal_withKind_ofTag, isNormal_iff,
    BlockType.tag_eq_tag_normal_iff]
  constructor
  · intro h
    exact Decidable.byContradiction fun hkind => h (or_iff_left hkind)
  · intro hkind h
    rw [hkind] at h
    exact BlockType.noConfusion (h.1 (.inr rfl))

/-- Reading undoes writing, up to the type. -/
theorem ofWire_encode (b : Block size) (h : b.encode.length = wireSize size) :
    ofWire b.encode h = b.canonical := by
  have hwire : b.encode = littleEndian b.header.id ++ b.header.kind.tag ::
      (b.header.iv.toList ++ (b.header.macTag.toList ++ b.data.toList)) := by
    simp [encode]
  -- the first five bytes are written out, the later fields are found by their lengths
  have hiv : b.encode.drop 5 = b.header.iv.toList ++ (b.header.macTag.toList ++ b.data.toList) := by
    rw [hwire]
    rfl
  have htag : b.encode.drop 17 = b.header.macTag.toList ++ b.data.toList := by
    rw [show 17 = 5 + 12 from rfl, ← List.drop_drop, hiv, List.drop_left' (by simp)]
  have hdata : b.encode.drop 33 = b.data.toList ++ [] := by
    rw [show 33 = 17 + 16 from rfl, ← List.drop_drop, htag, List.drop_left' (by simp),
      List.append_nil]
  have hid : ofLittleEndian (b.encode.take 4) = b.header.id := by
    rw [hwire, List.take_left' (length_littleEndian _), ofLittleEndian_littleEndian]
  have hlength : b.encode.length = 33 + size := h
  have hkind : b.encode.get ⟨4, by omega⟩ = b.header.kind.tag := by
    simp only [List.get_eq_getElem, hwire]
    rfl
  simp only [ofWire, hid, hkind, canonical, withKind]
  rw [slice_eq _ hiv, slice_eq _ htag, slice_eq _ hdata]

theorem decode_encode (b : Block size) : decode size b.encode = .ok b.canonical := by
  rw [decode_eq_ok (length_encode b), ofWire_encode]

/-- What is read is all there was. -/
theorem encode_of_decode {x : Bytes} {b : Block size} (h : decode size x = .ok b) :
    b.encode = x := by
  by_cases hx : x.length = wireSize size
  · rw [decode_eq_ok hx, Except.ok.injEq] at h
    rw [← h, encode_ofWire]
  · rw [decode_eq_error hx] at h
    exact absurd h (by simp)

theorem encode_canonical (b : Block size) : b.canonical.encode = b.encode := by
  rw [← ofWire_encode b (length_encode b), encode_ofWire]

/-! ## The wire form as a format -/

theorem canonical_eq_canonical_iff {b c : Block size} :
    b.canonical = c.canonical ↔ b.header.id = c.header.id ∧
      b.header.kind.tag = c.header.kind.tag ∧ b.header.iv = c.header.iv ∧
      b.header.macTag = c.header.macTag ∧ b.data = c.data := by
  obtain ⟨⟨id, kind, iv, macTag⟩, data⟩ := b
  obtain ⟨⟨id', kind', iv', macTag'⟩, data'⟩ := c
  simp only [canonical, withKind, Block.mk.injEq, Header.mk.injEq,
    BlockType.ofTag_inj, and_assoc]

/-- A wire form tells everything of a block but which of the types with its byte it has. -/
theorem encode_eq_encode_iff {b c : Block size} :
    b.encode = c.encode ↔ b.header.id = c.header.id ∧
      b.header.kind.tag = c.header.kind.tag ∧ b.header.iv = c.header.iv ∧
      b.header.macTag = c.header.macTag ∧ b.data = c.data := by
  rw [← canonical_eq_canonical_iff]
  constructor
  · intro h
    have hdecode := decode_encode b
    rw [h, decode_encode c] at hdecode
    exact (Except.ok.inj hdecode).symm
  · intro h
    rw [← encode_canonical b, h, encode_canonical]

/-- **The wire form of a block is exact in both directions.**  Every string of the right
    length is read, to a block whose wire form it is, and a string of any other length is
    refused with both lengths.  A block is written with that many bytes and comes back with
    the type that its byte names: as it was unless the type is one of two, and carrying data
    as before unless it is `unknown 0`.  Two blocks share a wire form exactly if nothing but
    their types differs, and these share a byte.  Written to a buffer, the wire form is what
    the buffer gains. -/
theorem wire_form_two_way (size : Nat) :
    (∀ x : Bytes, x.length = 33 + size → ∃ b : Block size, decode size x = .ok b ∧ b.encode = x) ∧
    (∀ x : Bytes, x.length ≠ 33 + size →
      decode size x = .error (.invalidSize (33 + size) x.length)) ∧
    (∀ b : Block size, b.encode.length = 33 + size ∧
      ∃ back : Block size, decode size b.encode = .ok back ∧
        back = b.withKind (.ofTag b.header.kind.tag) ∧
        (back = b ↔ b.header.kind ≠ .unknown 0 ∧ b.header.kind ≠ .unknown 1) ∧
        (back.isNormal ≠ b.isNormal ↔ b.header.kind = .unknown 0)) ∧
    (∀ b c : Block size, b.encode = c.encode ↔ b.header.id = c.header.id ∧
      b.header.kind.tag = c.header.kind.tag ∧ b.header.iv = c.header.iv ∧
      b.header.macTag = c.header.macTag ∧ b.data = c.data) ∧
    ∀ (buffer : Array UInt8) (b : Block size),
      (encodeInto buffer b).toList = buffer.toList ++ b.encode := by
  refine ⟨fun x hx => ?_, fun x hx => decode_eq_error hx, fun b => ?_,
    fun b c => encode_eq_encode_iff, fun buffer b => toList_encodeInto buffer b⟩
  · exact ⟨ofWire x hx, decode_eq_ok hx, encode_ofWire x hx⟩
  · exact ⟨length_encode b, b.canonical, decode_encode b, rfl, canonical_eq_self_iff,
      isNormal_canonical_ne_iff⟩

/-- Thirty-four bytes are a block with one byte of payload and three are none; a block of
    type `unknown 0` comes back as one that carries data. -/
theorem wire_form_two_way_one_byte :
    let x : Bytes := (List.range 34).map UInt8.ofNat
    let b : Block 1 := .new 7 (.unknown 0) #v[0xAB]
    x.length = 33 + 1 ∧ (∃ c : Block 1, decode 1 x = .ok c ∧ c.encode = x) ∧
      [1, 2, 3].length ≠ 33 + 1 ∧ decode 1 [1, 2, 3] = .error (.invalidSize 34 3) ∧
      ∃ back, decode 1 b.encode = .ok back ∧ back ≠ b ∧ back.isNormal ≠ b.isNormal := by
  intro x b
  obtain ⟨hread, hrefused, hback, -⟩ := wire_form_two_way 1
  have hx : x.length = 33 + 1 := by decide
  have hshort : [1, 2, 3].length ≠ 33 + 1 := by decide
  obtain ⟨-, back, hdecode, -, hself, hnormal⟩ := hback b
  exact ⟨hx, hread x hx, hshort, hrefused [1, 2, 3] hshort, back, hdecode,
    fun h => (hself.1 h).1 rfl, hnormal.2 rfl⟩

end Block

end ObliviousStore

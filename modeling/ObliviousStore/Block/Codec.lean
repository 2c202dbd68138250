/-
  The wire form of a block — identifier, type, initialisation vector, tag and
  payload, one after the other, without padding.

  Every string of the right length is the wire form of a block
  (`decode_eq_ok`), and writing that block gives the string back
  (`encode_ofWire`): a block that came from elsewhere is never silently
  mended.
-/
import ObliviousStore.Block.Basic
import ObliviousStore.Error

namespace ObliviousStore.Block

open Bytes

variable {size : Nat}

/-- The wire form of a block. -/
def encode (b : Block size) : Bytes :=
  littleEndian b.header.id ++ [b.header.kind.tag] ++ b.header.iv.toList ++
    b.header.macTag.toList ++ b.data.toList

/-- Writes the wire form of a block to the end of a buffer, field after field. -/
def encodeInto (buffer : Array UInt8) (b : Block size) : Array UInt8 :=
  (buffer ++ littleEndian b.header.id).push b.header.kind.tag ++ b.header.iv.toArray ++
    b.header.macTag.toArray ++ b.data.toArray

/-- The block with the wire form `x`, which has the length of one. -/
def ofWire (x : Bytes) (h : x.length = wireSize size) : Block size :=
  have h : x.length = 33 + size := h
  { header :=
      { id := ofLittleEndian (x.take 4)
        kind := .ofTag (x.get ⟨4, by omega⟩)
        iv := slice x 5 12 (by omega)
        macTag := slice x 17 16 (by omega) }
    data := slice x 33 size (by omega) }

/-- Reads the wire form of a block with `size` bytes of payload. -/
def decode (size : Nat) (x : Bytes) : Except StoreError (Block size) :=
  if h : x.length = wireSize size then .ok (ofWire x h)
  else .error (.invalidSize (wireSize size) x.length)

@[simp] theorem length_encode (b : Block size) : b.encode.length = wireSize size := by
  simp only [encode, List.length_append, length_littleEndian, List.length_cons, List.length_nil,
    Vector.length_toList]

/-- What a buffer held before stays in front. -/
@[simp] theorem toList_encodeInto (buffer : Array UInt8) (b : Block size) :
    (encodeInto buffer b).toList = buffer.toList ++ b.encode := by
  simp only [encodeInto, encode, Array.toList_append, Array.toList_push, Array.toList_appendList,
    Vector.toList_toArray, List.append_assoc]

theorem decode_eq_ok {x : Bytes} (h : x.length = wireSize size) :
    decode size x = .ok (ofWire x h) := by
  simp [decode, h]

theorem decode_eq_error {x : Bytes} (h : x.length ≠ wireSize size) :
    decode size x = .error (.invalidSize (wireSize size) x.length) := by
  simp [decode, h]

/-- Writing the block that was read gives the string back. -/
theorem encode_ofWire (x : Bytes) (h : x.length = wireSize size) :
    (ofWire x h).encode = x := by
  have h : x.length = 33 + size := h
  have hid : (x.take 4).length = 4 := by rw [List.length_take]; omega
  have hkind : [x.get ⟨4, by omega⟩] = (x.drop 4).take 1 := by
    rw [List.drop_eq_getElem_cons (by omega)]
    rfl
  have hdata : (x.drop 33).take size = x.drop 33 :=
    List.take_of_length_le (by rw [List.length_drop]; omega)
  simp only [encode, ofWire, littleEndian_ofLittleEndian hid, BlockType.tag_ofTag, toList_slice,
    hkind, hdata]
  rw [← List.take_add, ← List.take_add]
  change x.take 17 ++ (x.drop 17).take 16 ++ x.drop 33 = x
  rw [← List.take_add, List.take_append_drop]

/-! ## Buckets -/

def encodeAll (bucket : Bucket size) : List Bytes := bucket.map encode

/-- Reads the wire forms of the blocks of a bucket; the first that is not one
    is the failure. -/
def decodeAll (size : Nat) (encoded : List Bytes) : Except StoreError (Bucket size) :=
  encoded.mapM (decode size)

end ObliviousStore.Block

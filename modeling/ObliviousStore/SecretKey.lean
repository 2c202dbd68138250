/-
  Secret keys — 32 bytes, written as 64 hexadecimal digits.

  The written form may hold blanks anywhere, also between the two digits of a
  byte, and either case of a digit; nothing else is let through
  (`SecretKey.ofHex`).  A key never shows its bytes: its text is always the
  same.
-/
import ObliviousStore.Bytes
import ObliviousStore.Error
import ObliviousStore.Text.Blank

namespace ObliviousStore

abbrev keySize : Nat := 32

structure SecretKey where
  bytes : Vector UInt8 keySize

namespace SecretKey

/-- What a key shows of itself. -/
def text : String := "SecretKey(..)"

/-- The value of a hexadecimal digit of either case. -/
def digit? (c : Char) : Option Nat :=
  if '0' ≤ c ∧ c ≤ '9' then some (c.toNat - '0'.toNat)
  else if 'a' ≤ c ∧ c ≤ 'f' then some (c.toNat - 'a'.toNat + 10)
  else if 'A' ≤ c ∧ c ≤ 'F' then some (c.toNat - 'A'.toNat + 10)
  else none

/-- The bytes written by pairs of digits, the high digit of a pair first. -/
def pairs? : List Char → Option Bytes
  | [] => some []
  | [_] => none
  | high :: low :: rest => do
    let h ← digit? high
    let l ← digit? low
    let bytes ← pairs? rest
    return UInt8.ofNat (16 * h + l) :: bytes

def ofHex (s : String) : Except StoreError SecretKey :=
  match pairs? (s.toList.filter fun c => !Text.isBlank c) with
  | none => .error .invalidConfiguration
  | some bytes =>
    if h : bytes.length = keySize then .ok ⟨⟨bytes.toArray, by simpa using h⟩⟩
    else .error .invalidConfiguration

end SecretKey

end ObliviousStore

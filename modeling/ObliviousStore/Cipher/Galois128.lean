/-
  The field of 2^128 elements that authenticates messages.

  An element is a polynomial over two elements modulo
  `x^128 + x^7 + x^2 + x + 1`.  It is kept as a 128-bit word whose highest bit
  is the constant coefficient, which is the order its bytes are sent in.  Sums
  are exclusive ors; `mul` is Horner's rule over the coefficients of its first
  factor.
-/
import ObliviousStore.Bytes

namespace ObliviousStore.Galois128

abbrev Element := BitVec 128

/-- What `x^128` is modulo the polynomial. -/
def reduction : Element := 0xE1#128 <<< 120

/-- The product with `x`. -/
def mulX (a : Element) : Element :=
  if a.getLsbD 0 then (a >>> 1) ^^^ reduction else a >>> 1

def mul (a b : Element) : Element :=
  (List.range 128).foldl (fun product i => mulX product ^^^ (if a.getLsbD i then b else 0)) 0

/-- The element with the coefficients `x`, of at most 16 bytes; coefficients
    beyond the end are 0. -/
def ofBytes (x : Bytes) : Element :=
  BitVec.ofNat 128 (x.foldl (fun n b => 256 * n + b.toNat) 0 <<< (8 * (16 - x.length)))

/-- The 16 bytes of an element. -/
def toBytes (a : Element) : Vector UInt8 16 :=
  Vector.ofFn fun i => UInt8.ofNat (a.toNat >>> (8 * (15 - i.val)))

/-- The value at `h` of the polynomial with the given coefficients, the
    highest first, and the constant coefficient 0. -/
def hash (h : Element) (coefficients : List Element) : Element :=
  coefficients.foldl (fun value c => mul (value ^^^ c) h) 0

end ObliviousStore.Galois128

/-!
# Memory

64K of bytes.
-/

namespace Mos6510

def memorySize : Nat := 65536

/-- The contents of memory. -/
structure Memory where
  cells : Vector UInt8 memorySize
  deriving DecidableEq

namespace Memory

def zero : Memory := ⟨Vector.replicate memorySize 0⟩

instance : Inhabited Memory := ⟨zero⟩

@[inline] def get (m : Memory) (a : UInt16) : UInt8 :=
  have h : a.toNat < memorySize := a.toNat_lt
  m.cells[a.toNat]

@[inline] def set (m : Memory) (a : UInt16) (b : UInt8) : Memory :=
  have h : a.toNat < memorySize := a.toNat_lt
  ⟨m.cells.set a.toNat b h⟩

/-- Store bytes at consecutive addresses. -/
def store (m : Memory) (a : UInt16) : List UInt8 → Memory
  | [] => m
  | b :: rest => (m.set a b).store (a + 1) rest

/-- The word at an address, low byte first.  Its high byte is in the same page
as its low byte: after the last byte of a page comes the first. -/
def pointer (m : Memory) (a : UInt16) : UInt16 :=
  let next := (a &&& 0xFF00) ||| ((a + 1) &&& 0xFF)
  (m.get a).toUInt16 ||| ((m.get next).toUInt16 <<< 8)

/-- Bytes at consecutive addresses, wrapping at the top. -/
def slice (m : Memory) (a : UInt16) (n : Nat) : List UInt8 :=
  (List.range n).map fun i => m.get (a + UInt16.ofNat i)

end Memory

end Mos6510

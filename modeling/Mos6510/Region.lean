import Mos6510.Error

/-!
# Regions

A region is a run of bytes of one kind at consecutive addresses.
-/

namespace Mos6510

/-- What the bytes of a region are. -/
inductive RegionKind where
  | code
  | data
  deriving DecidableEq, Repr, Inhabited

def RegionKind.all : List RegionKind := [.code, .data]

def RegionKind.name : RegionKind → String
  | .code => "code"
  | .data => "data"

/-- Consecutive bytes of one kind. -/
structure Region where
  start : UInt16
  kind : RegionKind
  bytes : Array UInt8 := #[]
  deriving DecidableEq, Repr, Inhabited

namespace Region

/-- Number of bytes. -/
def size (r : Region) : Nat := r.bytes.size

/-- Number of bytes of some regions. -/
def total (rs : List Region) : Nat := rs.foldr (fun r n => r.size + n) 0

/-- The address after the last byte, which may be just beyond memory. -/
def stop (r : Region) : Nat := r.start.toNat + r.size

/-- Is the address inside the region? -/
def contains (r : Region) (a : UInt16) : Bool := r.start ≤ a && a.toNat < r.stop

/-- Does the region end at the top of memory? -/
def isFull (r : Region) : Bool := 0x10000 ≤ r.stop

/-- Add a byte at the end. -/
@[inline] def push (r : Region) (b : UInt8) : Region := { r with bytes := r.bytes.push b }

/-- The kind and the first and last address of a region. -/
def render (r : Region) : String :=
  r.kind.name ++ " $" ++ Text.hex 4 r.start.toNat ++ "-$" ++ Text.signedHex 4 ((r.stop : Int) - 1)

end Region

end Mos6510

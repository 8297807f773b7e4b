import Mos6510.Region

/-!
# Memory images

Regions are joined into one contiguous image, with zeros in the gaps between
them.  An image is written to disk after its load address, low byte first.
-/

namespace Mos6510

/-- A contiguous part of memory. -/
structure Image where
  /-- The load address. -/
  start : UInt16
  bytes : List UInt8
  /-- Bytes of code. -/
  code : Nat
  /-- Bytes of data. -/
  data : Nat
  /-- Zeros between regions. -/
  padding : Nat
  /-- The last loaded address. -/
  last : UInt16
  /-- Size on disk, with the load address. -/
  size : Nat
  deriving DecidableEq, Repr, Inhabited

/-- What a disk block holds. -/
def Image.blockSize : Nat := 254

/-- Number of disk blocks. -/
def Image.blocks (img : Image) : Nat := (img.size + blockSize - 1) / blockSize

/-- Regions one behind the other, with the gaps between them. -/
structure Placement where
  bytes : List UInt8
  code : Nat
  data : Nat
  padding : Nat
  /-- The address behind the last region. -/
  stop : Nat
  deriving DecidableEq, Repr

/-- The bytes of a region that stands a number of bytes after those before it, with the
regions behind it. -/
def Placement.prepend (gap : Nat) (r : Region) (behind : Placement) : Placement :=
  { behind with
    bytes := List.replicate gap 0 ++ (r.bytes.toList ++ behind.bytes)
    code := behind.code + if r.kind = .code then r.size else 0
    data := behind.data + if r.kind = .data then r.size else 0
    padding := behind.padding + gap }

/-- The image of regions from an address on.  Its last address is the one in front of
where they stop. -/
def Placement.image (start : UInt16) (l : Placement) : Image where
  start := start
  bytes := l.bytes
  code := l.code
  data := l.data
  padding := l.padding
  last := UInt16.ofNat l.stop - 1
  size := l.bytes.length + 2

namespace Image

/-- Place regions, lowest start first, from an address on. -/
def place : Nat → List Region → Except Error Placement
  | pc, [] => .ok ⟨[], 0, 0, 0, pc⟩
  | pc, r :: rest =>
    if r.start.toNat < pc then .error (.overlap r.start)
    else
      match place r.stop rest with
      | .ok behind => .ok (behind.prepend (r.start.toNat - pc) r)
      | .error err => .error err

/-- Join regions.  Empty ones do not count. -/
def link (regions : List Region) : Except Error Image :=
  match (regions.filter fun r => r.size != 0).mergeSort fun a b => decide (a.start ≤ b.start) with
  | [] => .error .emptyImage
  | r :: rest => (place r.start.toNat (r :: rest)).map (Placement.image r.start)

/-- The image as it is written to disk. -/
def prg (img : Image) : List UInt8 :=
  img.start.toUInt8 :: (img.start >>> 8).toUInt8 :: img.bytes

/-- The image of a file from disk; all of it counts as code. -/
def ofPrg (prg : List UInt8) : Except Error Image :=
  match prg with
  | low :: high :: bytes =>
    let start := low.toUInt16 ||| (high.toUInt16 <<< 8)
    .ok ⟨start, bytes, bytes.length, 0, 0, start + UInt16.ofNat bytes.length - 1, prg.length⟩
  | _ => .error .shortImage

end Image

end Mos6510

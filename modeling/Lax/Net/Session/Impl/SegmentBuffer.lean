import Lax.Net.Basic

/-!
This module contains the buffer in which a session collects what it sends. Segments have a fixed
length, so that nothing is moved when the buffer grows or when it is handed to the socket.
-/

namespace Lax

-- The first `size()` bytes of a segment.
abbrev Seg := List UInt8

structure SegmentBuffer where
  segs : List Seg
  pos : Nat
  deriving DecidableEq, Repr

namespace SegmentBuffer

variable (length : Nat)

def empty : SegmentBuffer :=
  ⟨[], 0⟩

def size (b : SegmentBuffer) : Nat :=
  b.pos

def getWriteSeg (b : SegmentBuffer) : Nat :=
  b.pos / length

def getDataSeg (b : SegmentBuffer) : Nat :=
  let pos := if b.pos > 0 then b.pos - 1 else 0
  pos / length

-- `segment::append`
def appendSeg (seg : Seg) (p : List UInt8) : Nat × Seg :=
  let possibleLen := min p.length (length - seg.length)
  (possibleLen, seg ++ p.take possibleLen)

def reserve (b : SegmentBuffer) (len : Nat) : SegmentBuffer :=
  let totalSegs := (b.pos + len) / length + 1
  let requiredSegs := sizeSub totalSegs b.segs.length
  { b with segs := b.segs ++ List.replicate requiredSegs [] }

-- `none` reads past the end of `segs_` or does not terminate.
def appendLoop : Nat → SegmentBuffer → List UInt8 → Option SegmentBuffer
  | _, b, [] => some b
  | 0, _, _ :: _ => none
  | fuel + 1, b, p =>
    b.segs[b.getWriteSeg length]?.bind fun seg =>
      let index :=
        if seg.length = length then b.getWriteSeg length + 1 else b.getWriteSeg length
      b.segs[index]?.bind fun seg =>
        let (wl, seg) := appendSeg length seg p
        appendLoop fuel ⟨b.segs.set index seg, b.pos + wl⟩ (p.drop wl)

def append (b : SegmentBuffer) (p : List UInt8) : Option SegmentBuffer :=
  appendLoop length p.length (b.reserve length p.length) p

def rewind (b : SegmentBuffer) : SegmentBuffer :=
  ⟨b.segs.map fun _ => [], 0⟩

def transfer (b : SegmentBuffer) : List Seg × SegmentBuffer :=
  if b.pos = 0 then
    ([], b)
  else
    let last := b.getDataSeg length
    (b.segs.take (last + 1), rewind { b with segs := b.segs.drop (last + 1) })

end SegmentBuffer
end Lax

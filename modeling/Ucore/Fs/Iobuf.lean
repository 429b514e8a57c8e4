import Ucore.Libs.Error
import Ucore.Libs.Memory

/-!
# I/O buffers

`kern/fs/iobuf.c` keeps what is left of a transfer: where the next byte goes in memory,
its offset in the file or on the device, and how many bytes are to come.
-/

namespace Ucore.Vfs

/-- `struct iobuf` -/
structure Iobuf where
  ioBase : Nat
  ioOffset : Int
  ioLen : Nat
  ioResid : Nat

/-- `iobuf_init` -/
def iobufInit (base len : Nat) (offset : Int) : Iobuf where
  ioBase := base
  ioOffset := offset
  ioLen := len
  ioResid := len

/-- `iobuf_used` -/
def iobufUsed (iob : Iobuf) : Nat := iob.ioLen - iob.ioResid

/-- `iobuf_skip` -/
def iobufSkip (iob : Iobuf) (n : Nat) : Option Iobuf :=
  if n ≤ iob.ioResid then
    some { iob with ioBase := iob.ioBase + n, ioOffset := iob.ioOffset + n, ioResid := iob.ioResid - n }
  else none

/-- What `iobuf_move` returns and stores, with the memory and the data behind it. -/
structure Movement where
  ret : Int
  copied : Nat
  iob : Iobuf
  bytes : Bytes
  data : Bytes

/-- `iobuf_move` between the memory and the first bytes of an object of its own: into the
memory if `m2b`, else out of it. -/
def iobufMove (iob : Iobuf) (bytes data : Bytes) (len : Nat) (m2b : Bool) : Option Movement :=
  let alen := if len < iob.ioResid then len else iob.ioResid
  let source := fun index => bytes (iob.ioBase + index)
  (iobufSkip iob alen).map fun skipped => {
    ret := if len - alen = 0 then 0 else -eNoMem
    copied := alen
    iob := skipped
    bytes := if m2b then memcpy bytes iob.ioBase data alen else bytes
    data := if m2b then data else memcpy data 0 source alen }

/-- A move of no more than what is left. -/
theorem iobufMove_exact {iob : Iobuf} {len : Nat} (fits : len ≤ iob.ioResid) (bytes data : Bytes) (m2b : Bool) :
    iobufMove iob bytes data len m2b = some {
      ret := 0
      copied := len
      iob := { iob with
        ioBase := iob.ioBase + len
        ioOffset := iob.ioOffset + len
        ioResid := iob.ioResid - len }
      bytes := if m2b then memcpy bytes iob.ioBase data len else bytes
      data := if m2b then data else memcpy data 0 (fun index => bytes (iob.ioBase + index)) len } := by
  have isLength : (if len < iob.ioResid then len else iob.ioResid) = len := by
    split
    · rfl
    · omega
  simp only [iobufMove, iobufSkip, isLength, if_pos fits, Option.map_some, Nat.sub_self, if_pos]

/-- A move of more than what is left takes all of it. -/
theorem iobufMove_rest {iob : Iobuf} {len : Nat} (more : iob.ioResid ≤ len) (bytes data : Bytes) (m2b : Bool) :
    iobufMove iob bytes data len m2b = some {
      ret := if len - iob.ioResid = 0 then 0 else -eNoMem
      copied := iob.ioResid
      iob := { iob with
        ioBase := iob.ioBase + iob.ioResid
        ioOffset := iob.ioOffset + iob.ioResid
        ioResid := 0 }
      bytes := if m2b then memcpy bytes iob.ioBase data iob.ioResid else bytes
      data := if m2b then data else memcpy data 0 (fun index => bytes (iob.ioBase + index)) iob.ioResid } := by
  have isLength : (if len < iob.ioResid then len else iob.ioResid) = iob.ioResid := if_neg (Nat.not_lt.mpr more)
  simp only [iobufMove, iobufSkip, isLength, if_pos (Nat.le_refl _), Option.map_some, Nat.sub_self]

end Ucore.Vfs

import Swirly.Lib.Bytes

/-!
# Buffers

`sys/Buffer.hpp`, `sys/Buffer.cpp`: a vector of bytes with a read and a write position.  What lies between them is for the
reader; what a writer prepares after the write position becomes part of it with a commit.
-/

namespace Swirly

structure Buffer where
  buf : Bytes
  rpos : Nat
  wpos : Nat
  deriving DecidableEq

/-- Write bytes over those at a position. -/
def overwrite (buf : Bytes) (pos : Nat) (new : Bytes) : Bytes := buf.take pos ++ new ++ buf.drop (pos + new.length)

/-- `advance`, for the bytes of a view. -/
def advance (buf : Bytes) (n : Nat) : Bytes := buf.drop (min n buf.length)

namespace Buffer

def empty : Buffer := { buf := [], rpos := 0, wpos := 0 }

variable (b : Buffer)

def size : Nat := b.wpos - b.rpos

/-- The bytes for the reader. -/
def data : Bytes := (b.buf.drop b.rpos).take b.size

def unused : Nat := b.buf.length - b.wpos

def commit (count : Nat) : Buffer := { b with wpos := b.wpos + count }

def shrinkThreshold : Nat := 1024

def consume (count : Nat) : Buffer :=
  if count = 0 then b
  else
    let b := { b with rpos := b.rpos + count }
    if shrinkThreshold ≤ b.rpos ∧ b.buf.length >>> 1 ≤ b.rpos then
      let n := b.size
      -- Move the unread bytes to the front.
      { buf := if 0 < n then overwrite b.buf 0 ((b.buf.drop b.rpos).take n) else b.buf, rpos := 0, wpos := n }
    else b

/-- Make room for writing.  New bytes of the vector are zero. -/
def prepare (size : Nat) : Buffer :=
  let n := b.unused
  if size > n then { b with buf := b.buf ++ List.replicate (size - n) 0 } else b

/-- Write into the prepared room. -/
def write (pos : Nat) (new : Bytes) : Buffer := { b with buf := overwrite b.buf (b.wpos + pos) new }

/-- The positions are in order and inside the vector. -/
structure Valid : Prop where
  ordered : b.rpos ≤ b.wpos
  inside : b.wpos ≤ b.buf.length

end Buffer

end Swirly

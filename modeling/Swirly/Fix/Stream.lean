import Swirly.Fix.Parser

/-!
# The stream of the FIX transport

`fix/Stream.hpp`, `fix/Stream.cpp`: messages are composed in the room after the write position of a buffer.  The stream has no
put area, so a single character goes through `overflow` and a block through `xsputn`.
-/

namespace Swirly

/-- `put_check_sum`. -/
def putCheckSum (sum : Nat) : Bytes :=
  let n := sum % 256
  [49, 48, 61, UInt8.ofNat (48 + n / 10 / 10 % 10), UInt8.ofNat (48 + n / 10 % 10), UInt8.ofNat (48 + n % 10), soh]

structure FixBuf where
  buf : Buffer
  /-- The position of the message in the vector. -/
  pbase : Nat
  pcount : Nat
  sum : Nat
  deriving DecidableEq

namespace FixBuf

variable (b : FixBuf)

def reset : FixBuf := { b with pbase := 0, pcount := 0, sum := 0 }

/-- Write bytes over those at a position of the vector. -/
def put (pos : Nat) (new : Bytes) : FixBuf := { b with buf := { b.buf with buf := overwrite b.buf.buf pos new } }

def commit : FixBuf :=
  if 0 < b.pcount then
    let b := b.put (b.pbase + b.pcount) (putCheckSum b.sum)
    { b with buf := b.buf.commit (b.pcount + FixParser.checkSumLen) }
  else b

/-- The digits of the length, backwards from a position.  No result stands for a write before the vector. -/
def putLength : Nat → Nat → FixBuf → Option FixBuf
  | 0, _, _ => none
  | it + 1, len, b =>
    let d := len % 10
    let b := { b with sum := sizeT (b.sum + d) }.put it [UInt8.ofNat (48 + d)]
    if len / 10 > 0 then putLength it (len / 10) b else some b

def setBodyLength (pos len : Nat) : Option FixBuf := putLength (b.pbase + pos) len b

/-- A character comes as an `int` that is not negative. -/
def overflow (c : UInt8) : FixBuf :=
  let buf := b.buf.prepare (b.pcount + 1 + FixParser.checkSumLen)
  let pbase := buf.wpos
  let next : FixBuf := { buf, pbase, pcount := b.pcount + 1, sum := sizeT (b.sum + c.toNat) }
  next.put (pbase + b.pcount) [c]

/-- A `char` of the block is signed. -/
def xsputn (s : Bytes) : FixBuf :=
  let buf := b.buf.prepare (b.pcount + s.length + FixParser.checkSumLen)
  let pbase := buf.wpos
  let sum := s.foldl (fun sum c => ((sum + charValue c) % 2 ^ 64).toNat) b.sum
  let next : FixBuf := { buf, pbase, pcount := b.pcount + s.length, sum }
  next.put (pbase + b.pcount) s

end FixBuf

structure FixStream where
  buf : FixBuf
  /-- The offset after the body length. -/
  bloff : Nat
  deriving DecidableEq

namespace FixStream

/-- What is written on a stream. -/
inductive Write where
  | char (c : UInt8)
  | block (s : Bytes)
  deriving DecidableEq

variable (st : FixStream)

def write : Write → FixStream
  | .char c => { st with buf := st.buf.overflow c }
  | .block s => { st with buf := st.buf.xsputn s }

def reset (ver : FixVersion) : FixStream :=
  let st := { st with buf := st.buf.reset }
  let st := [.block (bytes "8=FIX."), .block (bytes (toString ver.major)), .block (bytes "."),
    .block (bytes (toString ver.minor)), .block ([soh] ++ bytes "9=0000" ++ [soh])].foldl write st
  { st with bloff := st.buf.pcount }

def commit : Option FixStream :=
  let buf := if 0 < st.bloff then st.buf.setBodyLength (st.bloff - 1) (st.buf.pcount - st.bloff) else some st.buf
  buf.map fun buf => { st with buf := buf.commit }

/-- A message is composed from its version to its commit. -/
def compose (ver : FixVersion) (writes : List Write) : Option FixStream := (writes.foldl write (st.reset ver)).commit

end FixStream

end Swirly

import Swirly.Sys.Buffer
import Swirly.Web.Types

/-!
# The stream of HTTP responses

`web/Stream.hpp`, `web/Stream.cpp`: responses are composed in the room after the write position of a buffer.  The stream has no
put area, so a single character goes through `overflow` and a block through `xsputn`.
-/

namespace Swirly

/-- Responses with some statuses must not include a body. -/
def withBody (status : HttpStatus) : Bool :=
  let n := status.code
  !((100 ≤ n && n < 200) || n == 204 || n == 304)

/-- A `streamsize` that is not negative has 63 bits. -/
def streamsize (n : Nat) : Nat := n % 2 ^ 63

structure HttpBuf where
  buf : Buffer
  /-- The position of the response in the vector, once a write has set it. -/
  pbase : Option Nat
  pcount : Nat
  deriving DecidableEq

namespace HttpBuf

variable (b : HttpBuf)

def reset : HttpBuf := { b with pbase := none, pcount := 0 }

def commit : HttpBuf := { b with buf := b.buf.commit b.pcount }

/-- The digits of a number, backwards from a position.  No result stands for a write before the vector. -/
def putDigits : Nat → Nat → Bytes → Option Bytes
  | 0, _, _ => none
  | it + 1, len, buf =>
    let buf := overwrite buf it [UInt8.ofNat (48 + len % 10)]
    if len / 10 > 0 then putDigits it (len / 10) buf else some buf

def setContentLength (pos len : Nat) : Option HttpBuf :=
  b.pbase.bind fun pbase => (putDigits (pbase + pos) len b.buf.buf).map fun buf => { b with buf := { b.buf with buf } }

def overflow (c : UInt8) : HttpBuf :=
  let buf := b.buf.prepare (b.pcount + 1)
  { buf := buf.write b.pcount [c], pbase := some buf.wpos, pcount := b.pcount + 1 }

def xsputn (s : Bytes) : HttpBuf :=
  let buf := b.buf.prepare (b.pcount + s.length)
  { buf := buf.write b.pcount s, pbase := some buf.wpos, pcount := b.pcount + s.length }

end HttpBuf

structure HttpStream where
  buf : HttpBuf
  /-- The offset after the content length, or zero. -/
  cloff : Nat
  /-- The size of the header. -/
  hcount : Nat
  deriving DecidableEq

namespace HttpStream

/-- What is written on a stream. -/
inductive Write where
  | char (c : UInt8)
  | block (s : Bytes)
  deriving DecidableEq

variable (st : HttpStream)

def make (buf : Buffer) : HttpStream := { buf := { buf, pbase := none, pcount := 0 }, cloff := 0, hcount := 0 }

def write : Write → HttpStream
  | .char c => { st with buf := st.buf.overflow c }
  | .block s => { st with buf := st.buf.xsputn s }

def writeAll (writes : List Write) : HttpStream := writes.foldl write st

/-- The placeholder for the content length. -/
def contentLength : Bytes := List.replicate 10 32 ++ [48]

def reset (status : HttpStatus) (reason : Bytes) (cache : Bool) : HttpStream :=
  let st := { st with buf := st.buf.reset }
  let st := st.writeAll [.block (bytes "HTTP/1.1 "), .block (bytes (toString status.code)), .char 32, .block reason]
  let st := if cache then st else st.write (.block (bytes "\r\nCache-Control: no-cache"))
  let st :=
    if withBody status then
      let st := st.write (.block (bytes "\r\nContent-Type: application/json\r\nContent-Length:" ++ contentLength))
      { st with cloff := st.buf.pcount }
    else { st with cloff := 0 }
  let st := st.write (.block (bytes "\r\n\r\n"))
  { st with hcount := st.buf.pcount }

def commit : Option HttpStream :=
  let buf := if 0 < st.cloff then st.buf.setContentLength st.cloff (streamsize (st.buf.pcount - st.hcount)) else some st.buf
  buf.map fun buf => { st with buf := buf.commit }

/-- A response that is begun, with what is written after it. -/
structure Attempt where
  status : HttpStatus
  reason : Bytes
  cache : Bool
  writes : List Write
  deriving DecidableEq

def attempt (a : Attempt) : HttpStream := (st.reset a.status a.reason a.cache).writeAll a.writes

/-- Responses are begun one after the other, and the last of them is committed. -/
def compose (attempts : List Attempt) : Option HttpStream := (attempts.foldl attempt st).commit

end HttpStream

end Swirly

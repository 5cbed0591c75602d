import Swirly.Lib.Bytes
import Swirly.Lib.Machine

/-!
# Variable substitution

`VarSub::substitute` of `util/VarSub.cpp`, one turn of its loop after the other.  The calls of the recursion are a stack: the
names seen at the same position in the outer level are those of the caller.
-/

namespace Swirly

namespace VarSub

def dollar : UInt8 := 36

def backslash : UInt8 := 92

def openBrace : UInt8 := 123

def closeBrace : UInt8 := 125

/-- The variables of a call. -/
structure Call where
  /-- The position of the opening brace: that of its dollar sign. -/
  i : Nat
  j : Nat
  /-- The position of the last substitution. -/
  last : Nat
  /-- The names substituted there. -/
  inner : List Bytes
  /-- A dollar sign, a backslash or zero. -/
  state : UInt8
  deriving DecidableEq

/-- A call that begins to search at a position. -/
def Call.search (i j : Nat) : Call := { i, j, last := 0, inner := [], state := 0 }

structure Substitution where
  s : Bytes
  call : Call
  callers : List Call
  deriving DecidableEq

namespace Substitution

/-- The name between the braces of a call. -/
def name (st : Substitution) : Bytes :=
  let n := st.call.j - st.call.i
  (st.s.drop (st.call.i + 2)).take (n - 2)

/-- The string with other text in place of the braces and what is between them. -/
def replace (st : Substitution) (text : Bytes) : Bytes :=
  let n := st.call.j - st.call.i
  st.s.take st.call.i ++ text ++ st.s.drop (st.call.i + (n + 1))

variable (fn : Bytes → Bytes) (st : Substitution)

/-- The search goes on behind the current character. -/
def next (state : UInt8) : Substitution := { st with call := { st.call with state, j := st.call.j + 1 } }

/-- Remove the backslash before the current character. -/
def unescape : Substitution := { st with s := st.s.eraseIdx (st.call.j - 1) }

/-- Descend: search for the closing brace, from the dollar sign before the current character. -/
def descend : Substitution :=
  let call :=
    -- Position has advanced.
    if st.call.j > st.call.last then { st.call with last := st.call.j, inner := [] } else st.call
  let j := call.j - 1
  { st with call := .search j (j + 2), callers := { call with state := 0, j } :: st.callers }

/-- Ascend: matched closing brace. -/
def ascend (caller : Call) (callers : List Call) : Substitution :=
  if st.name ∉ caller.inner then
    { s := st.replace (fn st.name), call := { caller with inner := st.name :: caller.inner }, callers }
  else
    -- Loop detected: this name has already been substituted at this position.
    { s := st.replace [], call := caller, callers }

/-- A turn of the loop.  Without a closing brace all calls return. -/
def step : Option Substitution :=
  match st.s[st.call.j]? with
  | none => none
  | some ch =>
    if st.call.state = backslash then some (st.unescape.next 0)
    else if st.call.state = dollar ∧ ch = openBrace then some st.descend
    else if ch = dollar ∨ ch = backslash then some (st.next ch)
    else if ch = closeBrace then
      match st.callers with
      -- There is no matching opening brace.
      | [] => some (st.next 0)
      | caller :: callers => some (st.ascend fn caller callers)
    else some (st.next 0)

end Substitution

/-- Position zero of the top level, which has no opening brace. -/
def start (s : Bytes) : Substitution := { s, call := .search (2 ^ 64 - 1) 0, callers := [] }

/-- The string, if the substitution ends in fewer turns. -/
def substitute (fn : Bytes → Bytes) (fuel : Nat) (s : Bytes) : Option Bytes :=
  (Machine.lastWithin (Substitution.step fn) fuel (start s)).map (·.s)

end VarSub

end Swirly

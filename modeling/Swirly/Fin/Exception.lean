import Swirly.Fin.Types
import Swirly.Util.Date

/-!
# Exceptions

The exceptions that the matching engine and the server throw, with the messages of the engine.  `runtimeError` stands for
`std::runtime_error`; the others are the classes of `fin/Exception.hpp`.
-/

namespace Swirly

inductive ErrorKind where
  | badRequest
  | alreadyExists
  | refAlreadyExists
  | invalid
  | invalidLots
  | tooLate
  | unauthorized
  | forbidden
  | notFound
  | marketNotFound
  | orderNotFound
  | methodNotAllowed
  | marketClosed
  | runtimeError
  deriving DecidableEq

structure Exception where
  kind : ErrorKind
  what : String
  deriving DecidableEq

/-- A symbol as it is printed, up to its first NUL. -/
def Symbol.display (s : Symbol) : String := text (s.buf.takeWhile (· ≠ 0))

namespace Exception

def marketNotFound (id : Int) : Exception := ⟨.marketNotFound, s!"market '{id}' does not exist"⟩

def settlDayBeforeBusDay : Exception := ⟨.invalid, "settl-day before bus-day"⟩

def marketAlreadyExists (instr : Symbol) (settlDay : Int) : Exception :=
  ⟨.alreadyExists, s!"market for '{instr.display}' on {jdToIso settlDay} already exists"⟩

def refAlreadyExists (ref : Bytes) : Exception := ⟨.refAlreadyExists, s!"order '{text ref}' already exists"⟩

def marketClosed (instr : Symbol) (settlDay : Int) : Exception :=
  ⟨.marketClosed, s!"market for '{instr.display}' on {jdToIso settlDay} has closed"⟩

def invalidLots (lots : Int) : Exception := ⟨.invalidLots, s!"invalid lots '{lots}'"⟩

def orderNotFound (id : Int) : Exception := ⟨.orderNotFound, s!"order '{id}' does not exist"⟩

def orderRefNotFound (ref : Bytes) : Exception := ⟨.orderNotFound, s!"order '{text ref}' does not exist"⟩

def tooLate (id : Int) : Exception := ⟨.tooLate, s!"order '{id}' is done"⟩

def tradeNotFound (id : Int) : Exception := ⟨.notFound, s!"trade '{id}' does not exist"⟩

def notATrade (id : Int) : Exception := ⟨.invalid, s!"exec '{id}' is not a trade"⟩

def insufficientQueueCapacity : Exception := ⟨.runtimeError, "insufficient queue capacity"⟩

end Exception

end Swirly

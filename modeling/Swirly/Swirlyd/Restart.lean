import Swirly.Db.SqliteJourn
import Swirly.Db.SqliteModel
import Swirly.Lob.Load
import Swirly.Lob.Op

/-!
# Runs of the daemon

`main` of `swirlyd/Main.cpp`, with the database that outlives it.  The engine is loaded before the journal thread is
started, so a message that is waiting in a queue file is written after the tables have been read.
-/

namespace Swirly

/-- What the model reads from the tables; the rows are results of the statements. -/
def Db.model (db : Db) (orders : List OrderRow) (execs trades : List ExecRow) (posns : List (PosnPtr × Posn)) : Model where
  markets := db.readMarkets
  orders := orders.map OrderRow.order
  execs _ := execs.map ExecRow.exec
  trades := trades.map ExecRow.exec
  posns _ := posns

namespace MsgQueue

/-- The messages that the journal thread has not popped. -/
def pending (mq : MsgQueue) : List Msg := mq.posted.drop mq.popped

end MsgQueue

structure Service where
  db : Db
  app : App
  /-- An exception ends the journal thread. -/
  journaling : Bool
  /-- The messages that the journal thread has tried to write, since the tables were created. -/
  journ : List Msg
  deriving DecidableEq

namespace Service

inductive Event where
  /-- The reactor thread calls the engine. -/
  | call (op : Op)
  /-- The journal thread takes a message from the queue and writes it. -/
  | write
  /-- The process ends and is started again; `kept` is whether the queue is in a file. -/
  | restart (kept : Bool) (capacity maxExecs : Nat) (now busDay : Int) (orders : List OrderRow) (execs trades : List ExecRow)
      (posns : List (PosnPtr × Posn))
  deriving DecidableEq

/-- The first start, with new tables. -/
def make (capacity maxExecs : Nat) : Service :=
  { db := .empty, app := .make capacity maxExecs, journaling := true, journ := [] }

def write (s : Service) : Option Service :=
  if s.journaling then
    match s.app.mq.pending with
    | [] => none
    | msg :: _ =>
      let app := { s.app with mq := s.app.mq.pop }
      match SqliteJourn.write s.db msg with
      | some db => some { s with db, app, journ := s.journ ++ [msg] }
      -- The statement fails, and leaves the tables as they are.
      | none => some { s with app, journaling := false, journ := s.journ ++ [msg] }
  else none

def step (s : Service) : Event → Option Service
  | .call op =>
    -- Only the journal thread pops.
    if op = .pop then none else (s.app.step op).map fun app => { s with app }
  | .write => s.write
  | .restart kept capacity maxExecs now busDay orders execs trades posns =>
    if s.db.SelectsOrders orders ∧ s.db.SelectsExecs (now - App.oneWeek) execs ∧ s.db.SelectsTrades trades then
      ((App.make capacity maxExecs).load (s.db.model orders execs trades posns) now busDay).map fun app =>
        { s with app := if kept then { app with mq := s.app.mq } else app, journaling := true }
    else none

end Service

end Swirly

import Swirly.Fin.Exec
import Swirly.Lib.Json
import Swirly.Util.Date

/-!
# Orders, executions and markets as JSON

How values are inserted into a stream, and `to_json` of `fin/Order.cpp`, `fin/Exec.cpp` and `fin/Market.cpp`.  The strings of a
record are written between quotes as they are.
-/

namespace Swirly

/-- The names of the enumerators, as they are generated for `etc/fbs/Types.fbs`. -/
def State.name : State → Bytes
  | none => bytes "None"
  | new => bytes "New"
  | revise => bytes "Revise"
  | cancel => bytes "Cancel"
  | trade => bytes "Trade"

def Side.name : Side → Bytes
  | buy => bytes "Buy"
  | sell => bytes "Sell"

def LiqInd.name : LiqInd → Bytes
  | none => bytes "None"
  | maker => bytes "Maker"
  | taker => bytes "Taker"

/-- A symbol is inserted up to its first NUL. -/
def Symbol.view (s : Symbol) : Bytes := toStringView s.buf

def insertInt (n : Int) : Bytes := bytes (toString n)

theorem insertInt_negSucc (n : Nat) : insertInt (Int.negSucc n) = 45 :: insertInt (n + 1 : Nat) := by
  have printed : toString (Int.negSucc n) = "-" ++ toString (n + 1) := rfl
  rw [insertInt, printed, bytes, String.toList_append, List.map_append]
  rfl

/-- What is inserted for the value of a member. -/
inductive Insertion where
  | null
  | num (n : Int)
  | str (s : Bytes)

namespace Insertion

def text : Insertion → Bytes
  | null => bytes "null"
  | num n => insertInt n
  | str s => Json.quoted s

/-- A value that may be left out. -/
def orNull (absent : Bool) (value : Insertion) : Insertion := if absent then null else value

def date (jd : Int) : Insertion := orNull (jd = 0) (num (jdToIso jd))

def time (t : Int) : Insertion := num (msSinceEpoch t)

end Insertion

abbrev JsonMember := String × Insertion

def jsonObject (members : List JsonMember) : Bytes :=
  123 :: Json.rendered (members.map fun m => (bytes m.1, m.2.text)) ++ [125]

open Insertion

namespace Order

def jsonMembers (o : Order) : List JsonMember :=
  [("accnt", str o.accnt.view), ("market_id", num o.marketId), ("instr", str o.instr.view), ("settl_date", date o.settlDay),
    ("id", num o.id), ("ref", orNull o.ref.isEmpty (str o.ref.data)), ("state", str o.state.name), ("side", str o.side.name),
    ("lots", num o.lots), ("ticks", num o.ticks), ("resd_lots", num o.resdLots), ("exec_lots", num o.execLots),
    ("exec_cost", num o.execCost), ("last_lots", orNull (o.lastLots = 0) (num o.lastLots)),
    ("last_ticks", orNull (o.lastLots = 0) (num o.lastTicks)), ("min_lots", orNull (o.minLots = 0) (num o.minLots)),
    ("created", time o.created), ("modified", time o.modified)]

def toJson (o : Order) : Bytes := jsonObject o.jsonMembers

end Order

namespace Exec

def jsonMembers (e : Exec) : List JsonMember :=
  [("accnt", str e.accnt.view), ("market_id", num e.marketId), ("instr", str e.instr.view), ("settl_date", date e.settlDay),
    ("id", num e.id), ("order_id", num e.orderId), ("ref", orNull e.ref.isEmpty (str e.ref.data)),
    ("state", str e.state.name), ("side", str e.side.name), ("lots", num e.lots), ("ticks", num e.ticks),
    ("resd_lots", num e.resdLots), ("exec_lots", num e.execLots), ("exec_cost", num e.execCost),
    ("last_lots", orNull (e.lastLots = 0) (num e.lastLots)), ("last_ticks", orNull (e.lastLots = 0) (num e.lastTicks)),
    ("min_lots", orNull (e.minLots = 0) (num e.minLots)), ("match_id", orNull (e.matchId = 0) (num e.matchId)),
    ("posn_lots", orNull (e.state ≠ .trade) (num e.posnLots)), ("posn_cost", orNull (e.state ≠ .trade) (num e.posnCost)),
    ("liq_ind", orNull (e.liqInd = .none) (str e.liqInd.name)), ("cpty", orNull e.cpty.isEmpty (str e.cpty.view)),
    ("created", time e.created)]

def toJson (e : Exec) : Bytes := jsonObject e.jsonMembers

end Exec

def jsonArray (texts : List Bytes) : Bytes := 91 :: ([44] : Bytes).intercalate texts ++ [93]

/-- A price level as it is printed. -/
structure ShownLevel where
  ticks : Int
  lots : Int
  count : Int
  deriving DecidableEq

/-- `to_json_levels`: as many as there may be, with nothing for those that there are not. -/
def jsonLevels (maxLevels : Nat) (levels : List ShownLevel) (value : ShownLevel → Int) : Bytes :=
  jsonArray ((List.range maxLevels).map fun i => ((levels[i]?).elim null fun level => num (value level)).text)

/-- A market as it is printed, the best levels first. -/
structure ShownMarket where
  id : Int
  instr : Symbol
  settlDay : Int
  state : Nat
  lastLots : Int
  lastTicks : Int
  lastTime : Int
  bids : List ShownLevel
  offers : List ShownLevel
  deriving DecidableEq

namespace ShownMarket

def jsonMembers (m : ShownMarket) : List JsonMember :=
  [("id", num m.id), ("instr", str m.instr.view), ("settl_date", date m.settlDay), ("state", num m.state),
    ("last_lots", orNull (m.lastLots = 0) (num m.lastLots)), ("last_ticks", orNull (m.lastLots = 0) (num m.lastTicks)),
    ("last_time", orNull (m.lastLots = 0) (time m.lastTime))]

def jsonArrays (maxLevels : Nat) (m : ShownMarket) : List (String × Bytes) :=
  [("bid_ticks", jsonLevels maxLevels m.bids (·.ticks)), ("bid_lots", jsonLevels maxLevels m.bids (·.lots)),
    ("bid_count", jsonLevels maxLevels m.bids (·.count)), ("offer_ticks", jsonLevels maxLevels m.offers (·.ticks)),
    ("offer_lots", jsonLevels maxLevels m.offers (·.lots)), ("offer_count", jsonLevels maxLevels m.offers (·.count))]

def toJson (maxLevels : Nat) (m : ShownMarket) : Bytes :=
  123 :: Json.rendered ((m.jsonMembers.map fun x => (bytes x.1, x.2.text)) ++
    (m.jsonArrays maxLevels).map fun x => (bytes x.1, x.2)) ++ [125]

end ShownMarket

end Swirly

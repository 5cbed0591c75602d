import Swirly.Verified.Dsv.Columns
import Swirly.Verified.Http.Answered

/-!
# Numbers in paths

A settlement date and ids are tokens of a path.  A token is converted as far as its digits go, modulo a power of two, and no
token is rejected.
-/

namespace Swirly

/-- The number that decimal digits stand for. -/
def decimalValue (digits : Bytes) : Nat := digits.foldl (fun n c => n * 10 + (c.toNat - 48)) 0

/-- A token of decimal digits whose number is below a limit. -/
def Canonical (limit : Nat) (tok : Bytes) : Prop :=
  tok ≠ [] ∧ (∀ c ∈ tok, RestBody.isDigit c) ∧ decimalValue tok < limit

/-- A number is the value of such a token. -/
def Exact (limit : Nat) (tok : Bytes) (n : Int) : Prop := Canonical limit tok ∧ n = decimalValue tok

namespace Scope

def settlDate : Scope → Option Int
  | all | instr _ => none
  | market _ settlDate | ids _ settlDate _ => some settlDate

def idList : Scope → Option (List Int)
  | all | instr _ | market _ _ => none
  | ids _ _ list => some list

end Scope

namespace OrderPath

def settlDate : OrderPath → Option Int
  | all | instr _ => none
  | market _ settlDate => some settlDate

end OrderPath

namespace Route

/-- The settlement date of the path that `RestApp` is called with. -/
def settlDate : Route → Option Int
  | getRefData _ | getAsset _ | getInstr _ | getSess _ | getExec => none
  | getMarket scope | getOrder scope | getTrade scope | getPosn scope => scope.settlDate
  | postMarket path | postOrder path | postTrade path => path.settlDate
  | putMarket _ settlDate | putOrder _ settlDate _ | deleteTrade _ settlDate _ => some settlDate

/-- The ids that it is called with. -/
def ids : Route → Option (List Int)
  | getMarket scope | getOrder scope | getTrade scope | getPosn scope => scope.idList
  | putOrder _ _ ids | deleteTrade _ _ ids => some ids
  | _ => none

end Route

namespace RestServ

/-- What follows the kind of a resource in a path: an instrument, a settlement date and ids. -/
def resourceTokens : List Bytes → List Bytes
  | _ :: tok :: path => if tok = bytes "refdata" then [] else if tok = bytes "sess" then path.drop 1 else path
  | _ => []

def dateToken (path : List Bytes) : Option Bytes := (resourceTokens path)[1]?

def idsToken (path : List Bytes) : Option Bytes := (resourceTokens path)[2]?

/-- What a request for a route needs before `RestApp` is called: a permission, and the right fields. -/
def Permits (r : HttpRequest) : Route → Prop
  | .getRefData _ | .getAsset _ | .getInstr _ | .getMarket _ => True
  | .getSess _ | .getOrder _ | .getExec | .getTrade _ | .getPosn _ | .deleteTrade _ _ _ => (getTrader r).isOk
  | .postMarket path => (getAdmin r).isOk ∧ r.body.valid path.marketRequired OrderPath.marketOptional
  | .putMarket _ _ => (getAdmin r).isOk ∧ r.body.valid [.state] []
  | .postOrder path => (getTrader r).isOk ∧ r.body.valid path.required OrderPath.optional
  | .putOrder _ _ _ => (getTrader r).isOk ∧ r.body.valid [.lots] []
  | .postTrade path => (getAdmin r).isOk ∧ r.body.valid path.tradeRequired OrderPath.tradeOptional

/-- A request comes to a call of `RestApp`. -/
def Acts (env : Env) (r : HttpRequest) (route : Route) : Prop :=
  r.isPartial = false ∧ RestServ.route env r = .ok route ∧ Permits r route

/-- The date and the ids are the values of their tokens. -/
def NumbersExact (path : List Bytes) (route : Route) : Prop :=
  (∀ date ∈ route.settlDate, ∃ tok ∈ dateToken path, Exact (2 ^ 31) tok date) ∧
  ∀ ids ∈ route.ids, ∃ tok ∈ idsToken path, tok ≠ [] ∧ List.Forall₂ (Exact (2 ^ 63)) (tokens [RestBody.comma] tok) ids

/-- The tokens for numbers are canonical. -/
def NumbersCanonical (path : List Bytes) : Prop :=
  (∀ tok ∈ dateToken path, Canonical (2 ^ 31) tok) ∧
  ∀ tok ∈ idsToken path, tok ≠ [] ∧ ∀ id ∈ tokens [RestBody.comma] tok, Canonical (2 ^ 63) id

/-! ## Conversion -/

theorem stou_canonical {w : Nat} {tok : Bytes} (digits : ∀ c ∈ tok, RestBody.isDigit c) : stou w tok = decimalValue tok % 2 ^ w := by
  rw [stou, Dsv.dropWhile_digits digits, List.takeWhile_eq_self_iff.mpr digits, decimalValue]
  clear digits
  induction tok using List.reverseRecOn with
  | nil => simp
  | append_singleton tok c inductionHypothesis =>
    rw [List.foldl_append, List.foldl_append, inductionHypothesis, List.foldl_cons, List.foldl_nil, List.foldl_cons,
      List.foldl_nil, Nat.add_mod, Nat.mod_mul_mod, ← Nat.add_mod]

/-- A canonical token is converted exactly, to any type that holds its number. -/
theorem stou_bmod {limit w : Nat} {tok : Bytes} (canonical : Canonical limit tok) (narrow : limit * 2 ≤ 2 ^ w) (wide : limit ≤ 2 ^ 64) :
    (stou 64 tok : Int).bmod (2 ^ w) = decimalValue tok := by
  obtain ⟨-, digits, small⟩ := canonical
  rw [stou_canonical digits, Nat.mod_eq_of_lt (lt_of_lt_of_le small wide)]
  apply Int.bmod_eq_of_le_mul_two <;> omega

theorem isoDate_canonical {tok : Bytes} (canonical : Canonical (2 ^ 31) tok) : isoDate tok = decimalValue tok :=
  stou_bmod canonical (by norm_num) (by norm_num)

theorem scopedIds_canonical {tok : Bytes} (canonical : ∀ id ∈ tokens [RestBody.comma] tok, Canonical (2 ^ 63) id) :
    List.Forall₂ (Exact (2 ^ 63)) (tokens [RestBody.comma] tok) (scopedIds tok) := by
  rw [scopedIds, List.forall₂_map_right_iff, List.forall₂_same]
  intro id member
  exact ⟨canonical id member, stou_bmod (canonical id member) (by norm_num) (by norm_num)⟩

/-! ## Routes -/

/-- The numbers of a route are read from these tokens. -/
def ReadFrom (date ids : Option Bytes) (route : Route) : Prop :=
  route.settlDate = date.map isoDate ∧ route.ids = ids.map scopedIds

/-- The same for all methods of a resource. -/
def AllRead (date ids : Option Bytes) (methods : Methods) : Prop := ∀ m ∈ methods, ReadFrom date ids m.2

variable {path : List Bytes} {methods : Methods} {date ids : Option Bytes}

theorem allRead_nil : AllRead date ids [] := List.forall_mem_nil _

theorem allRead_cons {m : HttpMethod × Route} (first : ReadFrom date ids m.2) (rest : AllRead date ids methods) :
    AllRead date ids (m :: methods) :=
  List.forall_mem_cons.mpr ⟨first, rest⟩

theorem allRead_one {method : HttpMethod} {route : Route} (read : ReadFrom date ids route) : AllRead date ids [(method, route)] :=
  allRead_cons read allRead_nil

theorem marketRequest_read (found : marketRequest path = some methods) : AllRead path[1]? path[2]? methods := by
  rw [marketRequest.eq_def] at found
  split at found <;> cases found
  · exact allRead_cons ⟨rfl, rfl⟩ (allRead_one ⟨rfl, rfl⟩)
  · exact allRead_cons ⟨rfl, rfl⟩ (allRead_one ⟨rfl, rfl⟩)
  · exact allRead_cons ⟨rfl, rfl⟩ (allRead_cons ⟨rfl, rfl⟩ (allRead_one ⟨rfl, rfl⟩))

theorem orderPaths_read (found : orderPaths path = some methods) : AllRead path[1]? path[2]? methods := by
  rw [orderPaths.eq_def] at found
  split at found <;> cases found <;> exact allRead_cons ⟨rfl, rfl⟩ (allRead_one ⟨rfl, rfl⟩)

theorem tradeRequest_read (found : tradeRequest path = some methods) : AllRead path[1]? path[2]? methods := by
  rw [tradeRequest.eq_def] at found
  split at found <;> cases found <;> exact allRead_cons ⟨rfl, rfl⟩ (allRead_one ⟨rfl, rfl⟩)

theorem execRequest_read (found : execRequest path = some methods) : AllRead path[1]? path[2]? methods := by
  rw [execRequest.eq_def] at found
  split at found <;> cases found
  exact allRead_one ⟨rfl, rfl⟩

theorem posnRequest_read (found : posnRequest path = some methods) : AllRead path[1]? path[2]? methods := by
  rw [posnRequest.eq_def] at found
  split at found <;> cases found <;> exact allRead_one ⟨rfl, rfl⟩

theorem symbolRequest_read {get : Option Symbol → Route} (read : ∀ symbol, ReadFrom none none (get symbol))
    (found : symbolRequest get path = some methods) : AllRead none none methods := by
  rw [symbolRequest.eq_def] at found
  split at found <;> cases found
  all_goals exact allRead_one (read _)

theorem refDataRequest_read (found : refDataRequest path = .ok (some methods)) : AllRead none none methods := by
  rw [refDataRequest.eq_def] at found
  split at found
  next =>
    cases found
    exact allRead_one ⟨rfl, rfl⟩
  next =>
    split at found
    next => cases found
    next =>
      split at found
      next =>
        have found := Except.ok.inj found
        split at found <;> cases found
        exact allRead_one ⟨rfl, rfl⟩
      next =>
        split at found
        next => exact symbolRequest_read (fun _ => ⟨rfl, rfl⟩) (Except.ok.inj found)
        next => exact symbolRequest_read (fun _ => ⟨rfl, rfl⟩) (Except.ok.inj found)
        next => cases found

theorem sessRequest_read (found : sessRequest path = .ok (some methods)) :
    AllRead (path.drop 1)[1]? (path.drop 1)[2]? methods := by
  -- The resource behind the account decides where the numbers stand.
  rw [sessRequest.eq_def] at found
  split at found
  next =>
    cases found
    exact allRead_one ⟨rfl, rfl⟩
  next tok path =>
    split at found
    next => cases found
    next =>
      split at found
      next =>
        have found := Except.ok.inj found
        split at found <;> cases found
        next none_ =>
          subst none_
          exact allRead_one ⟨rfl, rfl⟩
      next =>
        split at found
        next => exact marketRequest_read (Except.ok.inj found)
        next => exact orderPaths_read (Except.ok.inj found)
        next => exact execRequest_read (Except.ok.inj found)
        next => exact tradeRequest_read (Except.ok.inj found)
        next => exact posnRequest_read (Except.ok.inj found)
        next => cases found

/-- The numbers that a route has are the conversions of the tokens in their places. -/
theorem restRequest_read (found : restRequest path = .ok (some methods)) : AllRead (dateToken path) (idsToken path) methods := by
  rw [restRequest.eq_def] at found
  split at found
  next api tok path =>
    rw [dateToken, idsToken, resourceTokens]
    split at found
    next => cases found
    next =>
      split at found
      next refdata =>
        rw [if_pos refdata]
        exact refDataRequest_read found
      next other =>
        rw [if_neg other]
        split at found
        next sess =>
          rw [if_pos sess]
          exact sessRequest_read found
        next unnamed =>
          rw [if_neg unnamed]
          split at found
          next => exact marketRequest_read (Except.ok.inj found)
          next => cases found
  next => cases found

variable {env : Env} {r : HttpRequest} {route : Route}

theorem route_read (routed : RestServ.route env r = .ok route) :
    ReadFrom (dateToken (Routing.segments (env.path r.url.data))) (idsToken (Routing.segments (env.path r.url.data))) route := by
  rw [RestServ.route] at routed
  rw [Routing.segments]
  split at routed
  next => cases routed
  next => cases routed
  next methods found =>
    split at routed
    next => cases routed
    next named =>
      cases routed
      obtain ⟨before, after, same, -⟩ := List.lookup_eq_some_iff.mp named
      exact restRequest_read found (r.method, _) (by simp [same])

/-- An account without the permission, or a call that fails. -/
theorem withAccnt_rejected {app : App} {accnt : Except Exception Bytes} {serve : Bytes → Outcome Shown}
    (rejects : accnt.isOk → ∀ name, ∃ e, serve name = .throw e app) : ∃ e, withAccnt app accnt serve = .throw e app := by
  cases accnt with
  | error e => exact ⟨e, rfl⟩
  | ok name => exact rejects rfl name

theorem withFields_rejected {app : App} {body : RestBody} {required optional : List Field} {serve : Outcome Shown}
    (missing : ¬ body.valid required optional) : ∃ e, withFields app body required optional serve = .throw e app :=
  ⟨_, if_neg missing⟩

theorem serve_rejected (app : App) (now : Int) (forbidden : ¬ Permits r route) : ∃ e, serve env app r now route = .throw e app := by
  cases route with
  | getRefData | getAsset | getInstr | getMarket => exact absurd trivial forbidden
  | getSess | getOrder | getExec | getTrade | getPosn | deleteTrade =>
    exact withAccnt_rejected fun trader => absurd trader forbidden
  | postMarket | putMarket | putOrder | postTrade =>
    exact withAccnt_rejected fun permitted _ => withFields_rejected fun valid => forbidden ⟨permitted, valid⟩
  | postOrder path =>
    refine withAccnt_rejected fun trader _ => ⟨invalidFields, ?_⟩
    rw [orderRequest, if_neg fun valid => forbidden ⟨trader, valid⟩]
    rfl

/-- A request that comes to no call fails, and leaves the engine as it is. -/
theorem handleRequest_rejected (app : App) (clock : Int) (idle : ∀ route, ¬ Acts env r route) :
    ∃ e, handleRequest env app clock r = .throw e app := by
  rw [handleRequest]
  split
  next => exact ⟨_, rfl⟩
  next complete =>
    cases routed : RestServ.route env r with
    | error e => exact ⟨e, rfl⟩
    | ok route =>
      exact serve_rejected app _ fun permitted => idle route ⟨Bool.eq_false_iff.mpr complete, routed, permitted⟩

/-- The numbers that a request acts on are exact when the tokens for numbers are canonical, and only then. -/
theorem path_numbers_iff (env : Env) (r : HttpRequest) :
    (∀ route, Acts env r route → NumbersExact (Routing.segments (env.path r.url.data)) route) ↔
      ((∃ route, Acts env r route) → NumbersCanonical (Routing.segments (env.path r.url.data))) := by
  constructor
  -- Each number of the route is the conversion of its token, and what converts to the right number is canonical.
  · rintro exact_ ⟨route, acts⟩
    obtain ⟨dates, ids⟩ := exact_ route acts
    obtain ⟨readDate, readIds⟩ := route_read acts.2.1
    constructor
    · intro tok token
      rw [token] at readDate
      obtain ⟨other, same, value⟩ := dates _ readDate
      rw [token] at same
      cases same
      exact value.1
    · intro tok token
      rw [token] at readIds
      obtain ⟨other, same, nonempty, values⟩ := ids _ readIds
      rw [token] at same
      cases same
      rw [scopedIds, List.forall₂_map_right_iff, List.forall₂_same] at values
      exact ⟨nonempty, fun id member => (values id member).1⟩
  · intro canonical route acts
    obtain ⟨dates, ids⟩ := canonical ⟨route, acts⟩
    obtain ⟨readDate, readIds⟩ := route_read acts.2.1
    constructor
    · intro date has
      rw [readDate] at has
      obtain ⟨tok, token, rfl⟩ := Option.map_eq_some_iff.mp has
      exact ⟨tok, token, dates tok token, isoDate_canonical (dates tok token)⟩
    · intro list has
      rw [readIds] at has
      obtain ⟨tok, token, rfl⟩ := Option.map_eq_some_iff.mp has
      obtain ⟨nonempty, all⟩ := ids tok token
      exact ⟨tok, token, nonempty, scopedIds_canonical all⟩

/-- A date that is a multiple of `2 ^ 32` too great is another date. -/
theorem path_numbers_wrapped : ¬ ∀ env r route, Acts env r route →
    NumbersExact (Routing.segments (env.path r.url.data)) route := by
  intro exact_
  have routed : RestServ.route Routing.server (Routing.getUrl "/api/market/EURUSD/4315107610") =
      .ok (.getMarket (.market (.assign (bytes "EURUSD")) 20140314)) := by
    decide +kernel
  obtain ⟨dates, -⟩ := exact_ Routing.server (Routing.getUrl "/api/market/EURUSD/4315107610") _ ⟨rfl, routed, trivial⟩
  obtain ⟨tok, token, ⟨-, -, small⟩, -⟩ := dates _ rfl
  have written : dateToken (Routing.segments (Routing.server.path (Routing.getUrl "/api/market/EURUSD/4315107610").url.data)) =
      some (bytes "4315107610") := by
    decide +kernel
  rw [written] at token
  cases token
  revert small
  decide +kernel

end RestServ

end Swirly

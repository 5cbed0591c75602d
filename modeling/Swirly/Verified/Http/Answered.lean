import Swirly.Verified.Http.Routed

/-!
# Answering a request

A request is answered with one response, whether the call for it returns or throws.  Two requests read outside the data: one
whose URL has no path, and a `GET` by ids whose segment has none.
-/

namespace Swirly

namespace HttpStream

theorem sent_short {a : Attempt} (short : a.body.length < 10 ^ 11) : a.sent = a.response := by
  rw [Attempt.sent, frame_short short]
  rfl

/-- One response has been added to the buffer, and nothing else. -/
def Answered (os done : HttpStream) : Prop :=
  done.buf.buf.Valid ∧ ∃ a : Attempt, done.buf.buf.data = os.buf.buf.data ++ a.sent ∧
    (a.body.length < 10 ^ 10 → a.sent = a.response)

theorem compose_answered {os : HttpStream} (valid : os.buf.buf.Valid) (abandoned : List Attempt) (last : Attempt) :
    ∃ done, os.compose (abandoned ++ [last]) = some done ∧ Answered os done := by
  obtain ⟨done, composed, valid, data⟩ := compose_sent valid abandoned last
  exact ⟨done, composed, valid, last, data, fun short => sent_short (by omega)⟩

end HttpStream

namespace Routing

open RestServ HttpStream

variable {env : Env} {call : Route → Served} {idsFirst : Bool} {r : HttpRequest} {os : HttpStream} {toks : Tokeniser}

/-- The tokens of a path, without its leading slash. -/
def segments (path : Bytes) : List Bytes := tokens [47] (if path.head? = some 47 then path.drop 1 else path)

/-- The request asks for an order or a trade by ids, there are none, and nothing stops it before the first of them. -/
def ReadsNoId (env : Env) (idsFirst : Bool) (r : HttpRequest) : Prop :=
  r.isPartial = false ∧ r.method = .get ∧ (idsFirst = true ∨ ∃ accnt, getTrader r = .ok accnt) ∧
    OfIds (segments (env.path r.url.data)) []

theorem reset_cases (env : Env) (r : HttpRequest) :
    env.path r.url.data = [] ∧ reset env r = none ∨
      env.path r.url.data ≠ [] ∧ ∃ cache toks, reset env r = some (cache, toks) ∧
        toks.left = segments (env.path r.url.data) := by
  rw [reset, segments]
  cases env.path r.url.data with
  | nil => exact .inl ⟨rfl, rfl⟩
  | cons front path =>
    refine .inr ⟨List.cons_ne_nil _ _, _, _, rfl, ?_⟩
    rw [Tokeniser.left_make]
    simp

/-- The tokens lead to the route that their list leads to. -/
theorem serve_route (left : toks.left = segments (env.path r.url.data)) :
    serve env call idsFirst r toks =
      if r.isPartial then some (.throws incompleteBody)
      else
        match route env r with
        | .error e => some (.throws e)
        | .ok route => perform call idsFirst r route := by
  rw [serve, route, ← segments, ← restRequest_left, left]
  cases r.isPartial with
  | true => rfl
  | false =>
    cases RestServ.restRequest (segments (env.path r.url.data)) with
    | error e => rfl
    | ok found =>
      cases found with
      | none => rfl
      | some methods =>
        dsimp only
        cases methods.lookup r.method with
        | none => rfl
        | some route => rfl

/-- The first id is read, and there is none. -/
theorem perform_none {route : Route} :
    perform call idsFirst r route = none ↔
      indexed route = some [] ∧ (idsFirst = true ∨ ∃ accnt, getTrader r = .ok accnt) := by
  rw [perform]
  cases indexed route with
  | none => simp
  | some ids =>
    cases idsFirst with
    | true => simp
    | false =>
      cases getTrader r with
      | error e => simp
      | ok accnt => simp

theorem lookup_plain {methods : Methods} (plain : Plain methods) {route : Route} {method : HttpMethod}
    (chosen : methods.lookup method = some route) : indexed route = none := by
  obtain ⟨before, after, same, -⟩ := List.lookup_eq_some_iff.mp chosen
  exact plain (method, route) (by rw [same]; simp)

theorem lookup_indexes {ids : List Int} {methods : Methods} (indexes : Indexes ids methods) {route : Route}
    {method : HttpMethod} (chosen : methods.lookup method = some route) {others : List Int}
    (some_ : indexed route = some others) : method = .get ∧ others = ids := by
  obtain ⟨first, other, rfl, own, plain⟩ := indexes
  by_cases get : method = .get
  · subst get
    have same : first = route := by simpa [List.lookup_cons] using chosen
    rw [← same, own] at some_
    exact ⟨rfl, (Option.some.inj some_).symm⟩
  · have missed : (method == HttpMethod.get) = false := by simpa using get
    rw [List.lookup_cons, missed] at chosen
    have none_ := lookup_plain (plain_cons plain plain_nil) chosen
    rw [none_] at some_
    cases some_

/-- Handling goes outside the data in one case only. -/
theorem serve_none :
    serve env call idsFirst r toks = none ↔
      r.isPartial = false ∧ r.method = .get ∧ (idsFirst = true ∨ ∃ accnt, getTrader r = .ok accnt) ∧ OfIds toks.left [] := by
  rw [serve]
  cases r.isPartial with
  | true => simp
  | false =>
    rw [if_neg Bool.false_ne_true, ← restRequest_left]
    constructor
    · intro outside
      split at outside
      next => cases outside
      next => cases outside
      next methods found =>
        split at outside
        next => cases outside
        next route chosen =>
          obtain ⟨some_, reached⟩ := perform_none.mp outside
          obtain plain | ⟨tok, named, indexes⟩ := restRequest_cases found
          · rw [lookup_plain plain chosen] at some_
            cases some_
          · obtain ⟨get, none_⟩ := lookup_indexes indexes chosen some_
            rw [(scopedIds_eq_nil tok).mp none_.symm] at named
            exact ⟨rfl, get, reached, named⟩
    · rintro ⟨-, get, reached, named⟩
      obtain ⟨methods, found, route, other, rfl, own, -⟩ := restRequest_ofIds named
      rw [found, get]
      simp only [List.lookup_cons_self]
      exact perform_none.mpr ⟨own, reached⟩

theorem attempts_answered (valid : os.buf.buf.Valid) (cache : Bool) (served : Served) :
    ∃ done, os.compose (attempts r cache served) = some done ∧ Answered os done := by
  rw [attempts]
  cases served.thrown with
  | none => exact compose_answered valid [] (begun r cache served.writes)
  | some e => exact compose_answered valid [begun r cache served.writes] (failed e)

/-- Whatever `RestApp` writes and throws, there is one response, unless the path or the ids are empty. -/
theorem handleRequest_answered_iff (env : Env) (call : Route → Served) (idsFirst : Bool) (r : HttpRequest) (os : HttpStream)
    (valid : os.buf.buf.Valid) :
    (∃ done, handleRequest env call idsFirst r os = some done ∧ Answered os done) ↔
      env.path r.url.data ≠ [] ∧ ¬ ReadsNoId env idsFirst r := by
  rw [handleRequest, ReadsNoId]
  obtain ⟨empty, outside⟩ | ⟨path, cache, toks, started, left⟩ := reset_cases env r
  · rw [outside]
    simp [empty]
  · have unserved : serve env call idsFirst r toks = none ↔ r.isPartial = false ∧ r.method = .get ∧
        (idsFirst = true ∨ ∃ accnt, getTrader r = .ok accnt) ∧ OfIds toks.left [] := serve_none
    rw [started, ← left, ← unserved]
    simp only [Option.bind_some]
    cases serve env call idsFirst r toks with
    | none => simp
    | some served =>
      obtain ⟨done, composed, answered⟩ := attempts_answered (r := r) valid cache served
      rw [Option.bind_some, composed]
      exact ⟨fun _ => ⟨path, Option.some_ne_none _⟩, fun _ => ⟨done, rfl, answered⟩⟩

/-- The path of a URL, which may start with a schema and a host, and before its query. -/
def pathOf (url : Bytes) : Bytes :=
  let rest := if url.head? = some 47 then url else ((url.dropWhile (· ≠ 47)).drop 2).dropWhile (· ≠ 47)
  rest.takeWhile (· ≠ 63)

def server : Env :=
  { instrs := { find := fun _ => none, print := Symbol.display, asset := fun _ => false }, path := pathOf, query := fun _ => [],
    method := fun _ => "GET", busDay := fun now => now }

/-- A trader asks for a URL. -/
def getUrl (url : String) : HttpRequest :=
  { HttpRequest.clear with url := .assign (bytes url), accnt := .assign (bytes "MARAYL"), perm := .assign (bytes "2") }

/-- Nothing has been written yet. -/
def fresh : HttpStream := .make .empty

theorem handleRequest_byId :
    ∃ done, handleRequest server (fun _ => { writes := [.block (bytes "[]")], thrown := none }) false
      (getUrl "/api/sess/order/EURUSD/20140302/1") fresh = some done ∧ Answered fresh done := by
  apply (handleRequest_answered_iff server _ false (getUrl "/api/sess/order/EURUSD/20140302/1") fresh Buffer.valid_empty).mpr
  constructor
  · decide +kernel
  · rintro ⟨-, -, -, kind, instr, date, same, -⟩
    have last : (segments (server.path (getUrl "/api/sess/order/EURUSD/20140302/1").url.data)).getLast? =
      some (bytes "1") := by decide +kernel
    rw [same] at last
    cases last

/-- The segment of ids is empty, or there is no path. -/
theorem handleRequest_outside :
    (handleRequest server (fun _ => { writes := [], thrown := none }) false (getUrl "/api/sess/order/EURUSD/20140302//") fresh = none) ∧
    handleRequest server (fun _ => { writes := [], thrown := none }) false (getUrl "http://localhost") fresh = none := by
  decide +kernel

end Routing

end Swirly

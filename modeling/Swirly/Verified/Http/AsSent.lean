import Swirly.Swirlyd.HttpSess
import Swirly.Swirlyd.RestServ

/-!
# Requests as they were sent

A request is handed over with the first bytes of its URL and of all values of a header.  That is what was sent when the URL
fits and no header comes twice or is too long.
-/

namespace Swirly

/-- Bytes that come in parts, of which there is one at least. -/
structure Fragments where
  first : Bytes
  rest : List Bytes

def Fragments.text (f : Fragments) : Bytes := f.first ++ f.rest.flatten

structure HttpHeader where
  name : Fragments
  value : Fragments

/-- A message, as the parser of HTTP cuts it into parts. -/
structure HttpMessage where
  method : HttpMethod
  url : List Bytes
  headers : List HttpHeader
  body : List Bytes
  /-- The headers after the body. -/
  trailers : List HttpHeader

def HttpHeader.callbacks (h : HttpHeader) : List HttpCallback :=
  .headerField h.name.first :: h.name.rest.map .headerField ++ .headerValue h.value.first :: h.value.rest.map .headerValue

/-- The full values of the headers with a name. -/
def valuesOf (f : HeaderField) (hs : List HttpHeader) : List Bytes :=
  (hs.filter fun h => h.name.text = f.name).map fun h => h.value.text

namespace HttpMessage

variable (m : HttpMessage)

def callbacks : List HttpCallback :=
  [.messageBegin] ++ m.url.map .url ++ m.headers.flatMap HttpHeader.callbacks ++ [.headersEnd m.method] ++
    m.body.map .body ++ m.trailers.flatMap HttpHeader.callbacks ++ [.messageEnd]

def values (f : HeaderField) : List Bytes := valuesOf f (m.headers ++ m.trailers)

/-- The request has the full URL, and the full value of each header, which is empty for one that was not sent. -/
def Sent (r : HttpRequest) : Prop :=
  r.url.data = m.url.flatten ∧
    ∀ f, m.values f = [] ∧ (r.header f).data = [] ∨ m.values f = [(r.header f).data]

/-- The URL fits, and each header comes at most once and fits. -/
def Fits : Prop :=
  m.url.flatten.length ≤ 128 ∧ ∀ f, (m.values f).length ≤ 1 ∧ ∀ v ∈ m.values f, v.length ≤ 24

/-- The body is refused, or the first bytes of the URL are no URL. -/
def Refused (validUrl : Bytes → Bool) : Prop :=
  (∃ e, RestServ.appendBody m.body false .reset = .error e) ∨ validUrl (m.url.flatten.take 128) = false

end HttpMessage

theorem take_eq_iff {n : Nat} {s t : Bytes} (short : t.length < n) : s.take n = t ↔ s = t := by
  constructor
  · intro same
    have size := congrArg List.length same
    rw [List.length_take] at size
    rwa [List.take_of_length_le (by omega)] at same
  · rintro rfl
    exact List.take_of_length_le (Nat.le_of_lt short)

theorem HeaderField.length_name (f : HeaderField) : f.name.length < 16 := by
  cases f <;> decide

/-- Where the value of a header with a name goes. -/
def selected (name : Bytes) : Option HeaderField :=
  if name = HeaderField.accnt.name then some .accnt
  else if name = HeaderField.perm.name then some .perm
  else if name = HeaderField.time.name then some .time
  else none

theorem selected_eq_some {name : Bytes} {f : HeaderField} : selected name = some f ↔ name = f.name := by
  constructor
  · intro found
    rw [selected] at found
    split at found
    · next same => cases found; exact same
    · split at found
      · next same => cases found; exact same
      · split at found
        · next same => cases found; exact same
        · cases found
  · rintro rfl
    cases f <;> decide

namespace HttpRequest

/-- What has come of a request: the bytes of the URL, of the headers, and the body. -/
structure Holds (r : HttpRequest) (url : Bytes) (texts : HeaderField → Bytes) (body : RestBody) : Prop where
  url : r.url.data = url.take 128
  header : ∀ f, (r.header f).data = (texts f).take 24
  body : r.body = body

variable {r : HttpRequest} {url : Bytes} {texts : HeaderField → Bytes} {body : RestBody}

theorem Holds.clear : Holds .clear [] (fun _ => []) .reset where
  url := rfl
  header f := by cases f <;> rfl
  body := rfl

theorem Holds.appendUrl (holds : Holds r url texts body) (s : Bytes) : Holds (r.appendUrl s) (url ++ s) texts body where
  url := StringBuf.data_append holds.url s
  header f := by
    have header := holds.header f
    cases f <;> exact header
  body := holds.body

/-- A value goes to the header that was selected, and nowhere else. -/
theorem header_appendValue (r : HttpRequest) (s : Bytes) (f : HeaderField) :
    (r.appendValue s).header f = if r.value = some f then (r.header f).append s else r.header f := by
  rw [appendValue]
  cases r.value with
  | none => rfl
  | some g => cases g <;> cases f <;> rfl

theorem frame_appendValue (r : HttpRequest) (s : Bytes) :
    (r.appendValue s).url = r.url ∧ (r.appendValue s).body = r.body ∧ (r.appendValue s).value = r.value := by
  rw [appendValue]
  split <;> exact ⟨rfl, rfl, rfl⟩

theorem Holds.appendValue (holds : Holds r url texts body) (s : Bytes) :
    Holds (r.appendValue s) url (fun f => if r.value = some f then texts f ++ s else texts f) body := by
  obtain ⟨sameUrl, sameBody, -⟩ := frame_appendValue r s
  refine ⟨by rw [sameUrl, holds.url], fun f => ?_, by rw [sameBody, holds.body]⟩
  rw [header_appendValue]
  split
  · exact StringBuf.data_append (holds.header f) s
  · exact holds.header f

theorem Holds.appendValues (holds : Holds r url texts body) (ss : List Bytes) :
    Holds (ss.foldl HttpRequest.appendValue r) url
      (fun f => if r.value = some f then texts f ++ ss.flatten else texts f) body := by
  induction ss generalizing r texts with
  | nil => simpa using holds
  | cons s ss inductionHypothesis =>
    have rest := inductionHypothesis (holds.appendValue s)
    rw [(frame_appendValue r s).2.2] at rest
    rw [List.foldl_cons, List.flatten_cons]
    convert rest using 2 with f
    split <;> simp

/-- The name of a field is shorter than the buffer for it, so a longer name is not taken for one. -/
theorem value_selectValue {name : Bytes} (field : r.field.data = name.take 16) : r.selectValue.value = selected name := by
  have same : ∀ f : HeaderField, r.field.data = f.name ↔ name = f.name := by
    intro f
    rw [field, take_eq_iff f.length_name]
  simp only [selectValue, selected, same]

end HttpRequest

namespace HttpSess

variable {validUrl : Bytes → Bool} {s : HttpSess} {cs : List HttpCallback} {url : Bytes} {texts : HeaderField → Bytes}
  {body : RestBody}

theorem parse_append (before after : List HttpCallback) :
    parse validUrl s (before ++ after) =
      if (parse validUrl s before).1 then parse validUrl (parse validUrl s before).2 after
      else parse validUrl s before := by
  induction before generalizing s with
  | nil => rfl
  | cons c before inductionHypothesis =>
    rw [List.cons_append, parse, parse]
    cases called : s.on validUrl c with
    | mk continues s =>
      cases continues with
      | false => rfl
      | true => exact inductionHypothesis

/-- The rest of a name. -/
theorem parse_names (inside : s.lastHeaderElem = .field) (names : List Bytes) :
    parse validUrl s (names.map .headerField ++ cs) =
      parse validUrl { s with req := { s.req with field := names.foldl .append s.req.field } } cs := by
  induction names generalizing s with
  | nil => rfl
  | cons name names inductionHypothesis =>
    have step : s.on validUrl (.headerField name) = (true, { s with req := s.req.appendHeaderField name false }) := by
      simp only [on, onHeaderField, inside, ne_eq, not_true, decide_false]
    rw [List.map_cons, List.cons_append, parse, step]
    exact inductionHypothesis inside

/-- The rest of a value. -/
theorem parse_values (inside : s.lastHeaderElem = .value) (values : List Bytes) :
    parse validUrl s (values.map .headerValue ++ cs) =
      parse validUrl { s with req := values.foldl HttpRequest.appendValue s.req } cs := by
  induction values generalizing s with
  | nil => rfl
  | cons value values inductionHypothesis =>
    have step : s.on validUrl (.headerValue value) = (true, { s with req := s.req.appendValue value }) := by
      simp only [on, onHeaderValue, inside, ne_eq, not_true, decide_false]
      rfl
    rw [List.map_cons, List.cons_append, parse, step]
    exact inductionHypothesis inside

theorem flatten_valuesOf (f : HeaderField) (hs : List HttpHeader) (h : HttpHeader) :
    (valuesOf f (hs ++ [h])).flatten =
      if selected h.name.text = some f then (valuesOf f hs).flatten ++ h.value.text else (valuesOf f hs).flatten := by
  simp only [selected_eq_some, valuesOf, List.filter_append, List.map_append, List.flatten_append]
  by_cases same : h.name.text = f.name
  · simp [same]
  · simp [same]

/-- A header, whose name is selected at the first part of its value. -/
theorem parse_header (validUrl : Bytes → Bool) (cs : List HttpCallback) {hs : List HttpHeader}
    (outside : s.lastHeaderElem ≠ .field)
    (holds : s.req.Holds url (fun f => (valuesOf f hs).flatten) body) (h : HttpHeader) :
    ∃ r, parse validUrl s (h.callbacks ++ cs) = parse validUrl { s with lastHeaderElem := .value, req := r } cs ∧
      r.Holds url (fun f => (valuesOf f (hs ++ [h])).flatten) body := by
  obtain ⟨named, name⟩ : ∃ r : HttpRequest, r = { s.req with field := h.name.rest.foldl .append (.assign h.name.first) } :=
    ⟨_, rfl⟩
  have field : named.field.data = h.name.text.take 16 := by
    rw [name]
    exact StringBuf.data_foldl_append rfl h.name.rest
  have same : named.selectValue.Holds url (fun f => (valuesOf f hs).flatten) body := by
    rw [name]
    refine ⟨holds.url, fun f => ?_, holds.body⟩
    have header := holds.header f
    cases f <;> exact header
  refine ⟨(h.value.first :: h.value.rest).foldl HttpRequest.appendValue named.selectValue, ?_, ?_⟩
  · have begin_ : s.on validUrl (.headerField h.name.first) =
        (true, { s with lastHeaderElem := .field, req := { s.req with field := .assign h.name.first } }) := by
      simp only [on, onHeaderField, HttpRequest.appendHeaderField, outside, ne_eq, not_false_eq_true, decide_true, if_true]
    rw [HttpHeader.callbacks, List.append_assoc, List.cons_append, parse, begin_]
    simp only
    rw [parse_names rfl, List.cons_append, parse]
    simp only [on, onHeaderValue]
    rw [parse_values rfl, ← name]
    rfl
  · have all := same.appendValues (h.value.first :: h.value.rest)
    rw [HttpRequest.value_selectValue field] at all
    convert all using 2 with f
    rw [flatten_valuesOf]
    rfl

theorem parse_headers (validUrl : Bytes → Bool) (cs : List HttpCallback) {before : List HttpHeader}
    (outside : s.lastHeaderElem ≠ .field)
    (holds : s.req.Holds url (fun f => (valuesOf f before).flatten) body) (hs : List HttpHeader) :
    ∃ last r, parse validUrl s (hs.flatMap HttpHeader.callbacks ++ cs) =
        parse validUrl { s with lastHeaderElem := last, req := r } cs ∧ last ≠ .field ∧
      r.Holds url (fun f => (valuesOf f (before ++ hs)).flatten) body := by
  induction hs generalizing s before with
  | nil => exact ⟨s.lastHeaderElem, s.req, rfl, outside, by simpa using holds⟩
  | cons h hs inductionHypothesis =>
    rw [List.flatMap_cons, List.append_assoc]
    obtain ⟨r, parsed, holds⟩ :=
      parse_header validUrl (hs.flatMap HttpHeader.callbacks ++ cs) outside holds h
    rw [parsed]
    obtain ⟨last, r, parsed, outside, holds⟩ :=
      inductionHypothesis (s := { s with lastHeaderElem := .value, req := r }) HeaderElem.noConfusion holds
    rw [List.append_assoc, List.singleton_append] at holds
    exact ⟨last, r, parsed, outside, holds⟩

theorem parse_urls (validUrl : Bytes → Bool) (cs : List HttpCallback) (holds : s.req.Holds url texts body) (urls : List Bytes) :
    ∃ r, parse validUrl s (urls.map .url ++ cs) = parse validUrl { s with req := r } cs ∧
      r.Holds (url ++ urls.flatten) texts body := by
  induction urls generalizing s url with
  | nil => exact ⟨s.req, rfl, by simpa using holds⟩
  | cons part urls inductionHypothesis =>
    have step := inductionHypothesis (s := { s with req := s.req.appendUrl part }) (holds.appendUrl part)
    rwa [List.append_assoc] at step

/-- The body, which ends the session when it is refused. -/
theorem parse_bodies (validUrl : Bytes → Bool) (cs : List HttpCallback) (holds : s.req.Holds url texts body) (isPartial : Bool) (bufs : List Bytes) :
    (∃ e t, RestServ.appendBody bufs isPartial body = .error e ∧ parse validUrl s (bufs.map .body ++ cs) = (false, t) ∧
      t.handed = s.handed) ∨
    ∃ r next pending, RestServ.appendBody bufs isPartial body = .ok (pending, next) ∧
      parse validUrl s (bufs.map .body ++ cs) = parse validUrl { s with req := r } cs ∧ r.Holds url texts next := by
  induction bufs generalizing s body isPartial with
  | nil => exact .inr ⟨s.req, body, isPartial, rfl, rfl, holds⟩
  | cons buf bufs inductionHypothesis =>
    rw [List.map_cons, List.cons_append, parse, on, onBody, HttpRequest.appendBody, holds.body, RestServ.appendBody]
    cases body.parse buf with
    | error e => exact .inl ⟨e, s, rfl, rfl, rfl⟩
    | ok result =>
      obtain ⟨complete, next⟩ := result
      have holds : HttpRequest.Holds { s.req with body := next, isPartial := !complete } url texts next := by
        refine ⟨holds.url, fun f => ?_, rfl⟩
        have header := holds.header f
        cases f <;> exact header
      have step := inductionHypothesis (s := { s with req := { s.req with body := next, isPartial := !complete } }) holds
      exact step (!complete)

/-- Between two messages nothing has come of a request, and the next part of a name is the first one. -/
structure Ready (s : HttpSess) : Prop where
  outside : s.lastHeaderElem ≠ .field
  clear : s.req = .clear

theorem ready_make : Ready make := ⟨HeaderElem.noConfusion, rfl⟩

/-- A message comes to its end with what was sent of it, unless its body is refused. -/
theorem parse_message (validUrl : Bytes → Bool) (ready : Ready s) (m : HttpMessage) :
    (∃ e t, RestServ.appendBody m.body false .reset = .error e ∧ parse validUrl s m.callbacks = (false, t) ∧
      t.handed = s.handed) ∨
    ∃ last r body pending, RestServ.appendBody m.body false .reset = .ok (pending, body) ∧
      parse validUrl s m.callbacks = onMessageEnd validUrl { s with lastHeaderElem := last, req := r } ∧ last ≠ .field ∧
      r.Holds m.url.flatten (fun f => (m.values f).flatten) body := by
  have start : s.req.Holds [] (fun f => (valuesOf f []).flatten) .reset := by
    rw [ready.clear]
    exact .clear
  simp only [HttpMessage.callbacks, List.append_assoc, List.cons_append, List.nil_append, parse, on]
  obtain ⟨r, parsed, holds⟩ := parse_urls validUrl _ start m.url
  rw [parsed]
  obtain ⟨last, r, parsed, outside, holds⟩ :=
    parse_headers validUrl _ (s := { s with req := r }) ready.outside holds m.headers
  rw [parsed]
  simp only [parse, on]
  have holds : (r.setMethod m.method).Holds ([] ++ m.url.flatten) (fun f => (valuesOf f ([] ++ m.headers)).flatten)
      .reset := by
    refine ⟨holds.url, fun f => ?_, holds.body⟩
    have header := holds.header f
    cases f <;> exact header
  have bodies := parse_bodies validUrl (m.trailers.flatMap HttpHeader.callbacks ++ [.messageEnd])
    (s := { s with lastHeaderElem := last, req := r.setMethod m.method }) holds false m.body
  rcases bodies with ⟨e, t, refused, parsed, handed⟩ | ⟨r, body, pending, read, parsed, holds⟩
  · exact .inl ⟨e, t, refused, parsed, handed⟩
  · rw [parsed]
    obtain ⟨last, r, parsed, outside, holds⟩ := parse_headers validUrl [.messageEnd]
      (s := { s with lastHeaderElem := last, req := r }) outside holds m.trailers
    refine .inr ⟨last, r, body, pending, read, ?_, outside, holds⟩
    rw [parsed, parse, on]
    cases onMessageEnd validUrl { s with lastHeaderElem := last, req := r } with
    | mk continues t => cases continues <;> rfl

theorem onMessageEnd_eq (validUrl : Bytes → Bool) (s : HttpSess) :
    onMessageEnd validUrl s =
      if validUrl s.req.url.data then (true, { s with req := .clear, handed := s.handed ++ [s.req] })
      else (false, { s with req := .clear }) := by
  rw [onMessageEnd, HttpRequest.flush]
  cases validUrl s.req.url.data <;> rfl

theorem Ready.message {t : HttpSess} (ready : Ready s) {m : HttpMessage}
    (parsed : parse validUrl s m.callbacks = (true, t)) : Ready t := by
  rcases parse_message validUrl ready m with
    ⟨e, u, -, ended, -⟩ | ⟨last, r, body, pending, -, ended, outside, -⟩
  · rw [ended] at parsed
    cases parsed
  · rw [ended, onMessageEnd_eq] at parsed
    split at parsed
    · cases parsed
      exact ⟨outside, rfl⟩
    · cases parsed

/-- A session that has taken messages is ready for another one. -/
theorem ready_of_served {ms : List HttpMessage} {t : HttpSess} (ready : Ready s)
    (served : parse validUrl s (ms.flatMap HttpMessage.callbacks) = (true, t)) : Ready t := by
  induction ms generalizing s with
  | nil =>
    cases served
    exact ready
  | cons m ms inductionHypothesis =>
    rw [List.flatMap_cons, parse_append] at served
    cases parsed : parse validUrl s m.callbacks with
    | mk continues u =>
      rw [parsed] at served
      cases continues with
      | true => exact inductionHypothesis (ready.message parsed) served
      | false => cases served

end HttpSess

/-- The request is what was sent exactly when the URL and the headers fit. -/
theorem HttpRequest.Holds.sent_iff {m : HttpMessage} {r : HttpRequest} {body : RestBody}
    (holds : r.Holds m.url.flatten (fun f => (m.values f).flatten) body) : m.Sent r ↔ m.Fits := by
  constructor
  · rintro ⟨url, header⟩
    have bounded := r.url.bounded
    rw [url] at bounded
    refine ⟨bounded, fun f => ?_⟩
    have short := (r.header f).bounded
    cases header f with
    | inl absent => simp [absent.1]
    | inr once =>
      rw [once]
      refine ⟨Nat.le_refl 1, fun v inside => ?_⟩
      rw [List.mem_singleton.mp inside]
      exact short
  · rintro ⟨url, header⟩
    refine ⟨by rw [holds.url, List.take_of_length_le url], fun f => ?_⟩
    have text := holds.header f
    obtain ⟨once, short⟩ := header f
    cases values : m.values f with
    | nil => exact .inl ⟨rfl, by rw [text, values]; rfl⟩
    | cons v vs =>
      rw [values] at once short text
      have single : vs = [] := List.eq_nil_of_length_eq_zero (by simpa using once)
      subst single
      rw [List.flatten_singleton, List.take_of_length_le (short v List.mem_cons_self)] at text
      exact .inr (by rw [text])

/-- Whatever the session hands over for the message is what was sent. -/
def HttpSess.AsSent (validUrl : Bytes → Bool) (s : HttpSess) (m : HttpMessage) : Prop :=
  ∀ r ∈ (HttpSess.parse validUrl s m.callbacks).2.handed.drop s.handed.length, m.Sent r

/-- On a session that has taken any messages before. -/
theorem HttpSess.asSent_iff (validUrl : Bytes → Bool) {earlier : List HttpMessage} {s : HttpSess}
    (served : parse validUrl make (earlier.flatMap HttpMessage.callbacks) = (true, s)) (m : HttpMessage) :
    AsSent validUrl s m ↔ m.Refused validUrl ∨ m.Fits := by
  have ready := ready_of_served ready_make served
  rw [AsSent, HttpMessage.Refused]
  rcases parse_message validUrl ready m with
    ⟨e, t, refused, ended, handed⟩ | ⟨last, r, body, pending, read, ended, -, holds⟩
  · rw [ended, handed, List.drop_length]
    exact iff_of_true (by simp) (.inl (.inl ⟨e, refused⟩))
  · rw [ended, onMessageEnd_eq, read, ← holds.url, ← holds.sent_iff]
    cases validUrl r.url.data with
    | false => simp
    | true => simp

/-- A request for the orders of an account, whose name comes in two parts. -/
def getOrders : HttpMessage where
  method := .get
  url := [bytes "/api", bytes "/sess/order"]
  headers :=
    [⟨⟨bytes "Swirly-", [bytes "Accnt"]⟩, ⟨bytes "MAR", [bytes "AYL"]⟩⟩, ⟨⟨bytes "Swirly-Perm", []⟩, ⟨bytes "2", []⟩⟩]
  body := []
  trailers := []

/-- The second message of a session. -/
theorem HttpSess.asSent_iff_second :
    ∃ s, parse (fun url => url.head? = some 47) make ([getOrders].flatMap HttpMessage.callbacks) = (true, s) ∧
      AsSent (fun url => url.head? = some 47) s getOrders := by
  have served : ∃ s, parse (fun url => url.head? = some 47) make ([getOrders].flatMap HttpMessage.callbacks) = (true, s) :=
    ⟨_, rfl⟩
  obtain ⟨s, served⟩ := served
  refine ⟨s, served, (asSent_iff _ served _).mpr (.inr ⟨by decide, fun f => ?_⟩)⟩
  cases f <;> decide

/-- A request to cancel orders, of which the last one is `1234`. -/
def longCancel : HttpMessage where
  method := .put
  url := [bytes "/api/sess/order/EURUSD/20140314/",
    (List.range 31).flatMap (fun id => bytes (toString (id + 11)) ++ bytes ","), bytes "1234"]
  headers := [⟨⟨bytes "Swirly-Accnt", []⟩, ⟨bytes "MARAYL", []⟩⟩, ⟨⟨bytes "Swirly-Perm", []⟩, ⟨bytes "2", []⟩⟩]
  body := [bytes "\x7b\"lots\":0\x7d"]
  trailers := []

/-- The last order that is handed over to be cancelled is `123`. -/
theorem HttpSess.asSent_cut :
    ¬ ∀ (validUrl : Bytes → Bool) (earlier : List HttpMessage) (s : HttpSess) (m : HttpMessage),
      parse validUrl make (earlier.flatMap HttpMessage.callbacks) = (true, s) → AsSent validUrl s m := by
  intro all
  have sent := all (fun url => url.head? = some 47) [] make longCancel rfl
  have handed : ∃ r ∈ (parse (fun url => url.head? = some 47) make longCancel.callbacks).2.handed.drop 0,
      r.url.data ≠ longCancel.url.flatten ∧ (bytes ",123").isSuffixOf r.url.data := by decide +kernel
  obtain ⟨r, inside, altered, -⟩ := handed
  exact altered (sent r inside).1

end Swirly

import Swirly.Swirlyd.Routing
import Swirly.Verified.Http.Framed

/-!
# Routing token by token

A tokeniser that is not exhausted stands at the first of the tokens that are left, so that the nested tests come to a match on
their list.  The one list that leads to ids that are none has an empty token at its end.
-/

namespace Swirly

namespace Tokeniser

/-- The tokens that are left. -/
def left (toks : Tokeniser) : List Bytes := tokens toks.delims (toks.buf.drop toks.i)

theorem tokens_cons {delims : List UInt8} {s : Bytes} (nonempty : s ≠ []) :
    tokens delims s =
      s.takeWhile (fun c => c ∉ delims) :: tokens delims (s.drop ((s.takeWhile fun c => c ∉ delims).length + 1)) := by
  induction s with
  | nil => exact absurd rfl nonempty
  | cons c cs inductionHypothesis =>
    by_cases delim : c ∈ delims
    · simp [tokens, delim]
    · cases cs with
      | nil => simp [tokens, delim]
      | cons d cs =>
        have rest := inductionHypothesis (List.cons_ne_nil d cs)
        rw [tokens, if_neg delim, rest]
        simp [delim]

theorem left_make (buf : Bytes) (delims : List UInt8) : (make buf delims).left = tokens delims buf := rfl

theorem left_of_empty {toks : Tokeniser} (exhausted : toks.empty) : toks.left = [] := by
  have last : toks.i = toks.buf.length := by simpa [empty] using exhausted
  rw [left, last, List.drop_length]
  rfl

theorem top_of_empty {toks : Tokeniser} (exhausted : toks.empty) : toks.top = [] := by
  have last : toks.i = toks.buf.length := by simpa [empty] using exhausted
  rw [top, last, List.drop_length, List.take_nil]

theorem pop_of_empty {toks : Tokeniser} (exhausted : toks.empty) : toks.pop.empty := by
  have last : toks.i = toks.buf.length := by simpa [empty] using exhausted
  have found : toks.j = toks.buf.length := by
    rw [toks.found, findFirstOf, last, List.drop_length]
    rfl
  simp [pop, found, empty]

/-- The current token comes first. -/
theorem left_of_not_empty {toks : Tokeniser} (more : ¬ toks.empty) : toks.left = toks.top :: toks.pop.left := by
  have before : toks.i ≠ toks.buf.length := by simpa [empty] using more
  have nonempty : toks.buf.drop toks.i ≠ [] := by
    rw [← List.length_pos_iff, List.length_drop]
    have inside := toks.inside
    omega
  have width : toks.j - toks.i = ((toks.buf.drop toks.i).takeWhile fun c => c ∉ toks.delims).length := by
    rw [toks.found, findFirstOf, Nat.add_sub_cancel_left]
  have token : toks.top = (toks.buf.drop toks.i).takeWhile fun c => c ∉ toks.delims := by
    rw [top, width]
    exact (List.prefix_iff_eq_take.mp (List.takeWhile_prefix _)).symm
  have delims : toks.pop.delims = toks.delims := by
    rw [pop]
    split <;> rfl
  have buf : toks.pop.buf = toks.buf := by
    rw [pop]
    split <;> rfl
  have rest : toks.pop.buf.drop toks.pop.i = toks.buf.drop (toks.j + 1) := by
    rw [buf, pop]
    split
    next => rfl
    next last =>
      -- Both positions are at the end.
      have last : toks.j = toks.buf.length := not_not.mp last
      show toks.buf.drop toks.j = _
      rw [last, List.drop_length]
      exact (List.drop_of_length_le (Nat.le_succ _)).symm
  have place : toks.i + (((toks.buf.drop toks.i).takeWhile fun c => c ∉ toks.delims).length + 1) = toks.j + 1 := by
    rw [toks.found, findFirstOf]
    omega
  rw [left, tokens_cons nonempty, List.drop_drop, place, left, delims, rest, token]

/-- A test for more tokens is a match on their list. -/
theorem fork {α : Type} {toks : Tokeniser} (f : List Bytes → α) {a b : α} (none_ : f [] = a)
    (some_ : f (toks.top :: toks.pop.left) = b) : f toks.left = if toks.empty then a else b := by
  split
  next exhausted => rw [left_of_empty exhausted, none_]
  next more => rw [left_of_not_empty more, some_]

end Tokeniser

namespace Routing

open RestServ Tokeniser

variable (toks : Tokeniser)

theorem symbolRequest_left (get : Option Symbol → Route) : RestServ.symbolRequest get toks.left = symbolRequest get toks := by
  apply fork (RestServ.symbolRequest get) rfl
  apply fork (fun left => RestServ.symbolRequest get (toks.top :: left)) rfl
  rfl

theorem marketRequest_left : RestServ.marketRequest toks.left = marketRequest toks := by
  apply fork RestServ.marketRequest rfl
  apply fork (fun left => RestServ.marketRequest (toks.top :: left)) rfl
  apply fork (fun left => RestServ.marketRequest (toks.top :: toks.pop.top :: left)) rfl
  rfl

theorem orderRequest_left : RestServ.orderPaths toks.left = orderRequest toks := by
  apply fork RestServ.orderPaths rfl
  apply fork (fun left => RestServ.orderPaths (toks.top :: left)) rfl
  apply fork (fun left => RestServ.orderPaths (toks.top :: toks.pop.top :: left)) rfl
  apply fork (fun left => RestServ.orderPaths (toks.top :: toks.pop.top :: toks.pop.pop.top :: left)) rfl
  rfl

theorem execRequest_left : RestServ.execRequest toks.left = execRequest toks :=
  fork RestServ.execRequest rfl rfl

theorem tradeRequest_left : RestServ.tradeRequest toks.left = tradeRequest toks := by
  apply fork RestServ.tradeRequest rfl
  apply fork (fun left => RestServ.tradeRequest (toks.top :: left)) rfl
  apply fork (fun left => RestServ.tradeRequest (toks.top :: toks.pop.top :: left)) rfl
  apply fork (fun left => RestServ.tradeRequest (toks.top :: toks.pop.top :: toks.pop.pop.top :: left)) rfl
  rfl

theorem posnRequest_left : RestServ.posnRequest toks.left = posnRequest toks := by
  apply fork RestServ.posnRequest rfl
  apply fork (fun left => RestServ.posnRequest (toks.top :: left)) rfl
  apply fork (fun left => RestServ.posnRequest (toks.top :: toks.pop.top :: left)) rfl
  rfl

/-- A path of several entities ends after them. -/
theorem many_left (methods : Methods) :
    (if toks.left = [] then some methods else none) = if toks.empty then some methods else none :=
  fork (fun left => if left = [] then some methods else none) rfl (if_neg (List.cons_ne_nil _ _))

theorem refDataRequest_left : RestServ.refDataRequest toks.left = refDataRequest toks := by
  apply fork RestServ.refDataRequest rfl
  cases parsed : EntitySet.parse toks.top with
  | error e => simp only [RestServ.refDataRequest, parsed]
  | ok es =>
    -- No entity, one of them, or several.
    rcases es with _ | ⟨e, _ | ⟨e', es⟩⟩
    · simp [RestServ.refDataRequest, parsed, EntitySet.many]
    · cases e <;> simp [RestServ.refDataRequest, parsed, EntitySet.many, RestServ.assetRequest, RestServ.instrRequest,
        symbolRequest_left, assetRequest, instrRequest]
    · simp [RestServ.refDataRequest, parsed, EntitySet.many, many_left]

theorem sessRequest_left : RestServ.sessRequest toks.left = sessRequest toks := by
  apply fork RestServ.sessRequest rfl
  cases parsed : EntitySet.parse toks.top with
  | error e => simp only [RestServ.sessRequest, parsed]
  | ok es =>
    rcases es with _ | ⟨e, _ | ⟨e', es⟩⟩
    · simp [RestServ.sessRequest, parsed, EntitySet.many]
    · cases e <;> simp [RestServ.sessRequest, parsed, EntitySet.many, marketRequest_left, orderRequest_left, execRequest_left,
        tradeRequest_left, posnRequest_left]
    · simp [RestServ.sessRequest, parsed, EntitySet.many, many_left]

/-- The nested tests come to a match on the tokens. -/
theorem restRequest_left : RestServ.restRequest toks.left = restRequest toks := by
  apply fork RestServ.restRequest rfl
  simp only
  by_cases api : toks.top = bytes "api"
  · rw [if_neg (not_not.mpr api), ← refDataRequest_left, ← sessRequest_left, ← marketRequest_left]
    cases exhausted : toks.pop.empty with
    | true =>
      -- The second token is empty, so that it is none of the names.
      rw [left_of_empty exhausted, top_of_empty exhausted, left_of_empty (pop_of_empty exhausted)]
      rfl
    | false =>
      rw [left_of_not_empty (by simp [exhausted]), RestServ.restRequest, if_neg (not_not.mpr api)]
  · rw [if_pos api]
    cases toks.pop.left with
    | nil => rfl
    | cons tok left => rw [RestServ.restRequest, if_pos api]

/-! ## Ids -/

/-- None of the methods has ids as an argument. -/
def Plain (methods : Methods) : Prop := ∀ m ∈ methods, indexed m.2 = none

/-- The first id is an argument of `GET`, and of no other method. -/
def Indexes (ids : List Int) (methods : Methods) : Prop :=
  ∃ route other, methods = [(.get, route), other] ∧ indexed route = some ids ∧ indexed other.2 = none

/-- The path of orders or trades by their ids. -/
def OfIds (left : List Bytes) (tok : Bytes) : Prop :=
  ∃ kind instr date, left = [bytes "api", bytes "sess", kind, instr, date, tok] ∧
    (EntitySet.parse kind = .ok [.order] ∨ EntitySet.parse kind = .ok [.trade])

variable {left : List Bytes} {methods : Methods} {tok : Bytes}

theorem plain_nil : Plain [] := List.forall_mem_nil _

theorem plain_cons {m : HttpMethod × Route} (first : indexed m.2 = none) (rest : Plain methods) : Plain (m :: methods) :=
  List.forall_mem_cons.mpr ⟨first, rest⟩

theorem marketRequest_plain (found : RestServ.marketRequest left = some methods) : Plain methods := by
  rw [RestServ.marketRequest.eq_def] at found
  split at found <;> cases found
  · exact plain_cons rfl (plain_cons rfl plain_nil)
  · exact plain_cons rfl (plain_cons rfl plain_nil)
  · exact plain_cons rfl (plain_cons rfl (plain_cons rfl plain_nil))

theorem posnRequest_plain (found : RestServ.posnRequest left = some methods) : Plain methods := by
  rw [RestServ.posnRequest.eq_def] at found
  split at found <;> cases found
  all_goals exact plain_cons rfl plain_nil

theorem execRequest_plain (found : RestServ.execRequest left = some methods) : Plain methods := by
  rw [RestServ.execRequest.eq_def] at found
  split at found <;> cases found
  exact plain_cons rfl plain_nil

theorem orderPaths_cases (found : RestServ.orderPaths left = some methods) :
    Plain methods ∨ ∃ instr date tok, left = [instr, date, tok] ∧ Indexes (scopedIds tok) methods := by
  rw [RestServ.orderPaths.eq_def] at found
  split at found <;> cases found
  · exact .inl (plain_cons rfl (plain_cons rfl plain_nil))
  · exact .inl (plain_cons rfl (plain_cons rfl plain_nil))
  · exact .inl (plain_cons rfl (plain_cons rfl plain_nil))
  · exact .inr ⟨_, _, _, rfl, _, _, rfl, rfl, rfl⟩

theorem tradeRequest_cases (found : RestServ.tradeRequest left = some methods) :
    Plain methods ∨ ∃ instr date tok, left = [instr, date, tok] ∧ Indexes (scopedIds tok) methods := by
  rw [RestServ.tradeRequest.eq_def] at found
  split at found <;> cases found
  · exact .inl (plain_cons rfl (plain_cons rfl plain_nil))
  · exact .inl (plain_cons rfl (plain_cons rfl plain_nil))
  · exact .inl (plain_cons rfl (plain_cons rfl plain_nil))
  · exact .inr ⟨_, _, _, rfl, _, _, rfl, rfl, rfl⟩

theorem symbolRequest_plain {get : Option Symbol → Route} (plain : ∀ symbol, indexed (get symbol) = none)
    (found : RestServ.symbolRequest get left = some methods) : Plain methods := by
  rw [RestServ.symbolRequest.eq_def] at found
  split at found <;> cases found
  all_goals exact plain_cons (plain _) plain_nil

theorem refDataRequest_plain (found : RestServ.refDataRequest left = .ok (some methods)) : Plain methods := by
  cases left with
  | nil =>
    cases found
    exact plain_cons rfl plain_nil
  | cons tok left =>
    rw [RestServ.refDataRequest] at found
    split at found
    next => cases found
    next =>
      split at found
      next =>
        have found := Except.ok.inj found
        split at found <;> cases found
        exact plain_cons rfl plain_nil
      next =>
        split at found
        next => exact symbolRequest_plain (fun _ => rfl) (Except.ok.inj found)
        next => exact symbolRequest_plain (fun _ => rfl) (Except.ok.inj found)
        next => cases found

theorem sessRequest_cases (found : RestServ.sessRequest left = .ok (some methods)) :
    Plain methods ∨ ∃ kind instr date tok, left = [kind, instr, date, tok] ∧
      (EntitySet.parse kind = .ok [.order] ∨ EntitySet.parse kind = .ok [.trade]) ∧ Indexes (scopedIds tok) methods := by
  cases left with
  | nil =>
    cases found
    exact .inl (plain_cons rfl plain_nil)
  | cons kind left =>
    rw [RestServ.sessRequest] at found
    split at found
    next => cases found
    next es parsed =>
      split at found
      next =>
        have found := Except.ok.inj found
        split at found <;> cases found
        exact .inl (plain_cons rfl plain_nil)
      next =>
        split at found
        next => exact .inl (marketRequest_plain (Except.ok.inj found))
        next =>
          obtain plain | ⟨instr, date, tok, rfl, indexes⟩ := orderPaths_cases (Except.ok.inj found)
          · exact .inl plain
          · exact .inr ⟨kind, instr, date, tok, rfl, .inl parsed, indexes⟩
        next => exact .inl (execRequest_plain (Except.ok.inj found))
        next =>
          obtain plain | ⟨instr, date, tok, rfl, indexes⟩ := tradeRequest_cases (Except.ok.inj found)
          · exact .inl plain
          · exact .inr ⟨kind, instr, date, tok, rfl, .inr parsed, indexes⟩
        next => exact .inl (posnRequest_plain (Except.ok.inj found))
        next => cases found

theorem restRequest_cases (found : RestServ.restRequest left = .ok (some methods)) :
    Plain methods ∨ ∃ tok, OfIds left tok ∧ Indexes (scopedIds tok) methods := by
  rw [RestServ.restRequest.eq_def] at found
  split at found
  next api tok left =>
    split at found
    next => cases found
    next named =>
      have api := not_not.mp named
      split at found
      next => exact .inl (refDataRequest_plain found)
      next =>
        split at found
        next sess =>
          obtain plain | ⟨kind, instr, date, tok, rfl, parsed, indexes⟩ := sessRequest_cases found
          · exact .inl plain
          · exact .inr ⟨tok, ⟨kind, instr, date, by rw [api, sess], parsed⟩, indexes⟩
        next =>
          split at found
          next => exact .inl (marketRequest_plain (Except.ok.inj found))
          next => cases found
  next => cases found

theorem restRequest_ofIds (named : OfIds left tok) :
    ∃ methods, RestServ.restRequest left = .ok (some methods) ∧ Indexes (scopedIds tok) methods := by
  obtain ⟨kind, instr, date, rfl, parsed⟩ := named
  have notRefdata : ¬ bytes "sess" = bytes "refdata" := by decide +kernel
  rw [RestServ.restRequest, if_neg (not_not.mpr rfl), if_neg notRefdata, if_pos rfl, RestServ.sessRequest]
  obtain parsed | parsed := parsed
  · rw [parsed]
    exact ⟨_, rfl, _, _, rfl, rfl, rfl⟩
  · rw [parsed]
    exact ⟨_, rfl, _, _, rfl, rfl, rfl⟩

/-- A segment has ids unless it is empty. -/
theorem scopedIds_eq_nil (tok : Bytes) : scopedIds tok = [] ↔ tok = [] := by
  constructor
  · intro none_
    by_contra nonempty
    rw [scopedIds, tokens_cons nonempty] at none_
    cases none_
  · rintro rfl
    rfl

end Routing

end Swirly

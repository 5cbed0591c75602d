import Mathlib

/-!
# Agendas

An agenda is a set of alarms that wait and a set of alarms that ring.  In a round at some time the alarms whose time has
come ring one after another, the earliest first.  Meanwhile alarms may be cancelled, and alarms for a later time may be
added.  What a round has done is read off its log.
-/

universe u v w

structure Agenda (α : Type u) where
  waiting : Set α
  ringing : Set α

namespace Agenda

inductive Note (α : Type u) (ι : Type v) where
  | rang (x : α)
  | cancelled (id : ι)

variable {α : Type u} {ι : Type v} {κ : Type w}

/-- The alarms that rang, in order. -/
def rung (log : List (Note α ι)) : List α :=
  log.filterMap fun
    | .rang x => some x
    | .cancelled _ => none

/-- The alarm was cancelled before it rang. -/
def CancelledFirst (id : α → ι) (log : List (Note α ι)) (x : α) : Prop :=
  ∃ before after, log = before ++ .cancelled (id x) :: after ∧ x ∉ rung before

variable [LinearOrder κ] (id : α → ι) (time : α → κ) (next : α → Option α) (now : κ)

/-- A step of a round.  The alarm `next x` takes the place of `x` once `x` has rung. -/
inductive Step (a : Agenda α) : List (Note α ι) → Agenda α → Prop
  | keep : Step a [] a
  | add {x : α} (later : now < time x) : Step a [] ⟨insert x a.waiting, a.ringing⟩
  | cancel {x : α} (known : x ∈ a.waiting ∪ a.ringing) :
    Step a [.cancelled (id x)] ⟨a.waiting \ {x}, a.ringing \ {x}⟩
  | ring {x : α} (waits : x ∈ a.waiting) (due : time x ≤ now) (first : ∀ y ∈ a.waiting, time x ≤ time y) :
    Step a [.rang x] ⟨a.waiting \ {x}, insert x a.ringing⟩
  | repeat_ {x y : α} (rings : x ∈ a.ringing) (again : next x = some y) :
    Step a [] ⟨insert y a.waiting, a.ringing \ {x}⟩
  | close {x : α} (rings : x ∈ a.ringing) (last : next x = none) : Step a [] ⟨a.waiting, a.ringing \ {x}⟩

/-- What the steps of a round have done to the alarms that waited at its start. -/
structure Round (start : Set α) (log : List (Note α ι)) (a : Agenda α) : Prop where
  left : ∀ x ∈ a.waiting, time x ≤ now → x ∈ start ∧ x ∉ rung log
  settled : ∀ x ∈ start, time x ≤ now → x ∈ a.waiting ∨ x ∈ rung log ∨ CancelledFirst id log x
  due : ∀ x ∈ rung log, x ∈ start ∧ time x ≤ now ∧ ¬CancelledFirst id log x
  sorted : (rung log).Pairwise fun x y => time x ≤ time y
  upTo : ∀ x ∈ rung log, ∀ y ∈ a.waiting, time x ≤ time y
  nodup : (rung log).Nodup
  repeated : ∀ x ∈ rung log, x ∈ a.ringing ∨ .cancelled (id x) ∈ log ∨ ∀ y, next x = some y → y ∈ a.waiting

variable {id : α → ι} {time : α → κ} {next : α → Option α} {now : κ} {start : Set α} {log more : List (Note α ι)}
  {a a' : Agenda α} {x y : α}

/-! ## The log -/

theorem rung_append : rung (log ++ more) = rung log ++ rung more := List.filterMap_append

theorem rung_cancelled (i : ι) : rung (log ++ [.cancelled i]) = rung log := by simp [rung]

theorem rung_rang : rung (log ++ [.rang x]) = rung log ++ [x] := by simp [rung]

theorem CancelledFirst.append (first : CancelledFirst id log x) : CancelledFirst id (log ++ more) x := by
  obtain ⟨before, after, rfl, notRung⟩ := first
  exact ⟨before, after ++ more, by rw [List.append_assoc, List.cons_append], notRung⟩

theorem CancelledFirst.snoc (notRung : x ∉ rung log) : CancelledFirst id (log ++ [.cancelled (id x)]) x :=
  ⟨log, [], rfl, notRung⟩

/-- What comes after an alarm has rung does not cancel it first. -/
theorem CancelledFirst.of_append (first : CancelledFirst id (log ++ more) x) (rang : x ∈ rung log) :
    CancelledFirst id log x := by
  obtain ⟨before, after, split, notRung⟩ := first
  cases List.append_eq_append_iff.mp split with
  | inl longer =>
    obtain ⟨between, rfl, -⟩ := longer
    rw [rung_append] at notRung
    exact absurd (List.mem_append_left _ rang) notRung
  | inr shorter =>
    obtain ⟨between, rfl, rest⟩ := shorter
    cases between with
    | nil =>
      rw [List.append_nil] at rang
      exact absurd rang notRung
    | cons note between =>
      obtain rfl : note = .cancelled (id x) := (List.cons.inj rest).1.symm
      exact ⟨before, between, rfl, notRung⟩

theorem CancelledFirst.mem (first : CancelledFirst id log x) : .cancelled (id x) ∈ log := by
  obtain ⟨before, after, rfl, -⟩ := first
  exact List.mem_append_right _ List.mem_cons_self

/-! ## Rounds -/

theorem Round.begin : Round id time next now a.waiting [] a := by
  constructor
  · exact fun x waits _ => ⟨waits, List.not_mem_nil⟩
  · exact fun x waits _ => .inl waits
  · exact fun x rang => absurd rang List.not_mem_nil
  · exact .nil
  · exact fun x rang => absurd rang List.not_mem_nil
  · exact List.nodup_nil
  · exact fun x rang => absurd rang List.not_mem_nil

section

variable (later : ∀ x y, next x = some y → now < time y) (sameId : ∀ x y, next x = some y → id y = id x)

include later in
theorem Round.repeat_ (round : Round id time next now start log a) (again : next x = some y) :
    Round id time next now start log ⟨insert y a.waiting, a.ringing \ {x}⟩ := by
  have late := later x y again
  constructor
  · intro z waits due
    cases waits with
    | inl same => exact absurd (same ▸ due) (not_le.mpr late)
    | inr waits => exact round.left z waits due
  · intro z began due
    exact (round.settled z began due).imp_left (Set.mem_insert_of_mem y)
  · exact round.due
  · exact round.sorted
  · intro z rang w waits
    cases waits with
    | inl same => exact same ▸ ((round.due z rang).2.1.trans late.le)
    | inr waits => exact round.upTo z rang w waits
  · exact round.nodup
  · intro z rang
    by_cases here : z = x
    · refine .inr (.inr fun w isNext => ?_)
      obtain rfl : y = w := Option.some.inj (again.symm.trans (here ▸ isNext))
      exact Set.mem_insert _ _
    · cases round.repeated z rang with
      | inl rings => exact .inl ⟨rings, here⟩
      | inr either => exact .inr (either.imp_right fun waits w isNext => Set.mem_insert_of_mem y (waits w isNext))

theorem Round.close (round : Round id time next now start log a) (last : next x = none) :
    Round id time next now start log ⟨a.waiting, a.ringing \ {x}⟩ := by
  refine ⟨round.left, round.settled, round.due, round.sorted, round.upTo, round.nodup, fun z rang => ?_⟩
  by_cases here : z = x
  · exact .inr (.inr fun w isNext => by simp [here, last] at isNext)
  · exact (round.repeated z rang).imp_left fun rings => ⟨rings, here⟩

theorem Round.add (round : Round id time next now start log a) (late : now < time x) :
    Round id time next now start log ⟨insert x a.waiting, a.ringing⟩ := by
  constructor
  · intro z waits due
    cases waits with
    | inl same => exact absurd (same ▸ due) (not_le.mpr late)
    | inr waits => exact round.left z waits due
  · intro z began due
    exact (round.settled z began due).imp_left (Set.mem_insert_of_mem x)
  · exact round.due
  · exact round.sorted
  · intro z rang w waits
    cases waits with
    | inl same => exact same ▸ ((round.due z rang).2.1.trans late.le)
    | inr waits => exact round.upTo z rang w waits
  · exact round.nodup
  · intro z rang
    exact (round.repeated z rang).imp_right fun either =>
      either.imp_right fun waits w isNext => Set.mem_insert_of_mem x (waits w isNext)

include sameId in
theorem Round.cancel (round : Round id time next now start log a) :
    Round id time next now start (log ++ [.cancelled (id x)]) ⟨a.waiting \ {x}, a.ringing \ {x}⟩ := by
  have same : rung (log ++ [.cancelled (id x)]) = rung log := rung_cancelled (id x)
  constructor
  · intro z waits due
    rw [same]
    exact round.left z waits.1 due
  · intro z began due
    rw [same]
    by_cases rang : z ∈ rung log
    · exact .inr (.inl rang)
    · by_cases here : z = x
      · exact .inr (.inr (here ▸ CancelledFirst.snoc (here ▸ rang)))
      · cases round.settled z began due with
        | inl waits => exact .inl ⟨waits, here⟩
        | inr either => exact .inr (either.imp_right CancelledFirst.append)
  · intro z rang
    rw [same] at rang
    obtain ⟨began, due, notFirst⟩ := round.due z rang
    exact ⟨began, due, fun first => notFirst (first.of_append rang)⟩
  · rw [same]
    exact round.sorted
  · intro z rang w waits
    rw [same] at rang
    exact round.upTo z rang w waits.1
  · rw [same]
    exact round.nodup
  · intro z rang
    rw [same] at rang
    cases round.repeated z rang with
    | inl rings =>
      by_cases here : z = x
      · exact .inr (.inl (List.mem_append_right _ (here ▸ List.mem_cons_self)))
      · exact .inl ⟨rings, here⟩
    | inr either =>
      cases either with
      | inl cancelled => exact .inr (.inl (List.mem_append_left _ cancelled))
      | inr waits =>
        cases isNext : next z with
        | none => exact .inr (.inr fun w other => by cases other)
        | some w =>
          by_cases here : w = x
          · -- The alarm that has taken the place of `z` is cancelled, under the same id.
            have ids : id x = id z := here ▸ sameId z w isNext
            exact .inr (.inl (List.mem_append_right _ (ids ▸ List.mem_cons_self)))
          · refine .inr (.inr fun v other => ?_)
            obtain rfl : w = v := Option.some.inj other
            exact ⟨waits w isNext, here⟩

include later in
theorem Round.ring (round : Round id time next now start log a) (waits : x ∈ a.waiting) (due : time x ≤ now)
    (first : ∀ y ∈ a.waiting, time x ≤ time y) (live : .cancelled (id x) ∉ log) :
    Round id time next now start (log ++ [.rang x]) ⟨a.waiting \ {x}, insert x a.ringing⟩ := by
  have same : rung (log ++ [.rang x]) = rung log ++ [x] := rung_rang
  have cases_ : ∀ z, z ∈ rung (log ++ [.rang x]) → z ∈ rung log ∨ z = x := fun z rang => by
    rw [same, List.mem_append, List.mem_singleton] at rang
    exact rang
  obtain ⟨began, notRung⟩ := round.left x waits due
  constructor
  · intro z waitsZ dueZ
    obtain ⟨beganZ, notRungZ⟩ := round.left z waitsZ.1 dueZ
    exact ⟨beganZ, fun rang => (cases_ z rang).elim notRungZ waitsZ.2⟩
  · intro z beganZ dueZ
    rw [same]
    by_cases here : z = x
    · exact .inr (.inl (List.mem_append_right _ (here ▸ List.mem_cons_self)))
    · cases round.settled z beganZ dueZ with
      | inl waitsZ => exact .inl ⟨waitsZ, here⟩
      | inr either => exact .inr (either.imp (List.mem_append_left _) CancelledFirst.append)
  · intro z rang
    cases cases_ z rang with
    | inl before =>
      obtain ⟨beganZ, dueZ, notFirst⟩ := round.due z before
      exact ⟨beganZ, dueZ, fun first => notFirst (first.of_append before)⟩
    | inr here =>
      rw [here]
      refine ⟨began, due, fun cancelled => live ?_⟩
      cases List.mem_append.mp cancelled.mem with
      | inl before => exact before
      | inr last => cases List.mem_singleton.mp last
  · rw [same, List.pairwise_append]
    refine ⟨round.sorted, List.pairwise_singleton _ _, fun z before w last => ?_⟩
    rw [List.mem_singleton.mp last]
    exact round.upTo z before x waits
  · intro z rang w waitsW
    cases cases_ z rang with
    | inl before => exact round.upTo z before w waitsW.1
    | inr here => exact here ▸ first w waitsW.1
  · rw [same]
    exact List.nodup_append.mpr ⟨round.nodup, List.nodup_singleton x, fun z before w last isSame =>
      notRung (List.mem_singleton.mp last ▸ isSame ▸ before)⟩
  · intro z rang
    by_cases here : z = x
    · exact .inl (.inl here)
    · have before : z ∈ rung log := (cases_ z rang).resolve_right here
      cases round.repeated z before with
      | inl rings => exact .inl (Set.mem_insert_of_mem x rings)
      | inr either =>
        cases either with
        | inl cancelled => exact .inr (.inl (List.mem_append_left _ cancelled))
        | inr again =>
          refine .inr (.inr fun w isNext => ⟨again w isNext, fun isX => ?_⟩)
          -- The alarm that rings is due, and one that has taken a place is not.
          exact absurd (isX ▸ due) (not_le.mpr (later z w isNext))

include later sameId in
/-- One step of a round. -/
theorem Round.step (round : Round id time next now start log a) (step : Step id time next now a more a')
    (live : ∀ x, .rang x ∈ more → .cancelled (id x) ∉ log) : Round id time next now start (log ++ more) a' := by
  cases step with
  | keep =>
    rw [List.append_nil]
    exact round
  | add late =>
    rw [List.append_nil]
    exact round.add late
  | cancel known => exact round.cancel sameId
  | ring waits due first => exact round.ring later waits due first (live _ List.mem_cons_self)
  | repeat_ rings again =>
    rw [List.append_nil]
    exact round.repeat_ later again
  | close rings last =>
    rw [List.append_nil]
    exact round.close last

end

/-- At the end of a round. -/
theorem Round.finished (round : Round id time next now start log a) (none_ : ∀ x ∈ a.waiting, now < time x) :
    x ∈ rung log ↔ x ∈ start ∧ time x ≤ now ∧ ¬CancelledFirst id log x := by
  constructor
  · exact round.due x
  · intro all
    obtain ⟨began, due, notFirst⟩ := all
    cases round.settled x began due with
    | inl waits => exact absurd due (not_le.mpr (none_ x waits))
    | inr either => exact either.resolve_right notFirst

end Agenda

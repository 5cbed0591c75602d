import Swirly.Fin.Date

/-!
# The cache of business days

The calls of a `BusinessDay` are lookups in a cache with a slot for even and one for odd seconds.  The entry for even seconds
starts with the second zero and the day zero, so it answers for the epoch until an even second has been computed.
-/

namespace Swirly

namespace BusinessDay

theorem call_eq_look (busDay : BusinessDay) (time : Int) : busDay.call time =
    ((Memo.look lowBit busDay.zone busDay.cache (toTimeT time)).1,
      { busDay with cache := (Memo.look lowBit busDay.zone busDay.cache (toTimeT time)).2 }) := by
  rw [call, Memo.look]
  split_ifs <;> rfl

theorem calls_eq_answers (busDay : BusinessDay) (times : List Int) :
    busDay.calls times = Memo.answers lowBit busDay.zone busDay.cache (times.map toTimeT) := by
  induction times generalizing busDay with
  | nil => rfl
  | cons time times inductionHypothesis =>
    rw [calls, List.map_cons, Memo.answers, inductionHypothesis, call_eq_look]

/-- Each call gives the day of its time in the zone, unless the first of the even seconds is that of the epoch. -/
theorem calls_eq_iff (zone : Int → Int) (times : List Int) :
    (make zone).calls times = times.map (fun time => zone (toTimeT time)) ↔
      (times.map toTimeT).find? (fun t => decide (t % 2 = 0)) ≠ some 0 ∨ zone 0 = 0 := by
  have zero (k : Int) : Memo.Right lowBit zone (make zone).cache k ↔ k ≠ 0 ∨ zone 0 = 0 := by
    rw [Memo.Right, make]
    constructor
    · intro right
      by_cases epoch : k = 0
      · subst epoch
        exact .inr (right rfl).symm
      · exact .inl epoch
    · rintro (other | day) hit
      · exact absurd hit.symm other
      · have epoch : 0 = k := hit
        subst epoch
        exact day.symm
  have even : (fun t => decide (lowBit t = lowBit 0)) = fun t => decide (t % 2 = 0) := by
    funext t
    have bits : t % 2 = 0 ∨ t % 2 = 1 := by omega
    obtain even | odd := bits
    · simp [lowBit, even]
    · simp [lowBit, odd]
  have map : times.map (fun time => zone (toTimeT time)) = (times.map toTimeT).map zone := by
    rw [List.map_map]
    rfl
  rw [calls_eq_answers, map, show (make zone).zone = zone from rfl, Memo.answers_eq_iff]
  constructor
  · intro right
    by_cases first : (times.map toTimeT).find? (fun t => decide (t % 2 = 0)) = some 0
    · rw [← even] at first
      -- The first even second is that of the epoch, for which the entry of the new object is taken.
      exact .inr (((zero 0).mp (right 0 first)).resolve_left fun other => other rfl)
    · exact .inl first
  · rintro (first | day) k found
    · rw [zero]
      left
      rintro rfl
      rw [even] at found
      exact first found
    · exact (zero k).mpr (.inr day)

/-- The first call is for the epoch, and its day is not the day zero. -/
theorem epoch_day_wrong : ¬ ∀ (zone : Int → Int) (times : List Int),
    (make zone).calls times = times.map fun time => zone (toTimeT time) := by
  intro transparent
  have wrong := transparent (fun t => 2440588 + t / 86400) [0]
  revert wrong
  decide

end BusinessDay

end Swirly

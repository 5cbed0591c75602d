import Mathlib

/-!
# Lists linked through their elements

`Linked next head ps` says that the chain of links from `head` goes through the elements `ps` and ends.  An element whose
link is not stored has no next.
-/

universe u

variable {α : Type u}

inductive Linked (next : α → Option (Option α)) : Option α → List α → Prop
  | nil : Linked next none []
  | cons {p : α} {rest : Option α} {ps : List α} (link : next p = some rest) (tail : Linked next rest ps) :
    Linked next (some p) (p :: ps)

namespace Linked

variable {next next' : α → Option (Option α)} {head rest : Option α} {p : α} {ps qs : List α}

/-- The chain depends on the links of its own elements only. -/
theorem congr (linked : Linked next head ps) (same : ∀ p ∈ ps, next' p = next p) : Linked next' head ps := by
  induction linked with
  | nil => exact nil
  | @cons p rest ps link tail inductionHypothesis =>
    apply cons ((same p List.mem_cons_self).trans link)
    exact inductionHypothesis fun q member => same q (List.mem_cons_of_mem p member)

theorem of_some (linked : Linked next (some p) ps) : ∃ rest tail, next p = some rest ∧ ps = p :: tail ∧ Linked next rest tail := by
  cases linked with
  | cons link tail => exact ⟨_, _, link, rfl, tail⟩

theorem of_none (linked : Linked next none ps) : ps = [] := by
  cases linked with
  | nil => rfl

/-- There is one chain from a head. -/
theorem unique (first : Linked next head ps) (second : Linked next head qs) : ps = qs := by
  induction first generalizing qs with
  | nil => exact second.of_none.symm
  | @cons p rest ps link tail inductionHypothesis =>
    obtain ⟨other, others, linkOther, rfl, tailOther⟩ := second.of_some
    obtain rfl : rest = other := Option.some.inj (link.symm.trans linkOther)
    rw [inductionHypothesis tailOther]

end Linked

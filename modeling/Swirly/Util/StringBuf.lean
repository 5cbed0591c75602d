import Swirly.Fin.Types

/-!
# String buffers

`append` of `util/StringBuf.hpp`.  What does not fit is left out.
-/

namespace Swirly

namespace StringBuf

variable {n : Nat}

def empty : StringBuf n := ⟨[], Nat.zero_le n⟩

def append (b : StringBuf n) (s : Bytes) : StringBuf n where
  data := b.data ++ s.take (n - b.data.length)
  bounded := by
    have bounded := b.bounded
    have taken := List.length_take_le (n - b.data.length) s
    rw [List.length_append]
    omega

/-- A buffer has the first bytes of all that came to it. -/
theorem data_append {b : StringBuf n} {before : Bytes} (data : b.data = before.take n) (s : Bytes) :
    (b.append s).data = (before ++ s).take n := by
  have append : (b.append s).data = b.data ++ s.take (n - b.data.length) := rfl
  rw [append, data, List.take_append, List.length_take]
  congr 2
  omega

theorem data_foldl_append {b : StringBuf n} {before : Bytes} (data : b.data = before.take n) (ss : List Bytes) :
    (ss.foldl append b).data = (before ++ ss.flatten).take n := by
  induction ss generalizing b before with
  | nil => rw [List.foldl_nil, List.flatten_nil, List.append_nil, data]
  | cons s ss inductionHypothesis =>
    rw [List.foldl_cons, List.flatten_cons, ← List.append_assoc]
    exact inductionHypothesis (data_append data s)

end StringBuf

end Swirly

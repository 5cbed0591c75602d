import Swirly.Fix.Stream
import Swirly.Verified.Fix.Buffer
import Swirly.Verified.Fix.Frame

/-!
# Composing a message

Whatever the writes, the bytes composed so far follow the committed ones, and the running sum is theirs modulo 256.  At the
commit the length replaces the placeholder, as long as it has no more digits than that.
-/

namespace Swirly

/-- The sum of bytes, as unsigned numbers. -/
def sumBytes (s : Bytes) : Nat := (s.map UInt8.toNat).sum

@[simp] theorem sumBytes_append (s t : Bytes) : sumBytes (s ++ t) = sumBytes s + sumBytes t := by simp [sumBytes]

theorem sizeT_mod (n : Nat) : sizeT n % 256 = n % 256 := Nat.mod_mod_of_dvd n (by decide)

/-- A `char` counts as its byte. -/
theorem add_charValue_mod (sum : Nat) (c : UInt8) : (((sum : Int) + charValue c) % 2 ^ 64).toNat % 256 = (sum + c.toNat) % 256 := by
  have small := c.toNat_lt
  rw [charValue]
  split
  next => omega
  next large =>
    have high : 128 ≤ c.toNat := by simpa [UInt8.le_iff_toNat_le] using large
    omega

theorem foldl_charValue_mod (s : Bytes) (sum : Nat) :
    (s.foldl (fun sum c => (((sum : Int) + charValue c) % 2 ^ 64).toNat) sum) % 256 = (sum + sumBytes s) % 256 := by
  induction s generalizing sum with
  | nil => simp [sumBytes]
  | cons c s inductionHypothesis =>
    rw [List.foldl_cons, inductionHypothesis, Nat.add_mod, add_charValue_mod, ← Nat.add_mod, Nat.add_assoc]
    simp [sumBytes]

/-- The last `k` digits of a number. -/
def digitsOf : Nat → Nat → List (Fin 10)
  | 0, _ => []
  | k + 1, n => digitsOf k (n / 10) ++ [Fin.ofNat 10 n]

theorem length_digitsOf (k n : Nat) : (digitsOf k n).length = k := by
  induction k generalizing n with
  | zero => rfl
  | succ k inductionHypothesis => rw [digitsOf, List.length_append, inductionHypothesis, List.length_singleton]

theorem ofDigits_digitsOf {k n : Nat} (fits : n < 10 ^ k) : ofDigits 0 (digitsOf k n) = n := by
  induction k generalizing n with
  | zero =>
    rw [Nat.pow_zero] at fits
    rw [digitsOf, ofDigits, List.foldl_nil]
    omega
  | succ k inductionHypothesis =>
    have next : n / 10 < 10 ^ k := by
      rw [Nat.pow_succ] at fits
      omega
    have before := inductionHypothesis next
    rw [ofDigits] at before
    rw [digitsOf, ofDigits, List.foldl_append, before, List.foldl_cons, List.foldl_nil, Fin.val_ofNat]
    omega

theorem digitsOf_zero (k : Nat) : (digitsOf k 0).map digitChar = List.replicate k 48 := by
  induction k with
  | zero => rfl
  | succ k inductionHypothesis =>
    rw [digitsOf, List.map_append, Nat.zero_div, inductionHypothesis, List.replicate_succ']
    rfl

theorem digitChar_ofNat (n : Nat) : digitChar (Fin.ofNat 10 n) = UInt8.ofNat (48 + n % 10) := rfl

theorem sumBytes_digit (n : Nat) : sumBytes [digitChar (Fin.ofNat 10 n)] = 48 + n % 10 := by
  simp [sumBytes, toNat_digitChar]

namespace FixBuf

variable {b : Buffer} {fb t : FixBuf} {out s before after : Bytes} {k n it : Nat}

/-- The bytes composed so far follow the committed ones. -/
structure Holds (b : Buffer) (out : Bytes) (fb : FixBuf) : Prop where
  rpos : fb.buf.rpos = b.rpos
  wpos : fb.buf.wpos = b.wpos
  content : fb.buf.buf.take (b.wpos + out.length) = b.buf.take b.wpos ++ out
  inside : b.wpos + out.length ≤ fb.buf.buf.length
  pcount : fb.pcount = out.length
  sum : fb.sum % 256 = sumBytes out % 256

/-- A message has been begun: its position is known, and there is room for the trailer. -/
structure Begun (b : Buffer) (out : Bytes) (fb : FixBuf) : Prop extends Holds b out fb where
  pbase : fb.pbase = b.wpos
  room : b.wpos + out.length + FixParser.checkSumLen ≤ fb.buf.buf.length

theorem Holds.reset (fb : FixBuf) (valid : fb.buf.Valid) : Holds fb.buf [] fb.reset where
  rpos := rfl
  wpos := rfl
  content := by simp [FixBuf.reset]
  inside := valid.inside
  pcount := rfl
  sum := rfl

/-- More bytes are composed, with whatever sum is theirs. -/
theorem Holds.extend (holds : Holds b out fb) (valid : b.Valid) (s : Bytes) {sum : Nat}
    (added : sum % 256 = (fb.sum + sumBytes s) % 256) :
    Begun b (out ++ s)
      (({ buf := fb.buf.prepare (fb.pcount + s.length + FixParser.checkSumLen)
          pbase := (fb.buf.prepare (fb.pcount + s.length + FixParser.checkSumLen)).wpos
          pcount := fb.pcount + s.length
          sum } : FixBuf).put ((fb.buf.prepare (fb.pcount + s.length + FixParser.checkSumLen)).wpos + fb.pcount) s) := by
  have inside := holds.inside
  have fits : fb.buf.Valid := ⟨by rw [holds.rpos, holds.wpos]; exact valid.ordered, by rw [holds.wpos]; omega⟩
  have room := Buffer.prepare_room fits (fb.pcount + s.length + FixParser.checkSumLen)
  have kept := fb.buf.take_prepare (fb.pcount + s.length + FixParser.checkSumLen) inside
  obtain ⟨prepared, made⟩ : ∃ prepared, prepared = fb.buf.prepare (fb.pcount + s.length + FixParser.checkSumLen) := ⟨_, rfl⟩
  have wpos : prepared.wpos = b.wpos := by rw [made, Buffer.wpos_prepare, holds.wpos]
  have rpos : prepared.rpos = b.rpos := by rw [made, Buffer.rpos_prepare, holds.rpos]
  rw [← made, holds.wpos, holds.pcount] at room
  rw [← made] at kept
  rw [← made, wpos, holds.pcount]
  have length : (overwrite prepared.buf (b.wpos + out.length) s).length = prepared.buf.length :=
    length_overwrite (by omega)
  have written : (overwrite prepared.buf (b.wpos + out.length) s).take (b.wpos + out.length + s.length) =
      b.buf.take b.wpos ++ (out ++ s) := by
    rw [take_overwrite_end (by omega), kept, holds.content, List.append_assoc]
  have total : (out ++ s).length = out.length + s.length := List.length_append
  constructor
  case toHolds =>
    constructor
    case rpos => exact rpos
    case wpos => exact wpos
    case content =>
      rw [total, ← Nat.add_assoc]
      exact written
    case inside =>
      show _ ≤ (overwrite prepared.buf (b.wpos + out.length) s).length
      omega
    case pcount => exact total.symm
    case sum =>
      show sum % 256 = _
      rw [added, Nat.add_mod, holds.sum, ← Nat.add_mod, sumBytes_append]
  case pbase => rfl
  case room =>
    show _ ≤ (overwrite prepared.buf (b.wpos + out.length) s).length
    omega

theorem Holds.xsputn (holds : Holds b out fb) (valid : b.Valid) (s : Bytes) : Begun b (out ++ s) (fb.xsputn s) :=
  holds.extend valid s (foldl_charValue_mod s fb.sum)

theorem Holds.overflow (holds : Holds b out fb) (valid : b.Valid) (c : UInt8) : Begun b (out ++ [c]) (fb.overflow c) := by
  apply holds.extend valid [c]
  rw [sizeT_mod]
  simp [sumBytes]

theorem overwrite_one (before after : Bytes) (old new : UInt8) :
    overwrite (before ++ old :: after) before.length [new] = before ++ new :: after := by
  have rest : (before ++ old :: after).drop (before.length + 1) = after := by
    rw [← List.singleton_append, ← List.append_assoc]
    exact List.drop_left' (by simp)
  rw [overwrite, List.take_left, List.length_singleton, rest]
  simp

/-- A length that is no longer than the placeholder replaces it. -/
theorem putLength_padded (content : fb.buf.buf = before ++ (List.replicate (k + 1) 48 ++ after)) (fits : n < 10 ^ (k + 1)) :
    ∃ sum, putLength (before.length + k + 1) n fb =
        some { fb with
          buf := { fb.buf with buf := before ++ ((digitsOf (k + 1) n).map digitChar ++ after) }
          sum } ∧
      (sum + sumBytes (List.replicate (k + 1) 48)) % 256 = (fb.sum + sumBytes ((digitsOf (k + 1) n).map digitChar)) % 256 := by
  induction k generalizing n fb after with
  | zero =>
    have last : ¬ n / 10 > 0 := by
      rw [Nat.pow_one] at fits
      omega
    refine ⟨sizeT (fb.sum + n % 10), ?_, ?_⟩
    · have written := overwrite_one before after 48 (digitChar (Fin.ofNat 10 n))
      simp only [putLength, if_neg last, put, content]
      exact congrArg (fun buf => some { fb with buf := { fb.buf with buf }, sum := sizeT (fb.sum + n % 10) }) written
    · simp only [digitsOf, List.nil_append, List.map_cons, List.map_nil, sumBytes_digit]
      rw [Nat.add_mod, sizeT_mod, ← Nat.add_mod]
      simp only [sumBytes, List.replicate, List.map_cons, List.map_nil, List.sum_cons, List.sum_nil]
      congr 1
      show fb.sum + n % 10 + (48 + 0) = fb.sum + (48 + n % 10)
      omega
  | succ k inductionHypothesis =>
    obtain ⟨next, made⟩ : ∃ next : FixBuf, next = ({ fb with sum := sizeT (fb.sum + n % 10) } : FixBuf).put
      (before.length + k + 1) [UInt8.ofNat (48 + n % 10)] := ⟨_, rfl⟩
    have split : List.replicate (k + 1 + 1) (48 : UInt8) = List.replicate (k + 1) 48 ++ [48] := List.replicate_succ'
    have written : next.buf.buf = before ++ (List.replicate (k + 1) 48 ++ digitChar (Fin.ofNat 10 n) :: after) := by
      have written := overwrite_one (before ++ List.replicate (k + 1) 48) after 48 (digitChar (Fin.ofNat 10 n))
      rw [List.length_append, List.length_replicate, digitChar_ofNat] at written
      rw [made, put, digitChar_ofNat]
      simp only [content, split]
      simpa [Nat.add_assoc] using written
    have digit : (48 : UInt8).toNat = 48 := rfl
    have added : next.sum % 256 = (fb.sum + n % 10) % 256 := by
      rw [made, put]
      exact sizeT_mod _
    have placeholder : sumBytes (List.replicate (k + 1 + 1) 48) = sumBytes (List.replicate (k + 1) 48) + 48 := by
      rw [split, sumBytes_append]
      rfl
    have length : sumBytes ((digitsOf (k + 1 + 1) n).map digitChar) =
        sumBytes ((digitsOf (k + 1) (n / 10)).map digitChar) + (48 + n % 10) := by
      rw [digitsOf, List.map_append, sumBytes_append, List.map_singleton, sumBytes_digit]
    have unfolded : putLength (before.length + (k + 1) + 1) n fb =
        if n / 10 > 0 then putLength (before.length + k + 1) (n / 10) next else some next := by
      rw [made]
      rfl
    rw [unfolded, placeholder, length]
    by_cases more : n / 10 > 0
    · obtain ⟨sum, done, total⟩ := inductionHypothesis written (show n / 10 < 10 ^ (k + 1) by
        rw [Nat.pow_succ] at fits
        omega)
      refine ⟨sum, ?_, by omega⟩
      rw [if_pos more, done]
      simp only [made, put, digitsOf, List.map_append, List.map_cons, List.map_nil, List.append_assoc, List.cons_append,
        List.nil_append]
    · have zero : n / 10 = 0 := by omega
      refine ⟨next.sum, ?_, ?_⟩
      · rw [if_neg more]
        have same : before ++ ((digitsOf (k + 1 + 1) n).map digitChar ++ after) = next.buf.buf := by
          rw [written, digitsOf, zero, List.map_append, digitsOf_zero]
          simp
        rw [same]
        simp [made, put]
      · rw [zero, digitsOf_zero]
        omega

/-- The digits change nothing but the bytes before them. -/
structure Keeps (it : Nat) (fb t : FixBuf) : Prop where
  length : t.buf.buf.length = fb.buf.buf.length
  rpos : t.buf.rpos = fb.buf.rpos
  wpos : t.buf.wpos = fb.buf.wpos
  pbase : t.pbase = fb.pbase
  pcount : t.pcount = fb.pcount
  later : ∀ i, it ≤ i → t.buf.buf[i]? = fb.buf.buf[i]?

theorem length_overwrite_one {buf : Bytes} (inside : it < buf.length) (c : UInt8) :
    (overwrite buf it [c]).length = buf.length :=
  length_overwrite (by simpa using inside)

theorem overwrite_getElem? {buf : Bytes} (inside : it < buf.length) (c : UInt8) :
    (overwrite buf it [c])[it]? = some c ∧ ∀ i, it < i → (overwrite buf it [c])[i]? = buf[i]? := by
  have length : (buf.take it).length = it := List.length_take_of_le inside.le
  constructor
  · rw [overwrite, List.append_assoc, List.getElem?_append_right (by omega), length]
    simp
  · intro i above
    rw [overwrite, List.getElem?_append_right (by rw [List.length_append, length]; simpa using above), List.getElem?_drop]
    congr 1
    rw [List.length_append, length, List.length_singleton]
    omega

theorem putLength_keeps (done : putLength it n fb = some t) (inside : it ≤ fb.buf.buf.length) : Keeps it fb t := by
  induction it generalizing n fb with
  | zero => cases done
  | succ it inductionHypothesis =>
    have length := length_overwrite_one inside (UInt8.ofNat (48 + n % 10))
    have later := (overwrite_getElem? inside (UInt8.ofNat (48 + n % 10))).2
    simp only [putLength] at done
    split at done
    next =>
      have keeps := inductionHypothesis done (by simp only [put, length]; omega)
      exact
        { length := keeps.length.trans length
          rpos := keeps.rpos
          wpos := keeps.wpos
          pbase := keeps.pbase
          pcount := keeps.pcount
          later := fun i above => (keeps.later i (by omega)).trans (later i above) }
    next =>
      cases done
      exact ⟨length, rfl, rfl, rfl, rfl, later⟩

/-- A number of more than `k` digits has a digit at the place `k` from its end. -/
theorem putLength_digit {j : Nat} (done : putLength (it + j + 1) n fb = some t) (inside : it + j + 1 ≤ fb.buf.buf.length)
    (reach : j = 0 ∨ 0 < n / 10 ^ j) : t.buf.buf[it]? = some (digitChar (Fin.ofNat 10 (n / 10 ^ j))) := by
  induction j generalizing n fb with
  | zero =>
    have now := (overwrite_getElem? inside (UInt8.ofNat (48 + n % 10))).1
    have length := length_overwrite_one inside (UInt8.ofNat (48 + n % 10))
    rw [Nat.pow_zero, Nat.div_one, digitChar_ofNat, ← now]
    simp only [putLength] at done
    split at done
    next =>
      have keeps := putLength_keeps done (by simp only [put, length]; omega)
      exact keeps.later it (Nat.le_refl _)
    next =>
      cases done
      rfl
  | succ j inductionHypothesis =>
    have reach : 0 < n / 10 ^ (j + 1) := reach.resolve_left (Nat.succ_ne_zero j)
    have tens : n / 10 ^ (j + 1) = n / 10 / 10 ^ j := by rw [Nat.pow_succ, Nat.mul_comm, Nat.div_div_eq_div_mul]
    have more : n / 10 > 0 := by
      rw [tens] at reach
      exact lt_of_lt_of_le reach (Nat.div_le_self _ _)
    have length := length_overwrite_one inside (UInt8.ofNat (48 + n % 10))
    rw [tens]
    simp only [putLength, if_pos more] at done
    apply inductionHypothesis done
    · simp only [put, length]
      omega
    · rw [← tens]
      exact .inr reach

end FixBuf

end Swirly

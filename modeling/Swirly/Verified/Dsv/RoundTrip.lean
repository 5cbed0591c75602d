import Swirly.Verified.Journaled
import Swirly.Verified.TextToInt

/-!
# What comes back from the files

Which records are the same again after they have been written to a file and read from it.  Lots, costs and ids of more than
32 bits are not, and no order or execution is: its side is written by name and read as a number.
-/

namespace Swirly

open Dsv

namespace Dsv

/-! ## Columns -/

theorem clean_nil : Clean [] := ⟨List.not_mem_nil, List.not_mem_nil⟩

theorem clean_orEmpty {absent : Bool} {c : Bytes} (clean : Clean c) : Clean (orEmpty absent c) := by
  rw [orEmpty]
  split
  · exact clean_nil
  · exact clean

theorem clean_insertInt (n : Int) : Clean (insertInt n) := by
  have digits : ∀ n : Nat, Clean (insertInt n) := by
    intro n
    constructor
    · exact fun inside => absurd (isDigit_decimal n tab inside) (by decide)
    · exact fun inside => absurd (isDigit_decimal n newline inside) (by decide)
  cases n with
  | ofNat n => exact digits n
  | negSucc n =>
    rw [insertInt_negSucc]
    constructor
    · simpa [tab] using (digits (n + 1)).1
    · simpa [newline] using (digits (n + 1)).2

theorem clean_day (jd : Int) : Clean (day jd) := clean_orEmpty (clean_insertInt _)

/-! ## Values -/

/-- A number of 32 bits, but the least one. -/
def Fits (n : Int) : Prop := -2 ^ 31 < n ∧ n < 2 ^ 31

theorem int32_insertInt (n m : Int) : int32 (insertInt n) = some m ↔ n = m ∧ Fits n := by
  have read : int32 (insertInt n) = if IntType.int32.min < n ∧ n ≤ IntType.int32.max then some n else none :=
    IntType.wide_int32.stoi_insertInt n
  have fits : IntType.int32.min < n ∧ n ≤ IntType.int32.max ↔ Fits n := by
    have bounds : IntType.int32.min = -2 ^ 31 ∧ IntType.int32.max = 2 ^ 31 - 1 := ⟨rfl, rfl⟩
    rw [bounds.1, bounds.2, Fits]
    omega
  rw [read, Option.ite_none_right_eq_some, fits, Option.some.injEq, and_comm]

theorem int32_insertInt_iff (n : Int) : int32 (insertInt n) = some n ↔ Fits n := by simp [int32_insertInt]

theorem int64_insertInt_iff (n : Int) : int64 (insertInt n) = some n ↔ Fits n := int32_insertInt_iff n

/-- Days are written as dates and read as they are. -/
def KeepsDay (jd : Int) : Prop := jd = 0 ∨ jdToIso jd = jd ∧ Fits jd

theorem int32_day_iff (jd : Int) : int32 (day jd) = some jd ↔ KeepsDay jd := by
  have nothing : int32 [] = some 0 := rfl
  rw [day, orEmpty, KeepsDay]
  by_cases none : jd = 0
  · subst none
    simp [nothing]
  · simp only [none, decide_false, Bool.false_eq_true, if_false, int32_insertInt, false_or]
    refine and_congr_right ?_
    intro same
    rw [same]

section Dates

variable {n i f j k l q c jd : Int}

/-- With the terms of the formula as inequalities: the number of the date goes past that of the day in the year 178. -/
theorem year_ne (centuries : 4 * q ≤ 146097 * n + 3 ∧ 146097 * n ≤ 4 * q)
    (years : 4 * c ≤ 1461 * i ∧ 1461 * i ≤ 4 * c + 3) (whole : jd + 68569 = l - 31 + c + q) (low : 49 ≤ n)
    (single : 0 ≤ i ∧ i ≤ 99) (leap : (11 * f ≤ j ∧ j ≤ 11 * f + 10) ∧ 0 ≤ f ∧ f ≤ 1)
    (days : 80 * k ≤ 2447 * j ∧ 2447 * j ≤ 80 * k + 79) :
    (100 * (n - 49) + i + f) * 10000 + (j + 2 - 12 * f) * 100 + (l - k) ≠ jd := by
  intro same
  obtain early | late : 100 * (n - 49) + i + f ≤ 178 ∨ 179 ≤ 100 * (n - 49) + i + f := by omega
  all_goals obtain rfl | rfl : f = 0 ∨ f = 1 := by omega
  all_goals linarith

/-- The days of the years 1 to 9999. -/
def Dated (jd : Int) : Prop := 1721426 ≤ jd ∧ jd ≤ 5373484

theorem jdToIso_dated (dated : Dated jd) : jdToIso jd ≠ jd := by
  obtain ⟨first, last⟩ := dated
  obtain ⟨n, hasN⟩ : ∃ n, n = 4 * (jd + 68569) / 146097 := ⟨_, rfl⟩
  obtain ⟨q, hasQ⟩ : ∃ q, q = (146097 * n + 3) / 4 := ⟨_, rfl⟩
  obtain ⟨i, hasI⟩ : ∃ i, i = 4000 * (jd + 68569 - q + 1) / 1461001 := ⟨_, rfl⟩
  obtain ⟨c, hasC⟩ : ∃ c, c = 1461 * i / 4 := ⟨_, rfl⟩
  obtain ⟨l, hasL⟩ : ∃ l, l = jd + 68569 - q - c + 31 := ⟨_, rfl⟩
  obtain ⟨j, hasJ⟩ : ∃ j, j = 80 * l / 2447 := ⟨_, rfl⟩
  obtain ⟨k, hasK⟩ : ∃ k, k = 2447 * j / 80 := ⟨_, rfl⟩
  obtain ⟨f, hasF⟩ : ∃ f, f = j / 11 := ⟨_, rfl⟩
  -- Each intermediate value is bounded by those before it.
  have boundN : 49 ≤ n ∧ n ≤ 149 := by omega
  have boundQ : 0 ≤ jd + 68569 - q ∧ jd + 68569 - q ≤ 36524 := by omega
  have boundI : 0 ≤ i ∧ i ≤ 99 := by omega
  have boundL : 0 ≤ l ∧ l ≤ 397 := by omega
  have boundJ : 0 ≤ j ∧ j ≤ 13 := by omega
  -- No dividend is negative, so truncating division is the floor.
  have spelled : jdToIso jd = (100 * (n - 49) + i + f) * 10000 + (j + 2 - 12 * f) * 100 + (l - k) := by
    simp only [jdToIso]
    rw [Int.tdiv_eq_ediv_of_nonneg (a := 4 * (jd + 68569)) (by omega), ← hasN,
      Int.tdiv_eq_ediv_of_nonneg (a := 146097 * n + 3) (by omega), ← hasQ,
      Int.tdiv_eq_ediv_of_nonneg (a := 4000 * (jd + 68569 - q + 1)) (by omega), ← hasI,
      Int.tdiv_eq_ediv_of_nonneg (a := 1461 * i) (by omega), ← hasC, ← hasL,
      Int.tdiv_eq_ediv_of_nonneg (a := 80 * l) (by omega), ← hasJ,
      Int.tdiv_eq_ediv_of_nonneg (a := 2447 * j) (by omega), ← hasK,
      Int.tdiv_eq_ediv_of_nonneg (a := j) (by omega), ← hasF]
  rw [spelled]
  apply year_ne (q := q) (c := c) <;> omega

/-- No day of these years is the number of its own date. -/
theorem keepsDay_iff (dated : jd = 0 ∨ Dated jd) : KeepsDay jd ↔ jd = 0 := by
  constructor
  · rintro (none | same)
    · exact none
    · rcases dated with none | dated
      · exact none
      · exact absurd same.1 (jdToIso_dated dated)
  · exact Or.inl

end Dates

/-- A time of whole milliseconds. -/
def KeepsTime (t : Int) : Prop := -2 ^ 63 ≤ t ∧ t < 2 ^ 63 ∧ 1000000 ∣ t

/-- A time loses what is less than a millisecond, towards zero. -/
theorem msSinceEpoch_near (t : Int) :
    (0 ≤ t → 0 ≤ msSinceEpoch t ∧ msSinceEpoch t * 1000000 ≤ t) ∧
    (t ≤ 0 → msSinceEpoch t ≤ 0 ∧ t ≤ msSinceEpoch t * 1000000) ∧
    (msSinceEpoch t * 1000000 = t ↔ 1000000 ∣ t) := by
  rw [msSinceEpoch]
  obtain positive | negative : 0 ≤ t ∨ t < 0 := by omega
  · rw [Int.tdiv_eq_ediv_of_nonneg positive]
    omega
  · have other := Int.neg_tdiv (a := t) (b := 1000000)
    rw [Int.tdiv_eq_ediv_of_nonneg (by omega)] at other
    omega

theorem readTime_time_iff (t : Int) : readTime (time t) = some t ↔ KeepsTime t := by
  obtain ⟨positive, negative, whole⟩ := msSinceEpoch_near t
  have holds (n : Int) : IntType.int64.Holds n ↔ -2 ^ 63 ≤ n ∧ n ≤ 2 ^ 63 - 1 := Iff.rfl
  have bounds : IntType.int64.min = -2 ^ 63 ∧ IntType.int64.max = 2 ^ 63 - 1 := ⟨rfl, rfl⟩
  rw [readTime, time, IntType.wide_int64.stoi_insertInt, KeepsTime, ← whole, bounds.1, bounds.2, Option.bind_eq_bind,
    Option.bind_eq_some_iff]
  generalize msSinceEpoch t = ms at positive negative
  simp only [IntType.wide_int64.store, holds, Option.ite_none_right_eq_some, Option.some.injEq]
  constructor
  · rintro ⟨read, ⟨-, rfl⟩, range, same⟩
    omega
  -- The milliseconds of a time of 64 bits fit well.
  · rintro ⟨low, high, same⟩
    exact ⟨ms, ⟨by omega, rfl⟩, by omega, same⟩

/-- A value that may be left out is read as zero. -/
theorem orEmpty_iff {absent : Bool} {f : Bytes → Option Int} {c : Bytes} {n : Int} (nothing : f [] = some 0)
    (zero : n = 0 → f c = some n) : f (orEmpty absent c) = some n ↔ (absent → n = 0) ∧ f c = some n := by
  cases absent with
  | false => simp [orEmpty]
  | true =>
    simp only [orEmpty, if_true, nothing, forall_const, Option.some.injEq]
    constructor
    · intro empty
      exact ⟨empty.symm, zero empty.symm⟩
    · exact fun both => both.1.symm

theorem int64_maybe_iff (absent : Bool) (n : Int) :
    int64 (orEmpty absent (insertInt n)) = some n ↔ (absent → n = 0) ∧ Fits n := by
  rw [orEmpty_iff rfl, int64_insertInt_iff]
  rintro rfl
  exact (int64_insertInt_iff 0).mpr ⟨by decide, by decide⟩

theorem readTime_maybe_iff (absent : Bool) (t : Int) :
    readTime (orEmpty absent (time t)) = some t ↔ (absent → t = 0) ∧ KeepsTime t := by
  rw [orEmpty_iff rfl, readTime_time_iff]
  rintro rfl
  exact (readTime_time_iff 0).mpr ⟨by decide, by decide, Int.dvd_zero _⟩

end Dsv

/-! ## Tables -/

namespace Table

variable {α : Type} {table : Table α}

/-- The reader looks at nothing but the columns at their positions. -/
def Positional (table : Table α) : Prop :=
  ∀ row row' : Row, (∀ i, row.col i = row'.col i) → table.ofRow row = table.ofRow row'

/-- The records whose columns have neither a tab nor a newline are read one by one. -/
theorem ofFile_toFile (positional : table.Positional) (header : ∀ name ∈ table.header, Dsv.Clean (bytes name)) {rs : List α}
    (clean : ∀ r ∈ rs, ∀ c ∈ table.columns r, Clean c) :
    table.ofFile (table.toFile rs) = rs.map fun r => table.ofRow (table.columns r) := by
  have rows : ∀ row ∈ table.header.map bytes :: rs.map table.columns, ∀ c ∈ row, Clean c := by
    rw [List.forall_mem_cons, List.forall_mem_map, List.forall_mem_map]
    exact ⟨header, clean⟩
  rw [ofFile, toFile, lines_split rows, List.map_cons, List.drop_one, List.tail_cons, List.map_map, List.map_map]
  apply List.map_congr_left
  intro r inside
  exact positional _ _ (col_split fun c column => (clean r inside c column).1)

theorem comes_back_iff (positional : table.Positional) (header : ∀ name ∈ table.header, Dsv.Clean (bytes name)) {rs : List α}
    (clean : ∀ r ∈ rs, ∀ c ∈ table.columns r, Clean c) :
    table.ofFile (table.toFile rs) = rs.map some ↔ ∀ r ∈ rs, table.ofRow (table.columns r) = some r := by
  rw [ofFile_toFile positional header clean]
  exact List.map_inj_left

/-- Nothing comes back from a file without records that can be read. -/
theorem never_comes_back (positional : table.Positional) (header : ∀ name ∈ table.header, Dsv.Clean (bytes name)) {rs : List α}
    (clean : ∀ r ∈ rs, ∀ c ∈ table.columns r, Clean c) (unread : ∀ r, table.ofRow (table.columns r) = none) :
    table.ofFile (table.toFile rs) = rs.map some ↔ rs = [] := by
  rw [comes_back_iff positional header clean]
  simp only [unread, reduceCtorEq]
  exact List.eq_nil_iff_forall_not_mem.symm

end Table

section Positions

variable {row row' : Row} (same : ∀ i, row.col i = row'.col i)

include same

theorem Asset.ofRow_congr : Asset.ofRow row = Asset.ofRow row' := by simp only [Asset.ofRow, same]

theorem Instr.ofRow_congr : Instr.ofRow row = Instr.ofRow row' := by simp only [Instr.ofRow, same]

theorem KeyedMarket.ofRow_congr : KeyedMarket.ofRow row = KeyedMarket.ofRow row' := by
  simp only [KeyedMarket.ofRow, same]

theorem Order.ofRow_congr : Order.ofRow row = Order.ofRow row' := by simp only [Order.ofRow, same]

theorem Exec.ofRow_congr : Exec.ofRow row = Exec.ofRow row' := by simp only [Exec.ofRow, same]

theorem Exec.ofTradeRow_congr : Exec.ofTradeRow row = Exec.ofTradeRow row' := by simp only [Exec.ofTradeRow, same]

theorem KeyedPosn.ofRow_congr : KeyedPosn.ofRow row = KeyedPosn.ofRow row' := by simp only [KeyedPosn.ofRow, same]

end Positions

/-! ## Assets, instruments, markets and positions -/

/-- No text of the record has a delimiter in it. -/
def Asset.Clean (a : Asset) : Prop := Dsv.Clean a.symbol.view ∧ Dsv.Clean a.display.data

/-- The asset is the same when it has been read. -/
structure Asset.Kept (a : Asset) : Prop where
  id : Fits a.id
  symbol : a.symbol.Textual

theorem AssetType.ofNum_num (type : AssetType) : (int32 (insertInt type.num)).bind AssetType.ofNum = some type := by
  -- The only enumeration that is written by number.
  have fits : int32 (insertInt type.num) = some type.num := by
    rw [int32_insertInt_iff, Fits]
    cases type <;> decide
  rw [fits]
  cases type <;> rfl

/-- The asset that a row is read as. -/
theorem Asset.ofRow_eq_some_iff {row : Row} {a : Asset} :
    Asset.ofRow row = some a ↔
      int32 (row.col 0) = some a.id ∧ .assign (row.col 1) = a.symbol ∧ .assign (row.col 2) = a.display ∧
        (int32 (row.col 3)).bind AssetType.ofNum = some a.type := by
  simp only [ofRow, Option.bind_eq_bind, Option.bind_eq_some_iff, Option.pure_def, Option.some.injEq]
  constructor
  · rintro ⟨id, readId, number, readNumber, type, readType, rfl⟩
    exact ⟨readId, rfl, rfl, number, readNumber, readType⟩
  · rintro ⟨readId, symbol, display, number, readNumber, readType⟩
    exact ⟨a.id, readId, number, readNumber, a.type, readType, by rw [symbol, display]⟩

theorem Asset.ofRow_iff (a : Asset) : Asset.ofRow a.columns = some a ↔ a.Kept := by
  rw [ofRow_eq_some_iff]
  constructor
  · rintro ⟨id, symbol, -⟩
    exact ⟨(int32_insertInt_iff _).mp id, symbol⟩
  · intro kept
    exact ⟨(int32_insertInt_iff _).mpr kept.id, kept.symbol, StringBuf.assign_self _, AssetType.ofNum_num a.type⟩

def Instr.Clean (i : Instr) : Prop :=
  Dsv.Clean i.symbol.view ∧ Dsv.Clean i.display.data ∧ Dsv.Clean i.baseAsset.view ∧ Dsv.Clean i.termCcy.view

/-- The reader takes the size of a lot for that of a tick, and the other way round. -/
structure Instr.Kept (i : Instr) : Prop where
  id : Fits i.id
  symbol : i.symbol.Textual
  baseAsset : i.baseAsset.Textual
  termCcy : i.termCcy.Textual
  numer : Fits i.lotNumer ∧ i.tickNumer = i.lotNumer
  denom : Fits i.lotDenom ∧ i.tickDenom = i.lotDenom
  pipDp : Fits i.pipDp
  minLots : Fits i.minLots
  maxLots : Fits i.maxLots

/-- Two numbers that are read in each other's place. -/
theorem swapped_iff (n m : Int) : int32 (insertInt n) = some m ∧ int32 (insertInt m) = some n ↔ Fits n ∧ m = n := by
  rw [int32_insertInt, int32_insertInt]
  constructor
  -- What is read is what was written, so each is the other.
  · rintro ⟨⟨rfl, fits⟩, -⟩
    exact ⟨fits, rfl⟩
  · rintro ⟨fits, rfl⟩
    exact ⟨⟨rfl, fits⟩, rfl, fits⟩

theorem Instr.ofRow_eq_some_iff {row : Row} {i : Instr} :
    Instr.ofRow row = some i ↔
      (int32 (row.col 0) = some i.id ∧ .assign (row.col 1) = i.symbol ∧ .assign (row.col 2) = i.display ∧
        .assign (row.col 3) = i.baseAsset ∧ .assign (row.col 4) = i.termCcy) ∧
      (int32 (row.col 5) = some i.tickNumer ∧ int32 (row.col 6) = some i.tickDenom ∧
        int32 (row.col 7) = some i.lotNumer ∧ int32 (row.col 8) = some i.lotDenom) ∧
      int32 (row.col 9) = some i.pipDp ∧ int64 (row.col 10) = some i.minLots ∧ int64 (row.col 11) = some i.maxLots := by
  simp only [ofRow, Option.bind_eq_bind, Option.bind_eq_some_iff, Option.pure_def, Option.some.injEq]
  constructor
  · rintro ⟨id, readId, tickNumer, readTickNumer, tickDenom, readTickDenom, lotNumer, readLotNumer, lotDenom, readLotDenom,
      pipDp, readPipDp, minLots, readMinLots, maxLots, readMaxLots, rfl⟩
    exact ⟨⟨readId, rfl, rfl, rfl, rfl⟩, ⟨readTickNumer, readTickDenom, readLotNumer, readLotDenom⟩, readPipDp, readMinLots,
      readMaxLots⟩
  · rintro ⟨⟨id, symbol, display, baseAsset, termCcy⟩, ⟨tickNumer, tickDenom, lotNumer, lotDenom⟩, pipDp, minLots, maxLots⟩
    exact ⟨_, id, _, tickNumer, _, tickDenom, _, lotNumer, _, lotDenom, _, pipDp, _, minLots, _, maxLots,
      by rw [symbol, display, baseAsset, termCcy]⟩

theorem Instr.ofRow_iff (i : Instr) : Instr.ofRow i.columns = some i ↔ i.Kept := by
  have numer := swapped_iff i.lotNumer i.tickNumer
  have denom := swapped_iff i.lotDenom i.tickDenom
  rw [ofRow_eq_some_iff]
  constructor
  · rintro ⟨⟨id, symbol, -, baseAsset, termCcy⟩, ⟨tickNumer, tickDenom, lotNumer, lotDenom⟩, pipDp, minLots, maxLots⟩
    exact
      { id := (int32_insertInt_iff _).mp id
        symbol
        baseAsset
        termCcy
        numer := numer.mp ⟨tickNumer, lotNumer⟩
        denom := denom.mp ⟨tickDenom, lotDenom⟩
        pipDp := (int32_insertInt_iff _).mp pipDp
        minLots := (int64_insertInt_iff _).mp minLots
        maxLots := (int64_insertInt_iff _).mp maxLots }
  · intro kept
    obtain ⟨tickNumer, lotNumer⟩ := numer.mpr kept.numer
    obtain ⟨tickDenom, lotDenom⟩ := denom.mpr kept.denom
    exact ⟨⟨(int32_insertInt_iff _).mpr kept.id, kept.symbol, StringBuf.assign_self _, kept.baseAsset, kept.termCcy⟩,
      ⟨tickNumer, tickDenom, lotNumer, lotDenom⟩, (int32_insertInt_iff _).mpr kept.pipDp,
      (int64_insertInt_iff _).mpr kept.minLots, (int64_insertInt_iff _).mpr kept.maxLots⟩

def KeyedMarket.Clean (k : KeyedMarket) : Prop := Dsv.Clean k.market.instr.view

/-- The orders of a market are not in its line, and without a last trade nothing of one is. -/
structure KeyedMarket.Kept (k : KeyedMarket) : Prop where
  id : Fits k.id
  instr : k.market.instr.Textual
  settlDay : KeepsDay k.market.settlDay
  state : k.market.state < 2 ^ 32
  lastLots : Fits k.market.lastLots
  lastTicks : (k.market.lastLots = 0 → k.market.lastTicks = 0) ∧ Fits k.market.lastTicks
  lastTime : (k.market.lastLots = 0 → k.market.lastTime = 0) ∧ KeepsTime k.market.lastTime
  sides : k.market.bidSide = .empty ∧ k.market.offerSide = .empty
  maxId : Fits k.market.maxId

theorem uint32_insertInt_iff (n : Nat) : uint32 (insertInt n) = n ↔ n < 2 ^ 32 := by
  rw [uint32, stou_insertInt]
  omega

theorem KeyedMarket.ofRow_eq_some_iff {row : Row} {k : KeyedMarket} :
    KeyedMarket.ofRow row = some k ↔
      int64 (row.col 0) = some k.id ∧ .assign (row.col 1) = k.market.instr ∧ int32 (row.col 2) = some k.market.settlDay ∧
        uint32 (row.col 3) = k.market.state ∧ int64 (row.col 4) = some k.market.lastLots ∧
        int64 (row.col 5) = some k.market.lastTicks ∧ readTime (row.col 6) = some k.market.lastTime ∧
        (.empty = k.market.bidSide ∧ .empty = k.market.offerSide) ∧ int64 (row.col 7) = some k.market.maxId := by
  simp only [ofRow, Option.bind_eq_bind, Option.bind_eq_some_iff, Option.pure_def, Option.some.injEq]
  constructor
  · rintro ⟨id, readId, settlDay, readSettlDay, lastLots, readLastLots, lastTicks, readLastTicks, lastTime, readLastTime,
      maxId, readMaxId, rfl⟩
    exact ⟨readId, rfl, readSettlDay, rfl, readLastLots, readLastTicks, readLastTime, ⟨rfl, rfl⟩, readMaxId⟩
  · obtain ⟨_, _, _, _, _, _, _, _, _, _⟩ := k
    rintro ⟨id, rfl, settlDay, rfl, lastLots, lastTicks, lastTime, ⟨rfl, rfl⟩, maxId⟩
    exact ⟨_, id, _, settlDay, _, lastLots, _, lastTicks, _, lastTime, _, maxId, rfl⟩

theorem KeyedMarket.ofRow_iff (k : KeyedMarket) : KeyedMarket.ofRow k.columns = some k ↔ k.Kept := by
  -- The last trade is left out of the row when there was none, which its lots tell.
  have lots := int64_maybe_iff (k.market.lastLots = 0) k.market.lastLots
  have ticks := int64_maybe_iff (k.market.lastLots = 0) k.market.lastTicks
  have last := readTime_maybe_iff (k.market.lastLots = 0) k.market.lastTime
  rw [decide_eq_true_eq] at lots ticks last
  rw [ofRow_eq_some_iff]
  constructor
  · rintro ⟨id, instr, settlDay, state, lastLots, lastTicks, lastTime, ⟨bidSide, offerSide⟩, maxId⟩
    exact
      { id := (int64_insertInt_iff _).mp id
        instr
        settlDay := (int32_day_iff _).mp settlDay
        state := (uint32_insertInt_iff _).mp state
        lastLots := (lots.mp lastLots).2
        lastTicks := ticks.mp lastTicks
        lastTime := last.mp lastTime
        sides := ⟨bidSide.symm, offerSide.symm⟩
        maxId := (int64_insertInt_iff _).mp maxId }
  · intro kept
    exact ⟨(int64_insertInt_iff _).mpr kept.id, kept.instr, (int32_day_iff _).mpr kept.settlDay,
      (uint32_insertInt_iff _).mpr kept.state, lots.mpr ⟨fun zero => zero, kept.lastLots⟩, ticks.mpr kept.lastTicks,
      last.mpr kept.lastTime, ⟨kept.sides.1.symm, kept.sides.2.symm⟩, (int64_insertInt_iff _).mpr kept.maxId⟩

def KeyedPosn.Clean (k : KeyedPosn) : Prop := Dsv.Clean k.accnt.view ∧ Dsv.Clean k.instr.view

/-- A cost comes back with its lots, and the net cost of a position is taken from its costs. -/
structure KeyedPosn.Kept (k : KeyedPosn) : Prop where
  accnt : k.accnt.Textual
  marketId : Fits k.marketId
  instr : k.instr.Textual
  settlDay : KeepsDay k.settlDay
  buyLots : Fits k.posn.buyLots
  buyCost : (k.posn.buyLots = 0 → k.posn.buyCost = 0) ∧ Fits k.posn.buyCost
  sellLots : Fits k.posn.sellLots
  sellCost : (k.posn.sellLots = 0 → k.posn.sellCost = 0) ∧ Fits k.posn.sellCost
  netCost : k.posn.netCost = k.posn.buyCost - k.posn.sellCost

/-- Where there are no lots, a zero is written. -/
theorem int64_zero_iff {lots n : Int} :
    int64 (if lots ≠ 0 then insertInt n else bytes "0") = some n ↔ (lots = 0 → n = 0) ∧ Fits n := by
  by_cases none : lots = 0
  · have zero : int64 (bytes "0") = some 0 := by decide
    simp only [none, ne_eq, not_true_eq_false, if_false, zero, true_implies, Option.some.injEq]
    constructor
    · rintro rfl
      exact ⟨rfl, by decide, by decide⟩
    · exact fun both => both.1.symm
  · simp [none, int64_insertInt_iff]

theorem KeyedPosn.ofRow_eq_some_iff {row : Row} {k : KeyedPosn} :
    KeyedPosn.ofRow row = some k ↔
      .assign (row.col 0) = k.accnt ∧ int64 (row.col 1) = some k.marketId ∧ .assign (row.col 2) = k.instr ∧
        int32 (row.col 3) = some k.settlDay ∧ int64 (row.col 4) = some k.posn.buyLots ∧
        int64 (row.col 5) = some k.posn.buyCost ∧ int64 (row.col 6) = some k.posn.sellLots ∧
        int64 (row.col 7) = some k.posn.sellCost ∧ k.posn.netCost = k.posn.buyCost - k.posn.sellCost := by
  simp only [ofRow, Option.bind_eq_bind, Option.bind_eq_some_iff, Option.pure_def, Option.some.injEq]
  constructor
  · rintro ⟨marketId, readMarketId, settlDay, readSettlDay, buyLots, readBuyLots, buyCost, readBuyCost, sellLots, readSellLots,
      sellCost, readSellCost, rfl⟩
    exact ⟨rfl, readMarketId, rfl, readSettlDay, readBuyLots, readBuyCost, readSellLots, readSellCost, rfl⟩
  · rintro ⟨accnt, marketId, instr, settlDay, buyLots, buyCost, sellLots, sellCost, netCost⟩
    exact ⟨_, marketId, _, settlDay, _, buyLots, _, buyCost, _, sellLots, _, sellCost, by rw [accnt, instr, ← netCost]⟩

theorem KeyedPosn.ofRow_iff (k : KeyedPosn) : KeyedPosn.ofRow k.columns = some k ↔ k.Kept := by
  rw [ofRow_eq_some_iff]
  constructor
  · rintro ⟨accnt, marketId, instr, settlDay, buyLots, buyCost, sellLots, sellCost, netCost⟩
    exact
      { accnt
        marketId := (int64_insertInt_iff _).mp marketId
        instr
        settlDay := (int32_day_iff _).mp settlDay
        buyLots := (int64_zero_iff.mp buyLots).2
        buyCost := int64_zero_iff.mp buyCost
        sellLots := (int64_zero_iff.mp sellLots).2
        sellCost := int64_zero_iff.mp sellCost
        netCost }
  · intro kept
    exact ⟨kept.accnt, (int64_insertInt_iff _).mpr kept.marketId, kept.instr, (int32_day_iff _).mpr kept.settlDay,
      int64_zero_iff.mpr ⟨fun zero => zero, kept.buyLots⟩, int64_zero_iff.mpr kept.buyCost,
      int64_zero_iff.mpr ⟨fun zero => zero, kept.sellLots⟩, int64_zero_iff.mpr kept.sellCost, kept.netCost⟩

/-! ## Orders and executions -/

def Order.Clean (o : Order) : Prop := Dsv.Clean o.accnt.view ∧ Dsv.Clean o.instr.view ∧ Dsv.Clean o.ref.data

def Exec.Clean (e : Exec) : Prop :=
  Dsv.Clean e.accnt.view ∧ Dsv.Clean e.instr.view ∧ Dsv.Clean e.ref.data ∧ Dsv.Clean e.cpty.view

theorem ofNum_side (side : Side) : (int32 side.name).bind Side.ofNum = none := by cases side <;> decide

theorem ofNum_state (state : State) : (int32 state.name).bind Side.ofNum = none := by cases state <;> decide

/-- What goes on to a record that is none is none. -/
theorem bind_nothing {α β : Type} {x : Option α} {f : α → Option β} (nothing : ∀ a, f a = none) : (x >>= f) = none := by
  cases x with
  | none => rfl
  | some a => exact nothing a

/-- Without a side there is no record. -/
theorem sideless {β : Type} {x : Option Int} {f : Side → Option β} (unread : x.bind Side.ofNum = none) :
    (x >>= fun n => Side.ofNum n >>= f) = none := by
  have joined : (x >>= fun n => Side.ofNum n >>= f) = (x.bind Side.ofNum).bind f := (Option.bind_assoc x Side.ofNum f).symm
  rw [joined, unread, Option.bind_none]

theorem Order.ofRow_columns (o : Order) : Order.ofRow o.columns = none := by
  -- The columns in front of the side.
  refine bind_nothing fun _ => bind_nothing fun _ => bind_nothing fun _ => bind_nothing fun _ => bind_nothing fun _ => ?_
  exact sideless (ofNum_side o.side)

theorem Exec.ofRow_columns (e : Exec) : Exec.ofRow e.columns = none := by
  refine bind_nothing fun _ => bind_nothing fun _ => bind_nothing fun _ => bind_nothing fun _ => bind_nothing fun _ =>
    bind_nothing fun _ => ?_
  exact sideless (ofNum_side e.side)

/-- The reader of trades takes the state for the side. -/
theorem Exec.ofTradeRow_columns (e : Exec) : Exec.ofTradeRow e.columns = none := by
  refine bind_nothing fun _ => bind_nothing fun _ => bind_nothing fun _ => bind_nothing fun _ => ?_
  exact sideless (ofNum_state e.state)

/-! ## Clean columns -/

theorem Asset.clean_columns {a : Asset} (clean : a.Clean) : ∀ c ∈ a.columns, Dsv.Clean c := by
  simp only [columns, List.forall_mem_cons]
  exact ⟨clean_insertInt _, clean.1, clean.2, clean_insertInt _, List.forall_mem_nil _⟩

theorem Instr.clean_columns {i : Instr} (clean : i.Clean) : ∀ c ∈ i.columns, Dsv.Clean c := by
  obtain ⟨symbol, display, baseAsset, termCcy⟩ := clean
  simp [columns, clean_insertInt, symbol, display, baseAsset, termCcy]

theorem KeyedMarket.clean_columns {k : KeyedMarket} (clean : k.Clean) : ∀ c ∈ k.columns, Dsv.Clean c := by
  simp [columns, clean_insertInt, clean_orEmpty, clean_day, time, show Dsv.Clean k.market.instr.view from clean]

theorem KeyedPosn.clean_columns {k : KeyedPosn} (clean : k.Clean) : ∀ c ∈ k.columns, Dsv.Clean c := by
  obtain ⟨accnt, instr⟩ := clean
  have number : ∀ (lots n : Int), Dsv.Clean (if lots ≠ 0 then insertInt n else bytes "0") := by
    intro lots n
    split
    · exact clean_insertInt n
    · exact clean_insertInt 0
  simp only [columns, List.forall_mem_cons]
  exact ⟨accnt, clean_insertInt _, instr, clean_day _, number _ _, number _ _, number _ _, number _ _, List.forall_mem_nil _⟩

theorem clean_names (side : Side) (state : State) (liqInd : LiqInd) :
    Dsv.Clean side.name ∧ Dsv.Clean state.name ∧ Dsv.Clean liqInd.name := by
  refine ⟨?_, ?_, ?_⟩
  · cases side <;> exact ⟨by decide, by decide⟩
  · cases state <;> exact ⟨by decide, by decide⟩
  · cases liqInd <;> exact ⟨by decide, by decide⟩

theorem Order.clean_columns {o : Order} (clean : o.Clean) : ∀ c ∈ o.columns, Dsv.Clean c := by
  obtain ⟨accnt, instr, ref⟩ := clean
  obtain ⟨side, state, -⟩ := clean_names o.side o.state .none
  simp [columns, clean_insertInt, clean_orEmpty, clean_day, time, accnt, instr, ref, side, state]

theorem Exec.clean_columns {e : Exec} (clean : e.Clean) : ∀ c ∈ e.columns, Dsv.Clean c := by
  obtain ⟨accnt, instr, ref, cpty⟩ := clean
  obtain ⟨side, state, liqInd⟩ := clean_names e.side e.state e.liqInd
  simp [columns, clean_insertInt, clean_orEmpty, clean_day, time, accnt, instr, ref, cpty, side, state, liqInd]

/-! ## Files -/

theorem clean_headers :
    ∀ header ∈ [Table.asset.header, Table.instr.header, Table.market.header, Table.order.header, Table.exec.header,
      Table.trade.header, Table.posn.header], ∀ name ∈ header, tab ∉ bytes name ∧ Dsv.newline ∉ bytes name := by
  decide +kernel

/-- Which records of clean text come back from their files as they were. -/
theorem files_come_back_iff (as : List Asset) (is : List Instr) (ms : List KeyedMarket) (os : List Order) (es ts : List Exec)
    (ps : List KeyedPosn) :
    ((∀ a ∈ as, a.Clean) → (Table.asset.ofFile (Table.asset.toFile as) = as.map some ↔ ∀ a ∈ as, a.Kept)) ∧
    ((∀ i ∈ is, i.Clean) → (Table.instr.ofFile (Table.instr.toFile is) = is.map some ↔ ∀ i ∈ is, i.Kept)) ∧
    ((∀ m ∈ ms, m.Clean) → (Table.market.ofFile (Table.market.toFile ms) = ms.map some ↔ ∀ m ∈ ms, m.Kept)) ∧
    ((∀ o ∈ os, o.Clean) → (Table.order.ofFile (Table.order.toFile os) = os.map some ↔ os = [])) ∧
    ((∀ e ∈ es, e.Clean) → (Table.exec.ofFile (Table.exec.toFile es) = es.map some ↔ es = [])) ∧
    ((∀ t ∈ ts, t.Clean) → (Table.trade.ofFile (Table.trade.toFile ts) = ts.map some ↔ ts = [])) ∧
    ((∀ p ∈ ps, p.Clean) → (Table.posn.ofFile (Table.posn.toFile ps) = ps.map some ↔ ∀ p ∈ ps, p.Kept)) := by
  have header := clean_headers
  rw [List.forall_mem_cons, List.forall_mem_cons, List.forall_mem_cons, List.forall_mem_cons, List.forall_mem_cons,
    List.forall_mem_cons, List.forall_mem_cons] at header
  obtain ⟨asset, instr, market, order, exec, trade, posn, -⟩ := header
  refine ⟨fun clean => ?_, fun clean => ?_, fun clean => ?_, fun clean => ?_, fun clean => ?_, fun clean => ?_, fun clean => ?_⟩
  · rw [Table.comes_back_iff (fun _ _ => Asset.ofRow_congr) asset fun a inside => Asset.clean_columns (clean a inside)]
    exact forall₂_congr fun a _ => a.ofRow_iff
  · rw [Table.comes_back_iff (fun _ _ => Instr.ofRow_congr) instr fun i inside => Instr.clean_columns (clean i inside)]
    exact forall₂_congr fun i _ => i.ofRow_iff
  · rw [Table.comes_back_iff (fun _ _ => KeyedMarket.ofRow_congr) market
      fun m inside => KeyedMarket.clean_columns (clean m inside)]
    exact forall₂_congr fun m _ => m.ofRow_iff
  · exact Table.never_comes_back (fun _ _ => Order.ofRow_congr) order
      (fun o inside => Order.clean_columns (clean o inside)) Order.ofRow_columns
  · exact @Table.never_comes_back _ Table.exec (fun _ _ => Exec.ofRow_congr) exec _
      (fun e inside => Exec.clean_columns (clean e inside)) Exec.ofRow_columns
  · exact @Table.never_comes_back _ Table.trade (fun _ _ => Exec.ofTradeRow_congr) trade _
      (fun t inside => Exec.clean_columns (clean t inside)) Exec.ofTradeRow_columns
  · rw [Table.comes_back_iff (fun _ _ => KeyedPosn.ofRow_congr) posn
      fun p inside => KeyedPosn.clean_columns (clean p inside)]
    exact forall₂_congr fun p _ => p.ofRow_iff

/-- A market without a settlement day. -/
def settled : KeyedMarket := ⟨1, { (default : Market) with instr := .assign (bytes "EURUSD"), lastLots := -7, lastTime := 5000000 }⟩

def resting : Order := .make (.assign (bytes "MARAYL")) 1 (.assign (bytes "EURUSD")) 0 1 (bytes "apple") .buy 10 12345 1 0

theorem files_come_back_settled :
    Table.market.ofFile (Table.market.toFile [settled]) = [some settled] ∧
    ¬ Table.order.ofFile (Table.order.toFile [resting]) = [some resting] := by
  obtain ⟨-, -, market, order, -⟩ := files_come_back_iff [] [] [settled] [resting] [] [] []
  constructor
  · apply (market (List.forall_mem_singleton.mpr ⟨by decide +kernel, by decide +kernel⟩)).mpr
    rw [List.forall_mem_singleton]
    exact
      { id := ⟨by decide, by decide⟩
        instr := (by decide +kernel : Symbol.assign (toStringView settled.market.instr.buf) = settled.market.instr)
        settlDay := Or.inl rfl
        state := by decide
        lastLots := ⟨by decide, by decide⟩
        lastTicks := ⟨fun _ => rfl, by decide, by decide⟩
        lastTime := ⟨by decide, by decide, by decide, by decide⟩
        sides := ⟨rfl, rfl⟩
        maxId := ⟨by decide, by decide⟩ }
  · have clean : resting.Clean :=
      ⟨⟨by decide +kernel, by decide +kernel⟩, ⟨by decide +kernel, by decide +kernel⟩, by decide +kernel, by decide +kernel⟩
    exact fun same => List.cons_ne_nil _ _ ((order (List.forall_mem_singleton.mpr clean)).mp same)

/-- A lot of a million and a tick of a ten-thousandth. -/
def eurUsd : Instr :=
  { id := 1, symbol := .assign (bytes "EURUSD"), display := .assign (bytes "EURUSD"), baseAsset := .assign (bytes "EUR"),
    termCcy := .assign (bytes "USD"), lotNumer := 1000000, lotDenom := 1, tickNumer := 1, tickDenom := 10000, pipDp := 4,
    minLots := 1, maxLots := 10 }

theorem files_differ :
    Table.instr.ofFile (Table.instr.toFile [eurUsd]) =
      [some { eurUsd with lotNumer := 1, lotDenom := 10000, tickNumer := 1000000, tickDenom := 1 }] ∧
    Table.order.ofFile (Table.order.toFile [resting]) = [none] := by
  constructor
  · have clean : ∀ i ∈ [eurUsd], ∀ c ∈ i.columns, tab ∉ c ∧ Dsv.newline ∉ c := by decide +kernel
    rw [Table.ofFile_toFile (fun _ _ => Instr.ofRow_congr) (clean_headers _ (by simp)) clean]
    show [Instr.ofRow eurUsd.columns] = _
    decide +kernel
  · have clean : ∀ o ∈ [resting], ∀ c ∈ o.columns, tab ∉ c ∧ Dsv.newline ∉ c := by decide +kernel
    rw [Table.ofFile_toFile (fun _ _ => Order.ofRow_congr) (clean_headers _ (by simp)) clean]
    show [Order.ofRow resting.columns] = _
    rw [Order.ofRow_columns]

end Swirly

import Mathlib
import Swirly.Db.ReadPosn
import Swirly.Verified.App.View

/-!
# Rolling settled positions

The positions that are read back are those of the rows, filed under the account and the market of the first row with the
same key.  The key of a settled row is what the mask leaves of the market's id, but the id of a market without settlement
day has the bits of the truncated day zero, which are 50368 and not zero.
-/

namespace Swirly

variable {busDay : Int} {rows : List PosnViewRow} {k : PosnKey} {p : KeyedPosn}

theorem key_eq_iff {row other : PosnViewRow} : row.key busDay = other.key busDay ↔
    Symbol.assign row.accnt = .assign other.accnt ∧ row.rolledId busDay = other.rolledId busDay := by
  simp [PosnViewRow.key]

/-! ## The rows of a key -/

/-- The position of some rows with the same key. -/
def keyedPosn (busDay : Int) : List PosnViewRow → Option KeyedPosn
  | [] => none
  | row :: rows => some { row.keyed busDay with posn := (row :: rows).foldl (fun posn row => row.addTo posn) .make }

theorem keyedPosn_snoc (busDay : Int) (rows : List PosnViewRow) (row : PosnViewRow) :
    keyedPosn busDay (rows ++ [row]) =
      some { (keyedPosn busDay rows).getD (row.keyed busDay) with
        posn := row.addTo ((keyedPosn busDay rows).getD (row.keyed busDay)).posn } := by
  cases rows with
  | nil => rfl
  | cons first rows => simp [keyedPosn]

theorem find_readRows (rows : List PosnViewRow) (k : PosnKey) :
    (rows.foldl (readRow busDay) ∅).find k = keyedPosn busDay (rows.filter fun row => row.key busDay = k) := by
  induction rows using List.reverseRecOn with
  | nil => rfl
  | append_singleton rows row inductionHypothesis =>
    rw [List.foldl_append, List.foldl_cons, List.foldl_nil, readRow, OrdMap.find_put, List.filter_append]
    by_cases here : row.key busDay = k
    · subst here
      have alone : [row].filter (fun other => other.key busDay = row.key busDay) = [row] := by simp
      rw [if_pos rfl, alone, keyedPosn_snoc, inductionHypothesis]
    · simp [Ne.symm here, here, inductionHypothesis]

theorem mem_doReadPosn : p ∈ doReadPosn rows busDay ↔
    ∃ k, keyedPosn busDay (rows.filter fun row => row.key busDay = k) = some p := by
  simp only [doReadPosn, List.mem_map, Prod.exists, OrdMap.mem_entries, find_readRows]
  constructor
  · intro ⟨k, q, found, same⟩
    exact ⟨k, same ▸ found⟩
  · intro ⟨k, found⟩
    exact ⟨k, p, found, rfl⟩

/-- A position is that of its first row. -/
theorem first_row (found : keyedPosn busDay (rows.filter fun row => row.key busDay = k) = some p) :
    ∃ before row after, rows = before ++ row :: after ∧ (∀ earlier ∈ before, earlier.key busDay ≠ k) ∧ row.key busDay = k ∧
      { p with posn := .make } = row.keyed busDay := by
  cases kept : rows.filter fun row => row.key busDay = k with
  | nil =>
    rw [kept] at found
    cases found
  | cons row later =>
    rw [kept] at found
    cases found
    obtain ⟨before, after, rfl, others, here, -⟩ := List.filter_eq_cons_iff.mp kept
    exact ⟨before, row, after, rfl, fun earlier member => by simpa using others earlier member, by simpa using here, rfl⟩

/-! ## Totals -/

/-- No position has rows of two instruments. -/
def Unmixed (busDay : Int) (rows : List PosnViewRow) : Prop :=
  ∀ row ∈ rows, ∀ other ∈ rows, row.key busDay = other.key busDay → Symbol.assign row.instr = Symbol.assign other.instr

instance (busDay : Int) (rows : List PosnViewRow) : Decidable (Unmixed busDay rows) :=
  inferInstanceAs (Decidable (∀ row ∈ rows, ∀ other ∈ rows, row.key busDay = other.key busDay → _))

theorem sum_readRows {f : Posn → Int} {g : PosnViewRow → Int} (nothing : f .make = 0)
    (adds : ∀ row posn, f (row.addTo posn) = f posn + g row) (unmixed : Unmixed busDay rows) (a x : Symbol) :
    (rows.foldl (readRow busDay) ∅).sum (fun p => if p.accnt = a ∧ p.instr = x then f p.posn else 0) =
      (rows.map fun row => if .assign row.accnt = a ∧ .assign row.instr = x then g row else 0).sum := by
  induction rows using List.reverseRecOn with
  | nil => rfl
  | append_singleton rows row inductionHypothesis =>
    have before := inductionHypothesis fun row member other member' => unmixed row (by simp [member]) other (by simp [member'])
    rw [List.foldl_append, List.foldl_cons, List.foldl_nil, readRow, List.map_append, List.sum_append, ← before]
    cases found : (rows.foldl (readRow busDay) ∅).find (row.key busDay) with
    | none =>
      rw [OrdMap.sum_put_of_none found]
      simp only [Option.getD_none, PosnViewRow.keyed, adds, nothing, List.map_cons, List.map_nil, List.sum_singleton,
        zero_add]
    | some p =>
      rw [OrdMap.sum_put_of_some found]
      rw [find_readRows] at found
      obtain ⟨earlier, first, later, rfl, -, here, same⟩ := first_row found
      have accnt : p.accnt = .assign row.accnt := (congrArg KeyedPosn.accnt same).trans (key_eq_iff.mp here).1
      have instr : p.instr = .assign row.instr :=
        (congrArg KeyedPosn.instr same).trans (unmixed first (by simp) row (by simp) here)
      simp only [Option.getD_some, accnt, instr, adds, List.map_cons, List.map_nil, List.sum_singleton]
      split <;> omega

namespace Posn

def lots (posn : Posn) : Side → Int
  | .buy => posn.buyLots
  | .sell => posn.sellLots

def cost (posn : Posn) : Side → Int
  | .buy => posn.buyCost
  | .sell => posn.sellCost

variable (row : PosnViewRow) (posn : Posn) (side : Side)

theorem lots_addTo : (row.addTo posn).lots side = posn.lots side + if row.side = side then row.lots else 0 := by
  cases side <;> cases same : row.side <;> simp [PosnViewRow.addTo, same, lots, addBuyCost, addSellCost]

theorem cost_addTo : (row.addTo posn).cost side = posn.cost side + if row.side = side then row.cost else 0 := by
  cases side <;> cases same : row.side <;> simp [PosnViewRow.addTo, same, cost, addBuyCost, addSellCost]

end Posn

theorem sum_filter_map {α : Type} (own : α → Prop) [DecidablePred own] (f : α → Int) (all : List α) :
    ((all.filter fun x => own x).map f).sum = (all.map fun x => if own x then f x else 0).sum := by
  induction all with
  | nil => rfl
  | cons x all inductionHypothesis => by_cases holds : own x <;> simp [holds, inductionHypothesis]

/-- The row apart from its amounts. -/
def PosnViewRow.unpriced (row : PosnViewRow) : PosnViewRow := { row with lots := 0, cost := 0 }

/-- What does not read the amounts. -/
theorem PosnViewRow.of_unpriced {α : Type} {row other : PosnViewRow} (same : row.unpriced = other.unpriced)
    (f : PosnViewRow → α) (blind : ∀ row, f row.unpriced = f row) : f row = f other := by
  rw [← blind row, same, blind other]

/-! ## What a reader of the positions relies on -/

/-- The positions are those of the rows: `instrId` is the id of an instrument, and the positions are loaded into an engine
that has none. -/
structure Consistent (instrId : Symbol → Int) (busDay : Int) (rows : List PosnViewRow) : Prop where
  marketId : ∀ p ∈ doReadPosn rows busDay, p.marketId = toMarketId (instrId p.instr) p.settlDay
  keys : ((doReadPosn rows busDay).map fun p => (p.accnt, p.marketId)).Nodup
  lots : ∀ a x side, (((doReadPosn rows busDay).filter fun p => p.accnt = a ∧ p.instr = x).map fun p => p.posn.lots side).sum =
    ((rows.filter fun row => .assign row.accnt = a ∧ .assign row.instr = x ∧ row.side = side).map PosnViewRow.lots).sum
  cost : ∀ a x side, (((doReadPosn rows busDay).filter fun p => p.accnt = a ∧ p.instr = x).map fun p => p.posn.cost side).sum =
    ((rows.filter fun row => .assign row.accnt = a ∧ .assign row.instr = x ∧ row.side = side).map PosnViewRow.cost).sum
  found : ∀ capacity maxExecs, ∀ p ∈ doReadPosn rows busDay, p.settlDay = 0 →
    ((((doReadPosn rows busDay).map KeyedPosn.entry).foldl App.loadPosn (.make capacity maxExecs)).sess p.accnt).posns.find
      (toMarketId (instrId p.instr) 0) = some p.posn

/-- The row is filed under the key of an earlier row that is not settled. -/
def Anchored (busDay : Int) (rows : List PosnViewRow) : Prop :=
  ∀ before row after, rows = before ++ row :: after → row.Settled busDay →
    ∃ earlier ∈ before, earlier.key busDay = row.key busDay ∧ ¬earlier.Settled busDay

/-- The positions of an account and an instrument add up to the rows of these. -/
theorem sum_doReadPosn {f : Posn → Side → Int} {amount : PosnViewRow → Int} (nothing : ∀ side, f .make side = 0)
    (adds : ∀ row posn side, f (row.addTo posn) side = f posn side + if row.side = side then amount row else 0)
    (unmixed : Unmixed busDay rows) (a x : Symbol) (side : Side) :
    (((doReadPosn rows busDay).filter fun p => p.accnt = a ∧ p.instr = x).map fun p => f p.posn side).sum =
      ((rows.filter fun row => .assign row.accnt = a ∧ .assign row.instr = x ∧ row.side = side).map amount).sum := by
  have total := sum_readRows (f := fun posn => f posn side) (nothing side) (fun row posn => adds row posn side) unmixed a x
  rw [sum_filter_map, sum_filter_map]
  simpa [OrdMap.sum, doReadPosn, Function.comp_def, ite_and] using total

/-- A position is filed under its account and its market. -/
theorem key_of_found (found : keyedPosn busDay (rows.filter fun row => row.key busDay = k) = some p) :
    k = toLex (p.accnt, p.marketId) := by
  obtain ⟨before, row, after, -, -, here, same⟩ := first_row found
  have accnt : p.accnt = .assign row.accnt := congrArg KeyedPosn.accnt same
  have marketId : p.marketId = row.rolledId busDay := congrArg KeyedPosn.marketId same
  rw [← here, accnt, marketId]
  rfl

theorem nodup_doReadPosn (rows : List PosnViewRow) (busDay : Int) :
    ((doReadPosn rows busDay).map fun p => (p.accnt, p.marketId)).Nodup := by
  have keys : (doReadPosn rows busDay).map (fun p => (p.accnt, p.marketId)) =
      (rows.foldl (readRow busDay) ∅).entries.map fun e => ofLex e.1 := by
    rw [doReadPosn, List.map_map]
    refine List.map_congr_left fun e member => ?_
    have found := OrdMap.mem_entries.mp member
    rw [find_readRows] at found
    rw [key_of_found found]
    rfl
  have nodup := (OrdMap.nodup_keys (rows.foldl (readRow busDay) ∅)).map ofLex.injective
  rw [List.map_map] at nodup
  rw [keys]
  exact nodup

namespace App

variable {app : App} {a : Symbol} {m : Int}

theorem find_loadPosn (app : App) (posn : PosnPtr × Posn) (a : Symbol) (m : Int) :
    ((app.loadPosn posn).sess a).posns.find m =
      if (a, m) = posn.1 then some (((app.sess a).posns.find m).getD posn.2) else (app.sess a).posns.find m := by
  obtain ⟨⟨b, n⟩, posn⟩ := posn
  simp only [loadPosn, sess, setSess, OrdMap.get_put, Prod.mk.injEq]
  by_cases own : a = b
  · subst own
    have same := sess_ensureSess app a a
    rw [sess] at same
    simp only [same, Sess.insertPosn, OrdMap.find_insert, sess, true_and, if_true]
    split
    next here => rw [here]
    next => rfl
  · have same := sess_ensureSess app b a
    rw [sess] at same
    simp [own, same, sess]

/-- A position that is there stays. -/
theorem find_loadPosns_of_some {posn : Posn} (posns : List (PosnPtr × Posn)) (present : (app.sess a).posns.find m = some posn) :
    ((posns.foldl loadPosn app).sess a).posns.find m = some posn := by
  induction posns generalizing app with
  | nil => exact present
  | cons first posns inductionHypothesis =>
    apply inductionHypothesis
    rw [find_loadPosn, present]
    split <;> rfl

theorem find_loadPosns {posns : List (PosnPtr × Posn)} {posn : Posn} (keys : (posns.map Prod.fst).Nodup)
    (absent : (app.sess a).posns.find m = none) (member : ((a, m), posn) ∈ posns) :
    ((posns.foldl loadPosn app).sess a).posns.find m = some posn := by
  induction posns generalizing app with
  | nil => cases member
  | cons first posns inductionHypothesis =>
    obtain ⟨new, keys⟩ := List.nodup_cons.mp keys
    cases List.mem_cons.mp member with
    | inl here =>
      subst here
      exact find_loadPosns_of_some posns (by rw [find_loadPosn, absent]; simp)
    | inr later =>
      refine inductionHypothesis keys ?_ later
      have other : (a, m) ≠ first.1 := fun same => new (same ▸ List.mem_map_of_mem later)
      rw [find_loadPosn, if_neg other, absent]

end App

/-! ## When they do -/

/-- The mask leaves no bits of a settlement day, but the id of a market without one has some. -/
theorem masked_ne (i m : Int) : m - m % 2 ^ 16 ≠ toMarketId i 0 := by
  simp only [toMarketId, jdToTjd, Int.bmod_def]
  omega

/-- Every market id is that of its instrument and its settlement day. -/
def Valid (instrId : Symbol → Int) (rows : List PosnViewRow) : Prop :=
  ∀ row ∈ rows, row.marketId = toMarketId (instrId (.assign row.instr)) row.day

instance (instrId : Symbol → Int) (rows : List PosnViewRow) : Decidable (Valid instrId rows) :=
  inferInstanceAs (Decidable (∀ row ∈ rows, _))

variable {instrId : Symbol → Int}

theorem Anchored.marketId (valid : Valid instrId rows) (anchored : Anchored busDay rows) (member : p ∈ doReadPosn rows busDay) :
    p.marketId = toMarketId (instrId p.instr) p.settlDay := by
  obtain ⟨k, found⟩ := mem_doReadPosn.mp member
  obtain ⟨before, row, after, split_, others, here, same⟩ := first_row found
  have open_ : ¬row.Settled busDay := fun settled => by
    obtain ⟨earlier, earlierThan, sameKey, -⟩ := anchored before row after split_ settled
    exact others earlier earlierThan (sameKey.trans here)
  have marketId : p.marketId = row.rolledId busDay := congrArg KeyedPosn.marketId same
  have settlDay : p.settlDay = row.rolledDay busDay := congrArg KeyedPosn.settlDay same
  have instr : p.instr = .assign row.instr := congrArg KeyedPosn.instr same
  rw [marketId, settlDay, instr, PosnViewRow.rolledId, PosnViewRow.rolledDay, if_neg open_, if_neg open_]
  exact valid row (by simp [split_])

theorem anchored_of_marketId (ids : ∀ p ∈ doReadPosn rows busDay, p.marketId = toMarketId (instrId p.instr) p.settlDay) :
    Anchored busDay rows := by
  intro before row after whole settled
  obtain ⟨k, here⟩ : ∃ k, k = row.key busDay := ⟨_, rfl⟩
  have kept : row ∈ rows.filter fun other => other.key busDay = k := by simp [whole, here]
  cases found : keyedPosn busDay (rows.filter fun other => other.key busDay = k) with
  | none =>
    cases none_ : rows.filter fun other => other.key busDay = k with
    | nil =>
      rw [none_] at kept
      cases kept
    | cons =>
      rw [none_] at found
      cases found
  | some p =>
    obtain ⟨earlier, first, later, split_, others, firstKey, same⟩ := first_row found
    have open_ : ¬first.Settled busDay := fun rolled => by
      have id := ids p (mem_doReadPosn.mpr ⟨k, found⟩)
      have marketId : p.marketId = first.rolledId busDay := congrArg KeyedPosn.marketId same
      have settlDay : p.settlDay = first.rolledDay busDay := congrArg KeyedPosn.settlDay same
      rw [marketId, settlDay, PosnViewRow.rolledId, PosnViewRow.rolledDay, if_pos rolled, if_pos rolled] at id
      exact masked_ne _ _ id
    have differ : first ≠ row := fun same => open_ (same ▸ settled)
    refine ⟨first, ?_, firstKey.trans here, open_⟩
    rw [whole] at split_
    cases List.append_eq_append_iff.mp split_ with
    | inl longer =>
      obtain ⟨between, rfl, rest⟩ := longer
      cases between with
      | nil => exact absurd (List.cons.inj rest).1.symm differ
      | cons x between =>
        obtain ⟨rfl, -⟩ := List.cons.inj rest
        exact absurd here.symm (others row (by simp))
    | inr shorter =>
      obtain ⟨between, rfl, rest⟩ := shorter
      cases between with
      | nil => exact absurd (List.cons.inj rest).1 differ
      | cons x between =>
        obtain ⟨rfl, -⟩ := List.cons.inj rest
        simp

theorem Anchored.consistent (anchored : Anchored busDay rows) (valid : Valid instrId rows) (unmixed : Unmixed busDay rows) :
    Consistent instrId busDay rows where
  marketId _ member := anchored.marketId valid member
  keys := nodup_doReadPosn rows busDay
  lots := sum_doReadPosn (fun side => by cases side <;> rfl) (fun row posn side => posn.lots_addTo row side) unmixed
  cost := sum_doReadPosn (fun side => by cases side <;> rfl) (fun row posn side => posn.cost_addTo row side) unmixed
  found capacity maxExecs p member noDay := by
    have id := anchored.marketId valid member
    rw [noDay] at id
    rw [← id]
    refine App.find_loadPosns ?_ rfl (List.mem_map_of_mem member)
    rw [List.map_map]
    exact nodup_doReadPosn rows busDay

/-! ## Other amounts -/

variable {rows' : List PosnViewRow}

theorem Valid.unpriced (valid : Valid instrId rows) (same : rows'.map PosnViewRow.unpriced = rows.map PosnViewRow.unpriced) :
    Valid instrId rows' := by
  intro row member
  obtain ⟨other, member', equal⟩ := List.mem_map.mp (same ▸ List.mem_map_of_mem (f := PosnViewRow.unpriced) member)
  have id : other.marketId = row.marketId := PosnViewRow.of_unpriced equal PosnViewRow.marketId fun _ => rfl
  have instr : other.instr = row.instr := PosnViewRow.of_unpriced equal PosnViewRow.instr fun _ => rfl
  have day : other.day = row.day := PosnViewRow.of_unpriced equal PosnViewRow.day fun _ => rfl
  rw [← id, ← instr, ← day]
  exact valid other member'

theorem Unmixed.unpriced (unmixed : Unmixed busDay rows)
    (same : rows'.map PosnViewRow.unpriced = rows.map PosnViewRow.unpriced) : Unmixed busDay rows' := by
  intro row member other member' here
  obtain ⟨row₀, known, equal⟩ := List.mem_map.mp (same ▸ List.mem_map_of_mem (f := PosnViewRow.unpriced) member)
  obtain ⟨other₀, known', equal'⟩ := List.mem_map.mp (same ▸ List.mem_map_of_mem (f := PosnViewRow.unpriced) member')
  have key : row₀.key busDay = row.key busDay := PosnViewRow.of_unpriced equal (PosnViewRow.key busDay) fun _ => rfl
  have key' : other₀.key busDay = other.key busDay := PosnViewRow.of_unpriced equal' (PosnViewRow.key busDay) fun _ => rfl
  have instr : row₀.instr = row.instr := PosnViewRow.of_unpriced equal PosnViewRow.instr fun _ => rfl
  have instr' : other₀.instr = other.instr := PosnViewRow.of_unpriced equal' PosnViewRow.instr fun _ => rfl
  rw [← instr, ← instr']
  exact unmixed row₀ known other₀ known' (key.trans (here.trans key'.symm))

theorem Anchored.unpriced (anchored : Anchored busDay rows)
    (same : rows'.map PosnViewRow.unpriced = rows.map PosnViewRow.unpriced) : Anchored busDay rows' := by
  intro before row after whole settled
  rw [whole, List.map_append, List.map_cons] at same
  obtain ⟨before₀, rest₀, rfl, sameBefore, sameRest⟩ := List.map_eq_append_iff.mp same.symm
  obtain ⟨row₀, after₀, rfl, equal, -⟩ := List.map_eq_cons_iff.mp sameRest
  have settled₀ : row₀.Settled busDay ↔ row.Settled busDay := by
    rw [PosnViewRow.of_unpriced equal (PosnViewRow.Settled busDay) fun _ => rfl]
  obtain ⟨earlier₀, member, sameKey, open_⟩ := anchored before₀ row₀ after₀ rfl (settled₀.mpr settled)
  obtain ⟨earlier, member', equal'⟩ :=
    List.mem_map.mp (sameBefore ▸ List.mem_map_of_mem (f := PosnViewRow.unpriced) member)
  refine ⟨earlier, member', ?_, ?_⟩
  · have key : row₀.key busDay = row.key busDay := PosnViewRow.of_unpriced equal (PosnViewRow.key busDay) fun _ => rfl
    have key' : earlier.key busDay = earlier₀.key busDay := PosnViewRow.of_unpriced equal' (PosnViewRow.key busDay) fun _ => rfl
    exact key'.trans (sameKey.trans key)
  · rwa [PosnViewRow.of_unpriced equal' (PosnViewRow.Settled busDay) fun _ => rfl]

/-- One lot for the rows of an instrument in a position, and none for the others. -/
def oneLot (busDay : Int) (k : PosnKey) (x : Symbol) (row : PosnViewRow) : PosnViewRow :=
  { row with lots := if row.key busDay = k ∧ .assign row.instr = x then 1 else 0, cost := 0 }

theorem filter_oneLot (busDay : Int) (j k : PosnKey) (x : Symbol) (rows : List PosnViewRow) :
    ((rows.map (oneLot busDay k x)).filter fun row => row.key busDay = j) =
      (rows.filter fun row => row.key busDay = j).map (oneLot busDay k x) := by
  rw [List.filter_map]
  rfl

theorem lots_foldl_zero (rows : List PosnViewRow) (none_ : ∀ row ∈ rows, row.lots = 0) (posn : Posn) (side : Side) :
    (rows.foldl (fun posn row => row.addTo posn) posn).lots side = posn.lots side := by
  induction rows generalizing posn with
  | nil => rfl
  | cons row rows inductionHypothesis =>
    obtain ⟨zero, none_⟩ := List.forall_mem_cons.mp none_
    rw [List.foldl_cons, inductionHypothesis none_, posn.lots_addTo, zero, ite_self, add_zero]

/-- A row of another instrument than the first of its position is counted under the first one's. -/
theorem unmixed_of_lots (lots : ∀ rows' : List PosnViewRow, rows'.map PosnViewRow.unpriced = rows.map PosnViewRow.unpriced →
      ∀ a x side, (((doReadPosn rows' busDay).filter fun p => p.accnt = a ∧ p.instr = x).map fun p => p.posn.lots side).sum =
        ((rows'.filter fun row => .assign row.accnt = a ∧ .assign row.instr = x ∧ row.side = side).map PosnViewRow.lots).sum) :
    Unmixed busDay rows := by
  -- Give one lot to the rows of `x` in a position whose first row is of another instrument.
  have first_only : ∀ k first later, (rows.filter fun row => row.key busDay = k) = first :: later →
      ∀ row ∈ rows, row.key busDay = k → Symbol.assign row.instr = Symbol.assign first.instr := by
    intro k first later kept row member here
    by_contra differ
    obtain ⟨x, instr⟩ : ∃ x, x = Symbol.assign row.instr := ⟨_, rfl⟩
    rw [← instr] at differ
    have total := lots (rows.map (oneLot busDay k x)) (by simp [oneLot, PosnViewRow.unpriced, Function.comp_def])
      (.assign row.accnt) x row.side
    have none_ : (((doReadPosn (rows.map (oneLot busDay k x)) busDay).filter fun p => p.accnt = .assign row.accnt ∧ p.instr = x).map
        fun p => p.posn.lots row.side).sum = 0 := by
      refine List.sum_eq_zero fun n counted => ?_
      obtain ⟨p, member, rfl⟩ := List.mem_map.mp counted
      obtain ⟨delivered, own⟩ := List.mem_filter.mp member
      obtain ⟨-, own⟩ := of_decide_eq_true own
      obtain ⟨j, found⟩ := mem_doReadPosn.mp delivered
      rw [filter_oneLot] at found
      cases kept' : rows.filter fun other => other.key busDay = j with
      | nil =>
        rw [kept'] at found
        cases found
      | cons first' later' =>
        rw [kept'] at found
        cases found
        have others : j ≠ k := fun same => by
          subst same
          obtain ⟨rfl, -⟩ := List.cons.inj (kept.symm.trans kept')
          exact differ own.symm
        refine (lots_foldl_zero _ (fun other member => ?_) _ _).trans (by cases row.side <;> rfl)
        obtain ⟨priced, filed, rfl⟩ : ∃ row ∈ first' :: later', oneLot busDay k x row = other := List.mem_map.mp member
        rw [← kept'] at filed
        have key : priced.key busDay = j := of_decide_eq_true (List.mem_filter.mp filed).2
        exact if_neg fun both => others (key.symm.trans both.1)
    have one : 1 ≤ (((rows.map (oneLot busDay k x)).filter fun other =>
        .assign other.accnt = Symbol.assign row.accnt ∧ .assign other.instr = x ∧ other.side = row.side).map PosnViewRow.lots).sum := by
      refine List.single_le_sum (fun n counted => ?_) 1 (List.mem_map.mpr ⟨oneLot busDay k x row, ?_, ?_⟩)
      · obtain ⟨other, member, rfl⟩ := List.mem_map.mp counted
        obtain ⟨other, -, rfl⟩ := List.mem_map.mp (List.mem_filter.mp member).1
        simp only [oneLot]
        split <;> decide
      · exact List.mem_filter.mpr ⟨List.mem_map_of_mem member, decide_eq_true ⟨rfl, instr.symm, rfl⟩⟩
      · exact if_pos ⟨here, instr.symm⟩
    omega
  intro row member other member' same
  cases kept : rows.filter fun earlier => earlier.key busDay = other.key busDay with
  | nil =>
    have none_ := List.filter_eq_nil_iff.mp kept other member'
    simp at none_
  | cons first later =>
    exact (first_only _ first later kept row member same).trans (first_only _ first later kept other member' rfl).symm

/-- The market ids are those of the settlement days, and the totals are kept whatever the amounts, exactly when every
settled row follows one that is not settled in its position, and no position has rows of two instruments. -/
theorem consistent_iff (instrId : Symbol → Int) (busDay : Int) (rows : List PosnViewRow) (valid : Valid instrId rows) :
    (∀ rows' : List PosnViewRow, rows'.map PosnViewRow.unpriced = rows.map PosnViewRow.unpriced →
      Consistent instrId busDay rows') ↔ Anchored busDay rows ∧ Unmixed busDay rows := by
  constructor
  · intro consistent
    exact ⟨anchored_of_marketId (consistent rows rfl).marketId, unmixed_of_lots fun rows' same => (consistent rows' same).lots⟩
  · intro ⟨anchored, unmixed⟩ rows' same
    exact (anchored.unpriced same).consistent (valid.unpriced same) (unmixed.unpriced same)

theorem anchored_of_open (open_ : ∀ row ∈ rows, ¬row.Settled busDay) : Anchored busDay rows := by
  intro before row after whole settled
  exact absurd settled (open_ row (by simp [whole]))

/-- What was bought and sold for a day that is still to come. -/
theorem consistent_open :
    let bought : PosnViewRow := ⟨bytes "MARAYL", toMarketId 1 2456733, bytes "EURUSD", some 2456733, .buy, 10, 1000⟩
    let sold : PosnViewRow := ⟨bytes "MARAYL", toMarketId 1 2456733, bytes "EURUSD", some 2456733, .sell, 4, 440⟩
    Consistent (fun _ => 1) 2456731 [bought, sold] := by
  intro bought sold
  have anchored : Anchored 2456731 [bought, sold] := anchored_of_open (by decide)
  exact (consistent_iff (fun _ => 1) 2456731 [bought, sold] (by decide)).mpr ⟨anchored, by decide⟩ _ rfl

/-- A row of a settled day is filed under 65536, but the id of the market without settlement day is 115904: a lookup there
finds nothing. -/
theorem rolled_lost :
    let row : PosnViewRow := ⟨bytes "MARAYL", toMarketId 1 2456729, bytes "EURUSD", some 2456729, .buy, 10, 1000⟩
    (doReadPosn [row] 2456731).map (fun p => (p.marketId, p.instr, p.settlDay)) = [(65536, .assign (bytes "EURUSD"), 0)] ∧
      toMarketId 1 0 = 115904 ∧
      (((((doReadPosn [row] 2456731).map KeyedPosn.entry).foldl App.loadPosn (.make 8 4)).sess
        (.assign (bytes "MARAYL"))).posns.find (toMarketId 1 0)) = none := by
  decide

end Swirly

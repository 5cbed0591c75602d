import Swirly.Lib.Run
import Swirly.Verified.Timer.Moves

/-!
# The ownership of timers

Every step keeps the invariant.  So in every run the timers there are own the elements of the slabs that are not free, the
pending timers have their entries and an owner outside the queue, and the heap is in order.
-/

namespace Swirly

namespace Timers

open TimerQueue

variable {t t' : Timers} {op : Op} {p q : ImplPtr}

/-! ## Steps -/

/-- Entries that go leave the others distinct. -/
theorem nodup_of_entries {gone heap heap' xs : List ImplPtr} (entries : (gone ++ heap').Perm heap)
    (nodup : (heap ++ xs).Nodup) : (heap' ++ xs).Nodup := by
  rw [← (entries.append_right xs).nodup_iff, List.append_assoc] at nodup
  exact (List.nodup_append.mp nodup).2.1

/-- An entry that stays, as it is not among those that go. -/
theorem mem_of_entries {gone heap heap' xs : List ImplPtr} (entries : (gone ++ heap').Perm heap) (somewhere : p ∈ heap ++ xs)
    (stays : p ∉ gone) : p ∈ heap' ++ xs := by
  rw [← (entries.append_right xs).mem_iff, List.append_assoc] at somewhere
  exact (List.mem_append.mp somewhere).resolve_left stays

theorem Base.proceeded {now n : Int} (base : t.Base) (proceeded : Proceeded t now n t') : t'.Inv := by
  cases proceeded with
  | @fired p tq due =>
    obtain ⟨idle, entries, notPending⟩ := due.entries
    have owners : (p :: (tq.heap ++ t.locals)).Perm (tq.heap ++ (t.handles ++ p :: t.fired)) := by
      refine List.perm_middle.symm.trans (List.Perm.append_left tq.heap ?_)
      exact List.perm_middle.symm
    have entriesAll : (idle ++ (p :: tq.heap)).Perm t.tq.heap := entries
    have placed : (tq.heap ++ p :: t.fired).Nodup := by
      rw [List.nodup_middle]
      exact nodup_of_entries entriesAll base.placed
    refine ⟨⟨⟨due.owned.perm owners, due.heap⟩, placed, fun q pending => ?_⟩, fun none_ => by cases none_⟩
    change tq.pending q at pending
    rw [pending_congr due.info] at pending
    obtain ⟨somewhere, outside⟩ := base.held q pending
    have stays : q ∉ idle := fun member => by simp [notPending q member] at pending
    exact ⟨List.perm_middle.mem_iff.mpr (mem_of_entries entriesAll somewhere stays), outside⟩
  | @returned tq drained =>
    obtain ⟨idle, entries, notPending⟩ := drained.entries
    refine ⟨⟨drained.toOrdered, nodup_of_entries entries base.placed, fun q pending => ?_⟩, fun _ => drained.fronted⟩
    change tq.pending q at pending
    rw [pending_congr drained.info] at pending
    obtain ⟨somewhere, outside⟩ := base.held q pending
    exact ⟨mem_of_entries entries somewhere fun member => by simp [notPending q member] at pending, outside⟩

/-- A pending timer is cancelled, and `handles` are those that are left. -/
theorem Base.cancelled {handles : List ImplPtr} {tq : TimerQueue} {trace : List Note} (base : t.Base)
    (cancelled : Cancelled (handles ++ t.fired) t.tq p tq) (left : ∀ q, q ≠ p → q ∈ t.handles → q ∈ handles) :
    Inv { t with tq, handles, trace } := by
  obtain ⟨gone, entries, idle⟩ := cancelled.entries
  refine ⟨⟨cancelled.toOrdered, nodup_of_entries entries base.placed, fun q pending => ?_⟩, fun _ => cancelled.fronted⟩
  change tq.pending q at pending
  have other : q ≠ p := fun here => by
    rw [here, pending_self cancelled.info] at pending
    cases pending
  rw [pending_update cancelled.info other] at pending
  obtain ⟨somewhere, outside⟩ := base.held q pending
  have stays : q ∉ gone := fun member => by
    cases idle q member with
    | inl here => exact other here
    | inr notPending => simp [notPending] at pending
  exact ⟨mem_of_entries entries somewhere stays, left q other outside⟩

theorem Inv.inserted {info : Timer.Info} {tq : TimerQueue} (inv : t.Inv) (inserted : Inserted t.locals t.tq p info tq) :
    Inv { t with tq, handles := p :: t.handles } := by
  have fresh := inserted.fresh
  have absent : p ∉ t.tq.heap ++ t.fired := fun member => by
    cases List.mem_append.mp member with
    | inl member => exact fresh (List.mem_append_left _ member)
    | inr member => exact fresh (List.mem_append_right _ (List.mem_append_right _ member))
  refine ⟨⟨inserted.toOrdered, ?_, fun q pending => ?_⟩, fun none_ => inserted.fronted (inv.fronted none_)⟩
  · change (tq.heap ++ t.fired).Nodup
    rw [(inserted.entries.append_right _).nodup_iff]
    exact List.nodup_cons.mpr ⟨absent, inv.placed⟩
  · change tq.pending q at pending
    change q ∈ tq.heap ++ t.fired ∧ q ∈ p :: t.handles
    rw [(inserted.entries.append_right _).mem_iff]
    by_cases here : q = p
    · rw [here]
      exact ⟨List.mem_cons_self, List.mem_cons_self⟩
    · rw [pending_update inserted.info here] at pending
      obtain ⟨somewhere, outside⟩ := inv.held q pending
      exact ⟨List.mem_cons_of_mem p somewhere, List.mem_cons_of_mem p outside⟩

theorem Inv.copied (inv : t.Inv) (member : p ∈ t.locals) :
    Inv { t with tq := t.tq.addRef p, handles := p :: t.handles } := by
  have owned := inv.ordered.owned.addRef (List.mem_append_right t.tq.heap member)
  have same : (t.tq.addRef p).pending = t.tq.pending := pending_congr info_addRef
  refine ⟨⟨⟨owned.perm List.perm_middle.symm, ?_⟩, inv.placed, fun q pending => ?_⟩, fun none_ q xs front => ?_⟩
  · rw [expiry_congr info_addRef]
    exact inv.ordered.heap
  · change (t.tq.addRef p).pending q at pending
    rw [same] at pending
    obtain ⟨somewhere, outside⟩ := inv.held q pending
    exact ⟨somewhere, List.mem_cons_of_mem p outside⟩
  · change (t.tq.addRef p).pending q
    rw [same]
    exact inv.fronted none_ q xs front

/-- One step keeps the invariant. -/
theorem Inv.moves (inv : t.Inv) (moves : Moves t op t') : t'.Inv := by
  cases moves with
  | inserted inserted => exact inv.inserted inserted
  | copied named => exact inv.copied (mem_of_deref named)
  | @dropped i p tq named ordered released kept =>
    have same := pending_congr released.info
    refine ⟨⟨ordered, ?_, fun q pending => ?_⟩, fun none_ q xs front => ?_⟩
    · change (tq.heap ++ t.fired).Nodup
      rw [released.heap]
      exact inv.placed
    · change tq.pending q at pending
      rw [same] at pending
      obtain ⟨somewhere, outside⟩ := inv.held q pending
      refine ⟨?_, ?_⟩
      · change q ∈ tq.heap ++ t.fired
        rwa [released.heap]
      · by_cases here : q = p
        · rw [here] at pending ⊢
          exact kept pending
        · exact (List.mem_cons.mp ((eraseIdx_perm named).mem_iff.mp outside)).resolve_left here
    · change tq.pending q
      change tq.heap = q :: xs at front
      rw [released.heap] at front
      rw [same]
      exact inv.fronted none_ q xs front
  | abandoned named pending once cancelled =>
    apply inv.toBase.cancelled cancelled
    intro q other outside
    exact (List.mem_cons.mp ((eraseIdx_perm named).mem_iff.mp outside)).resolve_left other
  | idle named idle => exact inv
  | cancelled named pending cancelled => exact inv.toBase.cancelled cancelled fun _ _ outside => outside
  | dispatched proceeded => exact inv.toBase.proceeded proceeded
  | finished running expired proceeded => exact (inv.toBase.expired running expired).proceeded proceeded

theorem Inv.step (inv : t.Inv) (stepped : Timers.step t op = some t') : t'.Inv := inv.moves (inv.toBase.of_step stepped)

theorem Inv.start : Inv {} := by
  have owned : TimerQueue.Owned {} [] := by
    constructor
    · simp
    · simp
    · simp
    · exact ⟨[], .nil, List.nodup_nil, fun p => by simp⟩
  refine ⟨⟨⟨owned, BinaryHeap.isHeap_nil⟩, List.nodup_nil, fun p pending => ?_⟩, fun _ p xs front => ?_⟩
  · cases pending
  · cases front

/-! ## Runs -/

/-- All the timers there are. -/
def objs (t : Timers) : List ImplPtr := t.tq.heap ++ t.locals

theorem inv_of_run {ops : List Op} {Allowed : Timers → Op → Prop} (run : Run step Allowed {} ops t) : t.Inv :=
  run.invariant (fun _ _ _ inv _ stepped => inv.step stepped) Inv.start

/-- A timer of the slabs is free or it is owned. -/
theorem Inv.free_or_owned (inv : t.Inv) : ∃ ps, Linked t.tq.freeLink t.tq.free ps ∧ ∀ p, p < t.tq.allocated →
    (ps.count p = 1 ∧ (t.tq.impls p).refCount = 0 ∧ t.objs.count p = 0) ∨
      (ps.count p = 0 ∧ 0 < (t.tq.impls p).refCount ∧ (t.tq.impls p).refCount = t.objs.count p) := by
  have owned := inv.ordered.owned
  obtain ⟨ps, linked, nodup, exact_⟩ := owned.free
  refine ⟨ps, linked, fun p small => ?_⟩
  have counted : (t.tq.impls p).refCount = t.objs.count p := owned.counted p
  by_cases member : p ∈ t.objs
  · have unlisted : p ∉ ps := fun listed => ((exact_ p).mp listed).2 member
    have positive := List.count_pos_iff.mpr member
    exact .inr ⟨List.count_eq_zero.mpr unlisted, by omega, counted⟩
  · have zero := List.count_eq_zero.mpr member
    exact .inl ⟨List.count_eq_one_of_mem nodup ((exact_ p).mpr ⟨small, member⟩), by rw [counted, zero]; rfl, zero⟩

/-- A pending timer has one entry or is being fired. -/
theorem Inv.placed_once (inv : t.Inv) (pending : t.tq.pending p) :
    (t.tq.heap.count p = 1 ∧ t.fired.count p = 0) ∨ (t.tq.heap.count p = 0 ∧ t.fired.count p = 1) := by
  have one := inv.toBase.count pending
  rw [List.count_append] at one
  omega

/-- An entry that the queue makes is of a timer that nothing refers to. -/
theorem Inv.insert_fresh (inv : t.Inv) {expiry interval : Int} {slot : TimerSlot} {tq : TimerQueue}
    (done : t.tq.insert expiry interval slot = some (p, tq)) : p ∉ t.objs := by
  obtain ⟨q, other, inserted, spec⟩ := inv.ordered.insert expiry interval slot
  obtain ⟨rfl, -⟩ : q = p ∧ other = tq := by simpa using inserted.symm.trans done
  exact spec.fresh

/-- When no callback is running, a queue with pending timers has one of them at the front. -/
theorem Inv.front_pending (inv : t.Inv) (quiet : t.frames = []) (pending : t.tq.pending p) :
    ∃ q xs, t.tq.heap = q :: xs ∧ t.tq.pending q := by
  obtain ⟨somewhere, -⟩ := inv.held p pending
  have noneFired : t.fired = [] := by
    unfold fired
    rw [quiet]
    rfl
  rw [noneFired, List.append_nil] at somewhere
  cases front : t.tq.heap with
  | nil => simp [front] at somewhere
  | cons q xs => exact ⟨q, xs, rfl, inv.fronted quiet q xs front⟩

theorem ownership_sound {ops : List Op} (run : Run step (fun _ _ => True) {} ops t) :
    (∃ ps, Linked t.tq.freeLink t.tq.free ps ∧ ∀ p, p < t.tq.allocated →
      (ps.count p = 1 ∧ (t.tq.impls p).refCount = 0 ∧ t.objs.count p = 0) ∨
        (ps.count p = 0 ∧ 0 < (t.tq.impls p).refCount ∧ (t.tq.impls p).refCount = t.objs.count p)) ∧
      (∀ expiry interval slot p tq, t.tq.insert expiry interval slot = some (p, tq) → p ∉ t.objs) ∧
      (∀ p, t.tq.pending p →
        ((t.tq.heap.count p = 1 ∧ t.fired.count p = 0) ∨ (t.tq.heap.count p = 0 ∧ t.fired.count p = 1)) ∧ p ∈ t.handles) ∧
      BinaryHeap.IsHeap t.tq.expiry t.tq.heap ∧
      (t.frames = [] → ∀ p, t.tq.pending p → ∃ q xs, t.tq.heap = q :: xs ∧ t.tq.pending q) ∧
      ∀ op, t.Ready op → (t.step op).isSome := by
  have inv := inv_of_run run
  refine ⟨inv.free_or_owned, fun _ _ _ _ _ => inv.insert_fresh, fun p pending => ?_, inv.ordered.heap, ?_, fun op ready => ?_⟩
  · exact ⟨inv.placed_once pending, (inv.held p pending).2⟩
  · exact fun quiet p => inv.front_pending quiet
  · obtain ⟨t', done, -⟩ := inv.toBase.moves ready
    exact Option.isSome_iff_exists.mpr ⟨t', done⟩

/-- A periodic timer is fired, its callback cancels another timer and gives up a third, and inserts a fourth. -/
theorem ownership_sound_nested : ∃ t ops, Run step (fun _ _ => True) {} ops t ∧ t.frames ≠ [] ∧ t.tq.pending 0 ∧
    ((t.tq.heap.count 0 = 1 ∧ t.fired.count 0 = 0) ∨ (t.tq.heap.count 0 = 0 ∧ t.fired.count 0 = 1)) := by
  obtain ⟨ops, isOps⟩ : ∃ ops : List Op, ops = [.insert 1 5 ⟨1, 1⟩, .insert 2 0 ⟨2, 1⟩, .insert 3 0 ⟨3, 1⟩, .dispatch 1,
    .cancel (.handle 1), .drop 0, .insert 9 0 ⟨4, 1⟩] := ⟨_, rfl⟩
  have made : ∃ t ∈ Run.exec step (fun _ _ => True) {} ops, t.frames ≠ [] ∧ t.tq.pending 0 := by
    rw [isOps]
    decide +kernel
  obtain ⟨t, done, running, pending⟩ := made
  have run := Run.of_exec done
  exact ⟨t, ops, run, running, pending, ((ownership_sound run).2.2.1 0 pending).1⟩

end Timers

end Swirly

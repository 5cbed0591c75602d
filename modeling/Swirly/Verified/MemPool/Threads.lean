import Swirly.Verified.MemPool.Link

/-!
# Threads on one free list

A link is published when an exchange of `push` makes it the head, and its tag makes it new at that moment.  So a head that
a call of `pop` has loaded either is still on the list, with the link that the call has read from its block, or is never
the head again.
-/

universe u

namespace Swirly

namespace MemEvent

variable {ι : Type u}

/-- By the events, the latest first, the block is on the list. -/
def OnList : List (MemEvent ι) → MemSize → Prop
  | [], _ => False
  | .pushed _ node :: earlier, b => b = node ∨ OnList earlier b
  | .popped _ node :: earlier, b => b ≠ node ∧ OnList earlier b

/-- A block is pushed only when it is off the list and popped only when it is on the list. -/
def Alternate : List (MemEvent ι) → Prop
  | [] => True
  | .pushed _ node :: earlier => ¬ OnList earlier node ∧ Alternate earlier
  | .popped _ node :: earlier => OnList earlier node ∧ Alternate earlier

end MemEvent

/-- The link that a call of `push` is about to make the head. -/
def MemCall.pending : MemCall → Option MemLink
  | load _ newHead | store _ newHead _ | push _ newHead _ => some newHead
  | _ => none

namespace MemThreads

variable {ι : Type u}

/-- What a call may rely on wherever it is suspended. -/
def Knows (next : MemSize → MemLink) (links published : List MemLink) (held : List MemSize) : MemCall → Prop
  | .idle => True
  | .load node newHead | .store node newHead _ => node ∈ held ∧ linkToOffset newHead = node
  | .push node newHead oldHead => node ∈ held ∧ linkToOffset newHead = node ∧ next node = oldHead
  | .read oldHead => oldHead ∈ published
  | .pop oldHead link => oldHead ∈ published ∧ (oldHead ∈ links → next (linkToOffset oldHead) = link)

/-- The blocks of the threads and those on the list are the blocks that the threads had at the start. -/
structure Owned (start held : ι → List MemSize) (nodes : List MemSize) : Prop where
  nodup : ∀ i, (held i).Nodup
  apart : ∀ i j, i ≠ j → (held i).Disjoint (held j)
  once : nodes.Nodup
  off : ∀ i, (held i).Disjoint nodes
  kept : ∀ b, (∃ i, b ∈ start i) ↔ (∃ i, b ∈ held i) ∨ b ∈ nodes

structure Issued (tag : MemTag) (calls : ι → MemCall) (links published : List MemLink) : Prop where
  listed : links ⊆ published
  tagged : ∀ link ∈ published, 0 < linkToTag link ∧ linkToTag link ≤ tag.toNat
  pending : ∀ i link, (calls i).pending = some link → link ∉ published ∧ 0 < linkToTag link ∧ linkToTag link ≤ tag.toNat
  unique : ∀ i j link, (calls i).pending = some link → (calls j).pending = some link → i = j

structure Inv (start s : MemThreads ι) (links published : List MemLink) : Prop where
  chain : Chain s.next s.stack.head links
  owned : Owned start.held s.held (links.map linkToOffset)
  issued : Issued s.stack.tag s.calls links published
  knows : ∀ i, Knows s.next links published (s.held i) (s.calls i)
  listed : ∀ b, b ∈ links.map linkToOffset ↔ MemEvent.OnList s.history b
  alternate : MemEvent.Alternate s.history

variable {start s t : MemThreads ι} {links published : List MemLink} {i j : ι} {node : MemSize} {newHead oldHead word : MemLink}

theorem Fresh.inv (fresh : s.Fresh) : Inv s s [] [] where
  chain := by
    rw [fresh.stack]
    exact .nil
  owned :=
    { nodup := fresh.nodup
      apart := fresh.apart
      once := .nil
      off := by simp
      kept := by simp }
  issued :=
    { listed := List.Subset.refl _
      tagged := by simp
      pending := by simp [fresh.calls, MemCall.pending]
      unique := by simp [fresh.calls, MemCall.pending] }
  knows i := by
    rw [fresh.calls]
    trivial
  listed := by simp [fresh.history, MemEvent.OnList]
  alternate := by
    rw [fresh.history]
    trivial

namespace Owned

variable [DecidableEq ι] {first held : ι → List MemSize} {nodes : List MemSize}

/-- A block goes from a thread to the list. -/
theorem push (owned : Owned first held nodes) (mine : node ∈ held i) :
    Owned first (Function.update held i ((held i).erase node)) (node :: nodes) := by
  have left (j : ι) (b : MemSize) : b ∈ Function.update held i ((held i).erase node) j ↔ b ∈ held j ∧ b ≠ node := by
    by_cases moved : j = i
    · obtain rfl := moved
      rw [Function.update_self, (owned.nodup j).mem_erase_iff, and_comm]
    · rw [Function.update_of_ne moved]
      refine (and_iff_left_of_imp fun member => ?_).symm
      rintro rfl
      exact owned.apart j i moved member mine
  constructor
  case nodup =>
    intro j
    by_cases moved : j = i
    · obtain rfl := moved
      rw [Function.update_self]
      exact (owned.nodup j).erase node
    · rw [Function.update_of_ne moved]
      exact owned.nodup j
  case apart =>
    intro j k differ b here there
    exact owned.apart j k differ ((left j b).mp here).1 ((left k b).mp there).1
  case once => exact List.nodup_cons.mpr ⟨owned.off i mine, owned.once⟩
  case off =>
    intro j b here there
    obtain ⟨before, differ⟩ := (left j b).mp here
    cases there with
    | head => exact differ rfl
    | tail _ there => exact owned.off j before there
  case kept =>
    intro b
    rw [owned.kept b]
    simp only [left, List.mem_cons]
    by_cases same : b = node
    · obtain rfl := same
      simp only [true_or, or_true, iff_true]
      exact .inl ⟨i, mine⟩
    · simp [same]

/-- A block goes from the list to a thread. -/
theorem pop (owned : Owned first held (node :: nodes)) (i : ι) :
    Owned first (Function.update held i (node :: held i)) nodes := by
  have right (j : ι) (b : MemSize) : b ∈ Function.update held i (node :: held i) j ↔ b ∈ held j ∨ j = i ∧ b = node := by
    by_cases moved : j = i
    · obtain rfl := moved
      rw [Function.update_self, List.mem_cons]
      simp [or_comm]
    · rw [Function.update_of_ne moved]
      simp [moved]
  have absent (j : ι) : node ∉ held j := fun member => owned.off j member List.mem_cons_self
  obtain ⟨fresh, once⟩ := List.nodup_cons.mp owned.once
  constructor
  case nodup =>
    intro j
    by_cases moved : j = i
    · obtain rfl := moved
      rw [Function.update_self]
      exact List.nodup_cons.mpr ⟨absent j, owned.nodup j⟩
    · rw [Function.update_of_ne moved]
      exact owned.nodup j
  case apart =>
    intro j k differ b here there
    rcases (right j b).mp here with first | ⟨rfl, rfl⟩
    · rcases (right k b).mp there with second | ⟨-, rfl⟩
      · exact owned.apart j k differ first second
      · exact absent j first
    · rcases (right k b).mp there with second | ⟨rfl, -⟩
      · exact absent k second
      · exact differ rfl
  case once => exact once
  case off =>
    intro j b here there
    rcases (right j b).mp here with here | ⟨-, rfl⟩
    · exact owned.off j here (List.mem_cons_of_mem _ there)
    · exact fresh there
  case kept =>
    intro b
    rw [owned.kept b]
    simp only [right, List.mem_cons]
    constructor
    · rintro (⟨j, here⟩ | rfl | there)
      · exact .inl ⟨j, .inl here⟩
      · exact .inl ⟨i, .inr ⟨rfl, rfl⟩⟩
      · exact .inr there
    · rintro (⟨j, here | ⟨-, rfl⟩⟩ | there)
      · exact .inl ⟨j, here⟩
      · exact .inr (.inl rfl)
      · exact .inr (.inr there)

end Owned

namespace Inv

/-- A published link is not zero. -/
theorem used (inv : Inv start s links published) {link : MemLink} (member : link ∈ published) : link ≠ 0 :=
  ne_zero_of_tag (inv.issued.tagged link member).1

/-- The head of a list that is not empty is published. -/
theorem head (inv : Inv start s links published) (used : s.stack.head ≠ 0) : s.stack.head ∈ published := by
  obtain ⟨rest, rfl, -⟩ := inv.chain.of_ne used
  exact inv.issued.listed List.mem_cons_self

/-- A block of a thread is in no other thread's call. -/
theorem not_pushing (inv : Inv start s links published) (held : node ∈ s.held i) (other : j ≠ i)
    (call : s.calls j = .push node newHead oldHead) : False := by
  have knows := inv.knows j
  rw [call] at knows
  exact inv.owned.apart j i other knows.1 held

variable [DecidableEq ι]

/-- A call goes on with the same link to publish, or with none. -/
theorem setCall (inv : Inv start s links published) {call : MemCall}
    (pending : call.pending = none ∨ call.pending = (s.calls i).pending)
    (knows : Knows s.next links published (s.held i) call) : Inv start (s.setCall i call) links published := by
  have same (j : ι) (link : MemLink) (now : ((s.setCall i call).calls j).pending = some link) :
      (s.calls j).pending = some link := by
    by_cases moved : j = i
    · obtain rfl := moved
      simp only [MemThreads.setCall, Function.update_self] at now
      rcases pending with none_ | same
      · rw [none_] at now
        cases now
      · rw [← same, now]
    · simpa [MemThreads.setCall, moved] using now
  exact
    { chain := inv.chain
      owned := inv.owned
      issued :=
        { listed := inv.issued.listed
          tagged := inv.issued.tagged
          pending := fun j link now => inv.issued.pending j link (same j link now)
          unique := fun j k link first second => inv.issued.unique j k link (same j link first) (same k link second) }
      knows := by
        intro j
        by_cases moved : j = i
        · obtain rfl := moved
          simpa [MemThreads.setCall] using knows
        · simpa [MemThreads.setCall, moved] using inv.knows j
      listed := inv.listed
      alternate := inv.alternate }

/-- The owner of a block writes to it. -/
theorem setNext (inv : Inv start s links published) (held : node ∈ s.held i)
    (own : ∀ newHead oldHead, s.calls i ≠ .push node newHead oldHead) (word : MemLink) :
    Inv start (s.setNext node word) links published where
  chain := inv.chain.write (inv.owned.off i held) word
  owned := inv.owned
  issued := inv.issued
  knows j := by
    have knows := inv.knows j
    simp only [MemThreads.setNext]
    cases call : s.calls j with
    | push other newHead oldHead =>
      rw [call] at knows
      obtain ⟨mine, offset, stored⟩ := knows
      refine ⟨mine, offset, ?_⟩
      have differ : other ≠ node := by
        rintro rfl
        by_cases same : j = i
        · obtain rfl := same
          exact own _ _ call
        · exact inv.not_pushing held same call
      rwa [Function.update_of_ne differ]
    | pop oldHead link =>
      rw [call] at knows
      obtain ⟨seen, read⟩ := knows
      refine ⟨seen, fun member => ?_⟩
      have differ : linkToOffset oldHead ≠ node := by
        rintro rfl
        exact inv.owned.off i held (List.mem_map_of_mem member)
      rw [Function.update_of_ne differ]
      exact read member
    | idle => trivial
    | load | store | read =>
      rw [call] at knows
      exact knows
  listed := inv.listed
  alternate := inv.alternate

/-- A new tag, while there are tags. -/
theorem callPush (inv : Inv start s links published) (idle : s.calls i = .idle) (held : node ∈ s.held i)
    (few : s.stack.tag.toNat + 1 < 2 ^ 32) : Inv start (s.callPush i node) links published := by
  have tag : (s.stack.tag + 1).toNat = s.stack.tag.toNat + 1 := by
    rw [UInt32.toNat_add]
    exact Nat.mod_eq_of_lt few
  have fresh (j : ι) (link : MemLink) (before : (s.calls j).pending = some link) : link ≠ makeLink (s.stack.tag + 1) node := by
    rintro rfl
    have issued := (inv.issued.pending j _ before).2.2
    rw [linkToTag_makeLink] at issued
    omega
  have pending (j : ι) (link : MemLink) (now : ((s.callPush i node).calls j).pending = some link) :
      (j = i ∧ link = makeLink (s.stack.tag + 1) node) ∨ (j ≠ i ∧ (s.calls j).pending = some link) := by
    by_cases moved : j = i
    · obtain rfl := moved
      simp only [MemThreads.callPush, MemThreads.setCall, Function.update_self, MemCall.pending, Option.some.injEq] at now
      exact .inl ⟨rfl, now.symm⟩
    · exact .inr ⟨moved, by simpa [MemThreads.callPush, MemThreads.setCall, moved] using now⟩
  have grown : (s.callPush i node).stack.tag.toNat = s.stack.tag.toNat + 1 := tag
  exact
    { chain := inv.chain
      owned := inv.owned
      issued :=
        { listed := inv.issued.listed
          tagged := by
            intro link member
            have tagged := inv.issued.tagged link member
            omega
          pending := by
            intro j link now
            rcases pending j link now with ⟨-, rfl⟩ | ⟨-, before⟩
            · rw [linkToTag_makeLink]
              refine ⟨fun member => ?_, by omega⟩
              have tagged := (inv.issued.tagged _ member).2
              rw [linkToTag_makeLink] at tagged
              omega
            · obtain ⟨unpublished, tagged⟩ := inv.issued.pending j link before
              exact ⟨unpublished, by omega⟩
          unique := by
            intro j k link first second
            rcases pending j link first with ⟨rfl, new⟩ | ⟨-, before⟩
            · rcases pending k link second with ⟨rfl, -⟩ | ⟨-, other⟩
              · rfl
              · exact absurd new (fresh k link other)
            · rcases pending k link second with ⟨rfl, new⟩ | ⟨-, other⟩
              · exact absurd new (fresh j link before)
              · exact inv.issued.unique j k link before other }
      knows := by
        intro j
        by_cases moved : j = i
        · obtain rfl := moved
          simpa [MemThreads.callPush, MemThreads.setCall, Knows] using held
        · simpa [MemThreads.callPush, MemThreads.setCall, moved] using inv.knows j
      listed := inv.listed
      alternate := inv.alternate }

/-- A call that ends publishes nothing any more, and the other calls have what they had. -/
theorem pending_of_update {calls : ι → MemCall} {link : MemLink}
    (now : (Function.update calls i .idle j).pending = some link) : j ≠ i ∧ (calls j).pending = some link := by
  by_cases moved : j = i
  · obtain rfl := moved
    simp [MemCall.pending] at now
  · exact ⟨moved, by simpa [moved] using now⟩

/-- The exchange of `push`. -/
theorem pushed (inv : Inv start s links published) (call : s.calls i = .push node newHead s.stack.head) :
    Inv start (s.pushed i node newHead) (newHead :: links) (newHead :: published) := by
  have knows := inv.knows i
  rw [call] at knows
  obtain ⟨mine, offset, stored⟩ := knows
  have now : (s.calls i).pending = some newHead := by rw [call, MemCall.pending]
  obtain ⟨unpublished, tagged⟩ := inv.issued.pending i newHead now
  have nodes : (newHead :: links).map linkToOffset = node :: links.map linkToOffset := by rw [List.map_cons, offset]
  constructor
  case chain =>
    rw [← offset] at stored
    exact inv.chain.push (ne_zero_of_tag tagged.1) stored
  case owned =>
    rw [nodes]
    exact inv.owned.push mine
  case issued =>
    constructor
    case listed => exact List.cons_subset_cons _ inv.issued.listed
    case tagged => exact List.forall_mem_cons.mpr ⟨tagged, inv.issued.tagged⟩
    case pending =>
      intro j link later
      obtain ⟨other, before⟩ := pending_of_update later
      obtain ⟨absent, issued⟩ := inv.issued.pending j link before
      refine ⟨fun member => ?_, issued⟩
      cases member with
      | head => exact other (inv.issued.unique j i _ before now)
      | tail _ member => exact absent member
    case unique =>
      intro j k link first second
      exact inv.issued.unique j k link (pending_of_update first).2 (pending_of_update second).2
  case knows =>
    intro j
    by_cases moved : j = i
    · obtain rfl := moved
      simp [MemThreads.pushed, MemThreads.setCall, Knows]
    · have knows := inv.knows j
      simp only [MemThreads.pushed, MemThreads.setCall, MemThreads.setHeld, Function.update_of_ne moved]
      cases other : s.calls j with
      | idle => trivial
      | load | store | push =>
        rw [other] at knows
        exact knows
      | read =>
        rw [other] at knows
        exact List.mem_cons_of_mem _ knows
      | pop oldHead link =>
        rw [other] at knows
        obtain ⟨seen, read⟩ := knows
        refine ⟨List.mem_cons_of_mem _ seen, fun member => ?_⟩
        -- The link that is published now is not one that a call has loaded before.
        cases member with
        | head => exact absurd seen unpublished
        | tail _ member => exact read member
  case listed =>
    intro b
    rw [nodes, List.mem_cons, inv.listed b]
    rfl
  case alternate => exact ⟨fun listed => inv.owned.off i mine ((inv.listed node).mpr listed), inv.alternate⟩

/-- The exchange of `pop`. -/
theorem popped (inv : Inv start s links published) (call : s.calls i = .pop s.stack.head word) :
    ∃ rest, Inv start (s.popped i (linkToOffset s.stack.head) word) rest published := by
  have knows := inv.knows i
  rw [call] at knows
  obtain ⟨seen, read⟩ := knows
  obtain ⟨rest, split, tail⟩ := inv.chain.of_ne (inv.used seen)
  have listed : s.stack.head ∈ links := by
    rw [split]
    exact List.mem_cons_self
  have owned := inv.owned
  rw [split, List.map_cons] at owned
  refine ⟨rest, ?_⟩
  constructor
  case chain =>
    rw [read listed] at tail
    exact tail
  case owned => exact owned.pop i
  case issued =>
    constructor
    case listed =>
      intro link member
      apply inv.issued.listed
      rw [split]
      exact List.mem_cons_of_mem _ member
    case tagged => exact inv.issued.tagged
    case pending =>
      intro j link later
      exact inv.issued.pending j link (pending_of_update later).2
    case unique =>
      intro j k link first second
      exact inv.issued.unique j k link (pending_of_update first).2 (pending_of_update second).2
  case knows =>
    intro j
    by_cases moved : j = i
    · obtain rfl := moved
      simp [MemThreads.popped, MemThreads.setCall, Knows]
    · have knows := inv.knows j
      simp only [MemThreads.popped, MemThreads.setCall, MemThreads.setHeld, Function.update_of_ne moved]
      cases other : s.calls j with
      | idle => trivial
      | load | store | push | read =>
        rw [other] at knows
        exact knows
      | pop oldHead link =>
        rw [other] at knows
        obtain ⟨seen, read⟩ := knows
        refine ⟨seen, fun member => read ?_⟩
        rw [split]
        exact List.mem_cons_of_mem _ member
  case listed =>
    intro b
    obtain ⟨fresh, -⟩ := List.nodup_cons.mp owned.once
    have before := inv.listed b
    rw [split, List.map_cons, List.mem_cons] at before
    simp only [MemThreads.popped, MemThreads.setCall, MemThreads.setHeld, MemEvent.OnList, ← before]
    constructor
    · intro member
      refine ⟨?_, .inr member⟩
      rintro rfl
      exact fresh member
    · rintro ⟨differ, same | member⟩
      · exact absurd same differ
      · exact member
  case alternate => exact ⟨(inv.listed _).mp (List.mem_map_of_mem listed), inv.alternate⟩

/-- A block changes hands. -/
theorem hand (inv : Inv start s links published) (idle : s.calls i = .idle) (held : node ∈ s.held i) (j : ι) :
    Inv start ((s.setHeld i ((s.held i).erase node)).setHeld j
      (node :: (s.setHeld i ((s.held i).erase node)).held j)) links published where
  chain := inv.chain
  owned := (inv.owned.push held).pop j
  issued := inv.issued
  knows k := by
    have knows := inv.knows k
    by_cases giver : k = i
    · obtain rfl := giver
      simp [MemThreads.setHeld, idle, Knows]
    · have more : s.held k ⊆ Function.update (Function.update s.held i ((s.held i).erase node)) j
          (node :: Function.update s.held i ((s.held i).erase node) j) k := by
        by_cases receiver : k = j
        · obtain rfl := receiver
          rw [Function.update_self, Function.update_of_ne giver]
          exact List.subset_cons_self _ _
        · rw [Function.update_of_ne receiver, Function.update_of_ne giver]
          exact List.Subset.refl _
      simp only [MemThreads.setHeld]
      cases other : s.calls k with
      | idle => trivial
      | load | store | push =>
        rw [other] at knows
        exact ⟨more knows.1, knows.2⟩
      | read | pop =>
        rw [other] at knows
        exact knows
  listed := inv.listed
  alternate := inv.alternate

/-- The top of the loop in `pop`. -/
theorem top (inv : Inv start s links published) (i : ι) : Inv start (s.setCall i (.top s.stack.head)) links published := by
  apply inv.setCall
  case pending =>
    rw [MemCall.top]
    split
    next => exact .inl rfl
    next => exact .inl rfl
  case knows =>
    rw [MemCall.top]
    split
    next => trivial
    next used => exact inv.head used

theorem stepCall (inv : Inv start s links published) {spurious : Bool}
    (stepped : s.stepCall i spurious (s.calls i) = some t) :
    t.stack.tag = s.stack.tag ∧ ∃ links published, Inv start t links published := by
  have knows := inv.knows i
  cases call : s.calls i with
  | idle =>
    rw [call] at stepped
    cases stepped
  | load node newHead =>
    rw [call] at stepped knows
    cases stepped
    refine ⟨rfl, links, published, inv.setCall (.inr ?_) knows⟩
    rw [call, MemCall.pending, MemCall.pending]
  | store node newHead oldHead =>
    rw [call] at stepped knows
    cases stepped
    have written := inv.setNext knows.1 (by simp [call]) oldHead
    refine ⟨rfl, links, published, written.setCall (.inr ?_) ⟨knows.1, knows.2, ?_⟩⟩
    · rw [MemThreads.setNext, call, MemCall.pending, MemCall.pending]
    · simp [MemThreads.setNext]
  | push node newHead oldHead =>
    rw [call] at stepped knows
    simp only [MemThreads.stepCall] at stepped
    split at stepped
    next same =>
      obtain ⟨rfl, -⟩ := same
      cases stepped
      exact ⟨rfl, _, _, inv.pushed call⟩
    next =>
      cases stepped
      refine ⟨rfl, links, published, inv.setCall (.inr ?_) ⟨knows.1, knows.2.1⟩⟩
      rw [call, MemCall.pending, MemCall.pending]
  | read oldHead =>
    rw [call] at stepped knows
    cases stepped
    exact ⟨rfl, links, published, inv.setCall (.inl rfl) ⟨knows, fun _ => rfl⟩⟩
  | pop oldHead link =>
    rw [call] at stepped
    simp only [MemThreads.stepCall] at stepped
    split at stepped
    next same =>
      obtain ⟨rfl, -⟩ := same
      cases stepped
      obtain ⟨rest, popped⟩ := inv.popped call
      exact ⟨rfl, rest, published, popped⟩
    next =>
      cases stepped
      exact ⟨rfl, links, published, inv.top i⟩

/-- What an action does to the tag, and that it keeps the invariant while there are tags. -/
theorem step (inv : Inv start s links published) {action : Action ι} (stepped : s.step action = some t)
    (few : action.isPush = true → s.stack.tag.toNat + 1 < 2 ^ 32) :
    t.stack.tag.toNat = s.stack.tag.toNat + (if action.isPush = true then 1 else 0) ∧
      ∃ links published, Inv start t links published := by
  cases action with
  | push i node =>
    simp only [MemThreads.step] at stepped
    split at stepped
    next idle =>
      cases stepped
      refine ⟨?_, links, published, inv.callPush idle.1 idle.2 (few rfl)⟩
      show (s.stack.tag + 1).toNat = s.stack.tag.toNat + 1
      rw [UInt32.toNat_add]
      exact Nat.mod_eq_of_lt (few rfl)
    next => cases stepped
  | pop i =>
    simp only [MemThreads.step] at stepped
    split at stepped
    next =>
      cases stepped
      exact ⟨rfl, links, published, inv.top i⟩
    next => cases stepped
  | step i spurious =>
    obtain ⟨tag, kept⟩ := inv.stepCall stepped
    exact ⟨congrArg UInt32.toNat tag, kept⟩
  | write i node word =>
    simp only [MemThreads.step] at stepped
    split at stepped
    next idle =>
      cases stepped
      exact ⟨rfl, links, published, inv.setNext idle.2 (by simp [idle.1]) word⟩
    next => cases stepped
  | hand i j node =>
    simp only [MemThreads.step] at stepped
    split at stepped
    next idle =>
      cases stepped
      exact ⟨rfl, links, published, inv.hand idle.1 idle.2 j⟩
    next => cases stepped

end Inv

/-- The blocks on the list, each once, are those pushed and not popped since, and every block is there or has one owner. -/
structure Safe (start s : MemThreads ι) (links : List MemLink) : Prop where
  chain : Chain s.next s.stack.head links
  owned : Owned start.held s.held (links.map linkToOffset)
  listed : ∀ b, b ∈ links.map linkToOffset ↔ MemEvent.OnList s.history b
  alternate : MemEvent.Alternate s.history

variable [DecidableEq ι]

/-- Whatever the order of the steps, the list is a list of the blocks that nobody owns. -/
theorem run_safe {actions : List (Action ι)} (fresh : start.Fresh) (run : Run step (fun _ _ => True) start actions s)
    (few : actions.countP Action.isPush < 2 ^ 32) : ∃ links, Safe start s links := by
  have kept : actions.countP Action.isPush < 2 ^ 32 → s.stack.tag.toNat = actions.countP Action.isPush ∧
      ∃ links published, Inv start s links published := by
    apply run.invariant_history (I := fun actions s => actions.countP Action.isPush < 2 ^ 32 →
      s.stack.tag.toNat = actions.countP Action.isPush ∧ ∃ links published, Inv start s links published)
    · intro actions t action u kept _ stepped few
      have count : (actions ++ [action]).countP Action.isPush =
          actions.countP Action.isPush + (if action.isPush = true then 1 else 0) := by
        rw [List.countP_append, List.countP_singleton]
      rw [count] at few ⊢
      obtain ⟨tag, links, published, inv⟩ := kept (by omega)
      obtain ⟨after, inv'⟩ := inv.step stepped (fun isPush => by rw [if_pos isPush] at few; omega)
      exact ⟨by omega, inv'⟩
    · intro _
      exact ⟨by simp [fresh.stack], [], [], fresh.inv⟩
  obtain ⟨-, links, published, inv⟩ := kept few
  exact ⟨links, inv.chain, inv.owned, inv.listed, inv.alternate⟩

/-! ## Calls that nobody interrupts -/

/-- The steps of `push` do to the list what the sequential call does. -/
theorem push_alone (idle : s.calls i = .idle) (mine : node ∈ s.held i) :
    ∃ t, Run step (fun _ _ => True) s [.push i node, .step i false, .step i false, .step i false] t ∧
      (t.next, t.stack) = MemStack.push s.next s.stack node ∧ t.held i = (s.held i).erase node := by
  obtain ⟨t₁, made₁⟩ : ∃ t, t = s.callPush i node := ⟨_, rfl⟩
  obtain ⟨newHead, link⟩ : ∃ newHead, newHead = makeLink (s.stack.tag + 1) node := ⟨_, rfl⟩
  obtain ⟨t₂, made₂⟩ : ∃ t, t = t₁.setCall i (.store node newHead s.stack.head) := ⟨_, rfl⟩
  obtain ⟨t₃, made₃⟩ : ∃ t, t = (t₂.setNext node s.stack.head).setCall i (.push node newHead s.stack.head) := ⟨_, rfl⟩
  have called : s.step (.push i node) = some t₁ := by rw [step, if_pos ⟨idle, mine⟩, made₁]
  have loaded : t₁.step (.step i false) = some t₂ := by simp [made₂, made₁, link, step, stepCall, callPush, setCall]
  have stored : t₂.step (.step i false) = some t₃ := by simp [made₃, made₂, step, stepCall, setCall]
  have exchanged : t₃.step (.step i false) = some (t₃.pushed i node newHead) := by
    simp [made₃, made₂, made₁, step, stepCall, setCall, setNext, callPush]
  refine ⟨_, .cons trivial called (.cons trivial loaded (.cons trivial stored (.single trivial exchanged))), ?_, ?_⟩
  · simp [made₃, made₂, made₁, link, pushed, setCall, setHeld, setNext, callPush, MemStack.push]
  · simp [made₃, made₂, made₁, pushed, setCall, setHeld, setNext, callPush]

/-- The steps of `pop` on a list that is not empty do to it what the sequential call does. -/
theorem pop_alone (idle : s.calls i = .idle) (used : s.stack.head ≠ 0) :
    ∃ t, Run step (fun _ _ => True) s [.pop i, .step i false, .step i false] t ∧
      (t.stack, (t.held i).head?) = MemStack.pop s.next s.stack ∧ t.next = s.next := by
  obtain ⟨t₁, made₁⟩ : ∃ t, t = s.setCall i (.read s.stack.head) := ⟨_, rfl⟩
  obtain ⟨node, offset⟩ : ∃ node, node = linkToOffset s.stack.head := ⟨_, rfl⟩
  obtain ⟨t₂, made₂⟩ : ∃ t, t = t₁.setCall i (.pop s.stack.head (s.next node)) := ⟨_, rfl⟩
  have called : s.step (.pop i) = some t₁ := by rw [step, if_pos idle, made₁, MemCall.top, if_neg used]
  have read : t₁.step (.step i false) = some t₂ := by simp [made₂, made₁, offset, step, stepCall, setCall]
  have exchanged : t₂.step (.step i false) = some (t₂.popped i node (s.next node)) := by
    simp [made₂, made₁, offset, step, stepCall, setCall]
  refine ⟨_, .cons trivial called (.cons trivial read (.single trivial exchanged)), ?_, ?_⟩
  · simp [made₂, made₁, offset, popped, setCall, setHeld, MemStack.pop, used]
  · simp [made₂, made₁, popped, setCall, setHeld]

/-! ## A run -/

/-- Two threads, of which the first has two blocks. -/
def pair : MemThreads Bool where
  next _ := 0
  stack := { head := 0, tag := 0 }
  calls _ := .idle
  held i := if i then [] else [0, 64]
  history := []

theorem pair_fresh : pair.Fresh where
  stack := rfl
  calls _ := rfl
  nodup := by decide
  apart i j differ := by cases i <;> cases j <;> simp [pair] at differ ⊢
  history := rfl

/-- The second thread sleeps in `pop` until the block that it has seen has been popped, used and pushed again. -/
theorem run_safe_reused :
    ∃ s links, s.history = [.popped true 0, .pushed false 0, .pushed false 64, .popped false 0, .pushed false 0] ∧
      Safe pair s links := by
  have made : ∃ s ∈ Run.exec step (fun _ _ => True) pair
      [.push false 0, .step false false, .step false false, .step false false, .pop true, .step true false,
        .pop false, .step false false, .step false false, .write false 0 7,
        .push false 64, .step false false, .step false false, .step false false,
        .push false 0, .step false false, .step false false, .step false false,
        .step true false, .step true false, .step true false],
      s.history = [.popped true 0, .pushed false 0, .pushed false 64, .popped false 0, .pushed false 0] := by
    decide +kernel
  obtain ⟨s, done, history⟩ := made
  obtain ⟨links, safe⟩ := run_safe pair_fresh (Run.of_exec done) (by decide)
  exact ⟨s, links, history, safe⟩

end MemThreads

end Swirly

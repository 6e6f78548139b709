import Orderbook.Flush
import Orderbook.MatchLoops

namespace Orderbook.SlotPartition

open Domain SlotPool Ladder Matching Book Simulation Slots SlotCancel SlotReuse Flush MatchLoops
  StateTransition Library.Ownership

structure Partition (p : OrderSlotPool) (inUse : List OrderIterator) : Prop where
  distinct : inUse.Nodup
  free_distinct : p.freeList.Nodup
  disjoint : List.Disjoint inUse p.freeList
  complete : ∀ it, it < p.storage.length ↔ it ∈ inUse ∨ it ∈ p.freeList

theorem partition_of_owned {p : OrderSlotPool} {inUse : List OrderIterator} (h : Owned p inUse) :
    Partition p inUse :=
  ⟨Owns.used_nodup h, Owns.free_nodup h, Owns.disjoint h, fun _ => Owns.lt_iff h⟩

/-- The slots in the queues of both sides while the loops of a routine of side `s` run. -/
def inUse (s : Side) (b : SymbolOrderbook) (st : LoopState) : List OrderIterator :=
  resting (levels b s) ++ resting st.levels

def routineOf (cmd : Command) : Routine :=
  if cmd.price = 0 then .market else .limit cmd.price

def newOrderStep (cmd : Command) : LoopState → Option LoopState :=
  loopStep (routineOf cmd) cmd.side (makeIncomingOrder cmd)

def ReleasesUsed (p p' : OrderSlotPool) (before after : List OrderIterator) : Prop :=
  p'.freeList = p.freeList ∨
    ∃ it, p'.freeList = it :: p.freeList ∧ it ∈ before ∧ it ∉ p.freeList ∧ it ∉ after

/-- Who owns the slots of a book, between two calls and inside the next one. -/
structure SlotOwnership (b : SymbolOrderbook) : Prop where
  partition : Partition b.slotPool (used b)
  entries : ∀ key it, b.ordersByKey key = some it → it ∈ used b ∧ (get b.slotPool it).key = key
  loop_partition : ∀ cmd st, Reaches (newOrderStep cmd) (loopStart cmd.side cmd b) st →
    Partition st.walk.slotPool (inUse cmd.side b st)
  loop_releases : ∀ cmd st st', Reaches (newOrderStep cmd) (loopStart cmd.side cmd b) st →
    newOrderStep cmd st = some st' →
      ReleasesUsed st.walk.slotPool st'.walk.slotPool (inUse cmd.side b st) (inUse cmd.side b st')
  cancel_releases : ∀ key, ReleasesUsed b.slotPool (cancelOrder key b).slotPool (used b)
    (used (cancelOrder key b))
  allocates_unused : ∀ cmd b', restingBook cmd b = some b' → HandsOutValid b'

section Loops

variable {r : Routine} {side : Side} {incoming : Order} {own : List OrderIterator}

theorem resting_erased {level : PriceLevel OrderIterator} {pos : Nat} {it : OrderIterator} (total : Int)
    (rest : List (PriceLevel OrderIterator)) (hat : level.orders[pos]? = some it) :
    (it :: (own ++ resting ({ level with totalQuantity := total, orders := level.orders.eraseIdx pos } ::
      rest))).Perm (own ++ resting (level :: rest)) := by
  obtain ⟨hlt, hget⟩ := List.getElem?_eq_some_iff.mp hat
  have hp : (it :: level.orders.eraseIdx pos).Perm level.orders := by
    rw [← hget]
    exact List.getElem_cons_eraseIdx_perm hlt
  apply List.perm_middle.symm.trans
  apply List.Perm.append_left
  exact hp.append_right (resting rest)

theorem enterLevel_levels (st : LoopState) : (enterLevel r side st).levels = st.levels := by
  rw [enterLevel]
  split
  · rfl
  · split <;> rfl

theorem enterLevel_walk (st : LoopState) : (enterLevel r side st).walk = st.walk := by
  rw [enterLevel]
  split
  · rfl
  · split <;> rfl

theorem leaveLevel_walk (level : PriceLevel OrderIterator) (rest : List (PriceLevel OrderIterator))
    (traded onlySelf : Bool) (st : LoopState) : (leaveLevel r level rest traded onlySelf st).walk = st.walk := by
  rw [leaveLevel.eq_def]
  repeat' split
  all_goals rfl

theorem leaveLevel_resting {level : PriceLevel OrderIterator} {rest : List (PriceLevel OrderIterator)}
    {st : LoopState} (hl : st.levels = level :: rest) (traded onlySelf : Bool) :
    resting (leaveLevel r level rest traded onlySelf st).levels = resting st.levels := by
  by_cases he : level.orders.isEmpty = true
  · rw [leave_emptied r level rest he, hl, resting_cons, List.isEmpty_iff.mp he]
    rfl
  · rw [leaveLevel.eq_def, if_neg he]
    repeat' split
    all_goals rfl

/-- A step of the loops keeps the pool and the queues as they are, or trades with one order:
then what is released is the slot that leaves its queue. -/
theorem loopStep_cases {st st' : LoopState} (h : loopStep r side incoming st = some st') :
    (st'.walk = st.walk ∧ resting st'.levels = resting st.levels) ∨
      ∃ it, st'.walk = settle st.walk it ∧
        if (reduced st.walk it).quantity = 0 then
          ∀ own, (it :: (own ++ resting st'.levels)).Perm (own ++ resting st.levels)
        else resting st'.levels = resting st.levels := by
  rcases hphase : st.phase with _ | ⟨pos, traded, onlySelf⟩ | _
  · simp only [loopStep, hphase, Option.some.injEq] at h
    subst h
    exact Or.inl ⟨enterLevel_walk st, congrArg resting (enterLevel_levels st)⟩
  · rcases hl : st.levels with _ | ⟨level, rest⟩
    · simp only [loopStep, hphase, hl, reduceCtorEq] at h
    · have hleave : st' = leaveLevel r level rest traded onlySelf st →
          st'.walk = st.walk ∧ resting st'.levels = resting st.levels := by
        rintro rfl
        exact ⟨leaveLevel_walk level rest traded onlySelf st, leaveLevel_resting hl traded onlySelf⟩
      simp only [loopStep, hphase, hl] at h
      rw [hl] at hleave
      rcases hat : level.orders[pos]? with _ | it
      · simp only [hat, Option.some.injEq] at h
        exact Or.inl (hleave h.symm)
      · simp only [hat] at h
        split_ifs at h with hq
        · rw [Option.some.injEq, visitOrder] at h
          split_ifs at h with hu
          · subst h
            exact Or.inl ⟨rfl, congrArg resting hl⟩
          · subst h
            refine Or.inr ⟨it, rfl, ?_⟩
            by_cases hr : (reduced st.walk it).quantity = 0
            · simp only [if_pos hr]
              exact fun own => resting_erased _ rest hat
            · simp only [if_neg hr]
              rfl
        · exact Or.inl (hleave (Option.some.inj h).symm)
  · simp only [loopStep, hphase, reduceCtorEq] at h

theorem loopStep_slots {st st' : LoopState} (h : loopStep r side incoming st = some st')
    (ho : Owned st.walk.slotPool (own ++ resting st.levels)) :
    Owned st'.walk.slotPool (own ++ resting st'.levels) ∧
      ReleasesUsed st.walk.slotPool st'.walk.slotPool (own ++ resting st.levels)
        (own ++ resting st'.levels) := by
  rcases loopStep_cases h with ⟨hw, hq⟩ | ⟨it, hw, hit⟩
  · rw [hw, hq]
    exact ⟨ho, Or.inl rfl⟩
  · have hfree := settle_freeList st.walk it
    have hlength := settle_length st.walk it
    rw [← hw] at hfree hlength
    by_cases hr : (reduced st.walk it).quantity = 0
    · simp only [if_pos hr] at hit hfree
      have hp := hit own
      have hrel : Owned st'.walk.slotPool (own ++ resting st'.levels) := by
        rw [Owned, hfree, hlength]
        exact Owns.release ho ((List.perm_append_singleton it _).trans hp) (List.Perm.refl _)
      have hin : it ∈ own ++ resting st.levels := hp.mem_iff.mp List.mem_cons_self
      refine ⟨hrel, Or.inr ⟨it, hfree, hin, Owns.disjoint ho hin, ?_⟩⟩
      exact (List.nodup_cons.mp (hp.nodup_iff.mpr (Owns.used_nodup ho))).1
    · simp only [if_neg hr] at hit hfree
      rw [hit, Owned, hfree, hlength]
      exact ⟨ho, Or.inl hfree⟩

theorem loops_owned {start st : LoopState} (h : Reaches (loopStep r side incoming) start st)
    (ho : Owned start.walk.slotPool (own ++ resting start.levels)) :
    Owned st.walk.slotPool (own ++ resting st.levels) := by
  induction h with
  | refl => exact ho
  | tail _ hstep ih => exact (loopStep_slots hstep ih).1

theorem loops_storage {start st : LoopState} (h : Reaches (loopStep r side incoming) start st) :
    st.walk.slotPool.storage.length = start.walk.slotPool.storage.length := by
  induction h with
  | refl => rfl
  | tail _ hstep ih =>
      rcases loopStep_cases hstep with ⟨hw, -⟩ | ⟨it, hw, -⟩
      · rw [hw, ih]
      · rw [hw, settle_length, ih]

end Loops

section Book

variable {b : SymbolOrderbook} (h : Represents b)
include h

theorem loop_owned (cmd : Command) {st : LoopState}
    (hr : Reaches (newOrderStep cmd) (loopStart cmd.side cmd b) st) :
    Owned st.walk.slotPool (inUse cmd.side b st) :=
  loops_owned hr (Owns.perm h.owned (used_perm b cmd.side))

theorem cancel_releases (key : OrderKey) : ReleasesUsed b.slotPool (cancelOrder key b).slotPool (used b)
    (used (cancelOrder key b)) := by
  have hc := h.book.toCoreInvariant
  cases hk : b.ordersByKey key with
  | none =>
      left
      rw [cancelOrder, hk]
  | some it =>
      obtain ⟨hit, pre, level, post, hst⟩ := standing_of_key h.toSlotInvariant hc hk
      have hrest : it ∈ used (cancelOrder key b) → it ≠ it := ne_of_mem_rest hc hk hit hst h.toSlotInvariant
      refine Or.inr ⟨it, ?_, hit, Owns.disjoint h.owned hit, fun hm => hrest hm rfl⟩
      rw [cancelOrder_eq hc hk hit hst]
      rfl

theorem ownership_of_represents : SlotOwnership b where
  partition := partition_of_owned h.owned
  entries key it hk := ⟨h.queued key it hk, h.key_eq h.book.toCoreInvariant hk⟩
  loop_partition cmd _ hr := partition_of_owned (loop_owned h cmd hr)
  loop_releases cmd _ _ hr hstep := (loopStep_slots hstep (loop_owned h cmd hr)).2
  cancel_releases := cancel_releases h
  allocates_unused _ _ := handsOutValid_of_represents h

end Book

/-- After any calls on a new book, and inside the next one, every slot has one owner, no slot
is released twice and none is handed out while it is in use. -/
theorem slots_partitioned (calls : List BookCall) : SlotOwnership (bookAfter calls) :=
  ownership_of_represents (represents_after calls)

end Orderbook.SlotPartition

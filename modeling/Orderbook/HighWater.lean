import Orderbook.SlotPartition
import Mathlib.Order.Bounds.Defs

namespace Orderbook.HighWater

open Domain SlotPool Book Slots SlotCancel SlotReuse Flush MatchLoops SlotPartition StateTransition
  Library.Ownership

/-- The number of orders resting at some point of a run: between two calls, or at a step of
the loops of a new order. -/
inductive RestingAt : List BookCall → Nat → Prop
  | between (pre post : List BookCall) : RestingAt (pre ++ post) (used (bookAfter pre)).length
  | during (pre : List BookCall) (cmd : Command) (post : List BookCall) (st : LoopState)
      (hr : Reaches (newOrderStep cmd) (loopStart cmd.side cmd (bookAfter pre)) st) :
      RestingAt (pre ++ .processNewOrder cmd :: post) (inUse cmd.side (bookAfter pre) st).length

def storageLength (b : SymbolOrderbook) : Nat := b.slotPool.storage.length

def AsksWhenFull (b : SymbolOrderbook) (c : BookCall) : Prop :=
  ∃ cmd b', c = .processNewOrder cmd ∧ restingBook cmd b = some b' ∧
    ∀ it, it < storageLength b' → it ∈ used b'

/-- `orders_` is as long as the book has ever been full, and grows only when it is full. -/
structure HighWaterMark (calls : List BookCall) : Prop where
  maximum : IsGreatest {n | RestingAt calls n} (storageLength (bookAfter calls))
  grows_full : ∀ pre c post, calls = pre ++ c :: post →
    storageLength (bookAfter pre) < storageLength (bookAfter (pre ++ [c])) →
      AsksWhenFull (bookAfter pre) c

theorem RestingAt.extend {calls : List BookCall} {n : Nat} (h : RestingAt calls n)
    (more : List BookCall) : RestingAt (calls ++ more) n := by
  cases h with
  | between pre post =>
      rw [List.append_assoc]
      exact .between pre (post ++ more)
  | during pre cmd post st hr =>
      rw [List.append_assoc, List.cons_append]
      exact .during pre cmd (post ++ more) st hr

section Call

variable {b : SymbolOrderbook} (h : Represents b)
include h

theorem used_le : (used b).length ≤ storageLength b := by
  have hl := Owns.length_eq h.owned
  rw [storageLength]
  omega

theorem absorb_storage (cmd : Command) :
    storageLength (absorb cmd.side.opposite b (orderSweep cmd b)) = storageLength b :=
  (orderSweep_reads cmd b h.toSlotInvariant).pool.length

theorem inUse_le (cmd : Command) {st : LoopState}
    (hr : Reaches (newOrderStep cmd) (loopStart cmd.side cmd b) st) :
    (inUse cmd.side b st).length ≤ storageLength b := by
  have hl := Owns.length_eq (loop_owned h cmd hr)
  have hs := loops_storage hr
  rw [storageLength, ← show st.walk.slotPool.storage.length = b.slotPool.storage.length from hs]
  omega

theorem newOrder_storage (cmd : Command) :
    storageLength (processNewOrder cmd b).1 =
      match restingBook cmd b with
      | some b' => (allocate b'.slotPool).2.storage.length
      | none => storageLength b := by
  have hpool : (processNewOrder cmd b).1.slotPool = (matchNewOrder cmd b).1.slotPool := rfl
  rw [storageLength, hpool, matchNewOrder_eq, restingBook]
  by_cases hp : cmd.price = 0
  · rw [if_pos hp, if_neg (fun hr => hr.1 hp), matchMarket, marketSweep_eq cmd b hp]
    exact absorb_storage h cmd
  · rw [if_neg hp, matchLimit, limitSweep_eq cmd b hp h.toSlotInvariant]
    by_cases hq : 0 < (orderSweep cmd b).walk.incomingQty
    · simp only [if_pos hq, if_pos (And.intro hp hq), restRemainder_slotPool, set_length]
    · simp only [if_neg hq, if_neg (fun hr : _ ∧ _ => hq hr.2)]
      exact absorb_storage h cmd

theorem cancel_storage (cmd : Command) :
    storageLength (processCancel cmd b).1 = storageLength b := by
  have hpool : (processCancel cmd b).1.slotPool = (cancelOrder cmd.key b).slotPool := rfl
  rw [storageLength, hpool]
  cases hk : b.ordersByKey cmd.key with
  | none =>
      rw [cancelOrder, hk]
      rfl
  | some it =>
      obtain ⟨hit, pre, level, post, hst⟩ := standing_of_key h.toSlotInvariant h.book.toCoreInvariant hk
      rw [cancelOrder_eq h.book.toCoreInvariant hk hit hst, release_storage, set_length]
      rfl

theorem rest_storage (cmd : Command) {b' : SymbolOrderbook} (hr : restingBook cmd b = some b') :
    (allocate b'.slotPool).2.storage.length = storageLength b ∨
      ((allocate b'.slotPool).2.storage.length = storageLength b + 1 ∧
        (processNewOrder cmd b).1.slotPool.freeList = [] ∧ ∀ it, it < storageLength b' → it ∈ used b') := by
  rw [restingBook] at hr
  split_ifs at hr with hrest
  obtain ⟨hp, hq⟩ := hrest
  rw [limitSweep_eq cmd b hp h.toSlotInvariant] at hr hq
  rw [Option.some.injEq] at hr
  have ho : Owned (absorb cmd.side.opposite b (orderSweep cmd b)).slotPool
      (used (absorb cmd.side.opposite b (orderSweep cmd b))) := absorb_owned h.toSlotInvariant
  have hl := absorb_storage h cmd
  have hpool : (processNewOrder cmd b).1.slotPool =
      set (allocate b'.slotPool).2 (allocate b'.slotPool).1
        (storedOrder cmd.side cmd (orderSweep cmd b).walk.incomingQty b'.nextSequence) := by
    change (matchNewOrder cmd b).1.slotPool = _
    rw [matchNewOrder_eq, if_neg hp, matchLimit, limitSweep_eq cmd b hp h.toSlotInvariant, ← hr]
    simp only [if_pos hq, restRemainder_slotPool]
  rw [hr] at ho hl
  cases hf : b'.slotPool.freeList with
  | cons it rest =>
      left
      rw [← hl, allocate, hf]
      rfl
  | nil =>
      right
      rw [hpool, set_freeList, ← hl]
      simp only [allocate, hf, List.length_append, List.length_singleton]
      refine ⟨rfl, trivial, ?_⟩
      intro it hit
      rcases (Owns.lt_iff ho).mp hit with hu | hfree
      · exact hu
      · rw [hf] at hfree
        cases hfree

theorem call_storage (c : BookCall) :
    storageLength (call b c).1 = storageLength b ∨
      (storageLength b < storageLength (call b c).1 ∧
        storageLength (call b c).1 = (used (call b c).1).length ∧ AsksWhenFull b c) := by
  cases c with
  | processCancel cmd => exact Or.inl (cancel_storage h cmd)
  | processNewOrder cmd =>
      have hs := newOrder_storage h cmd
      change storageLength (processNewOrder cmd b).1 = storageLength b ∨
        (storageLength b < storageLength (processNewOrder cmd b).1 ∧
          storageLength (processNewOrder cmd b).1 = (used (processNewOrder cmd b).1).length ∧ _)
      cases hr : restingBook cmd b with
      | none =>
          rw [hr] at hs
          exact Or.inl hs
      | some b' =>
          rw [hr] at hs
          rcases rest_storage h cmd hr with hsame | ⟨hgrow, hfree, hfull⟩
          · exact Or.inl (hs.trans hsame)
          · have hl := Owns.length_eq (call_represents b (.processNewOrder cmd) h).owned
            have hfree' : (call b (.processNewOrder cmd)).1.slotPool.freeList = [] := hfree
            rw [hfree', List.length_nil, Nat.add_zero] at hl
            have hlen : storageLength (processNewOrder cmd b).1 = storageLength b + 1 := hs.trans hgrow
            exact Or.inr ⟨by omega, hl.symm, cmd, b', rfl, hr, hfull⟩

end Call

theorem storage_mono (pre post : List BookCall) :
    storageLength (bookAfter pre) ≤ storageLength (bookAfter (pre ++ post)) := by
  induction post using List.reverseRecOn with
  | nil => simp
  | append_singleton post c ih =>
      rw [← List.append_assoc, bookAfter_concat]
      rcases call_storage (represents_after (pre ++ post)) c with hs | ⟨hlt, -, -⟩
      · exact hs ▸ ih
      · exact ih.trans (Nat.le_of_lt hlt)

theorem restingAt_le {calls : List BookCall} {n : Nat} (h : RestingAt calls n) :
    n ≤ storageLength (bookAfter calls) := by
  cases h with
  | between pre post => exact (used_le (represents_after pre)).trans (storage_mono pre post)
  | during pre cmd post st hr => exact (inUse_le (represents_after pre) cmd hr).trans (storage_mono pre _)

theorem storage_reached (calls : List BookCall) : RestingAt calls (storageLength (bookAfter calls)) := by
  induction calls using List.reverseRecOn with
  | nil => exact .between [] []
  | append_singleton calls c ih =>
      rw [bookAfter_concat]
      rcases call_storage (represents_after calls) c with hs | ⟨-, hs, -⟩
      · rw [hs]
        exact ih.extend [c]
      · rw [hs, ← bookAfter_concat]
        have hb := RestingAt.between (calls ++ [c]) []
        rwa [List.append_nil] at hb

/-- After any calls on a new book, `orders_` is as long as the book has ever been full. -/
theorem storage_high_water (calls : List BookCall) : HighWaterMark calls where
  maximum := ⟨storage_reached calls, fun _ hn => restingAt_le hn⟩
  grows_full pre c post _ hlt := by
    rw [bookAfter_concat] at hlt
    rcases call_storage (represents_after pre) c with hs | ⟨-, -, hasks⟩
    · exact absurd hs (Nat.ne_of_gt hlt)
    · exact hasks

end Orderbook.HighWater

import Orderbook.Ladder
import Orderbook.SlotPool
import Mathlib.Logic.Function.Basic

namespace Orderbook.Matching

open Domain SlotPool Ladder

/-- What the matching loops carry besides the levels: the incoming quantity and the
members they write. -/
structure Walk where
  incomingQty : Int
  slotPool : OrderSlotPool
  ordersByKey : OrderKey → Option OrderIterator

def tradeQty (w : Walk) (it : OrderIterator) : Int :=
  min w.incomingQty (get w.slotPool it).quantity

def reduced (w : Walk) (it : OrderIterator) : Order :=
  { get w.slotPool it with quantity := (get w.slotPool it).quantity - tradeQty w it }

/-- One trade with the order at `it`: a filled order loses its map entry and its slot. -/
def settle (w : Walk) (it : OrderIterator) : Walk :=
  if (reduced w it).quantity = 0 then
    { incomingQty := w.incomingQty - tradeQty w it
      ordersByKey := Function.update w.ordersByKey (reduced w it).key none
      slotPool := release (set w.slotPool it (reduced w it)) it }
  else
    { incomingQty := w.incomingQty - tradeQty w it
      ordersByKey := w.ordersByKey
      slotPool := set w.slotPool it (reduced w it) }

def emitTrade (buy sell : Order) (tradePrice tradeQty : Int) : OutputLine :=
  .trade buy sell tradePrice tradeQty

def emitFill (side : Side) (incoming resting : Order) (tradeQty : Int) : OutputLine :=
  match side with
  | .buy => emitTrade incoming resting resting.price tradeQty
  | .sell => emitTrade resting incoming resting.price tradeQty

structure Scan where
  queue : List OrderIterator
  totalQuantity : Int
  walk : Walk
  lines : List OutputLine

def matchQueue (side : Side) (incoming : Order) : List OrderIterator → Int → Walk → Scan
  | [], total, w => ⟨[], total, w, []⟩
  | it :: dq, total, w =>
      if 0 < w.incomingQty then
        if (get w.slotPool it).userId = incoming.userId then
          let scan := matchQueue side incoming dq total w
          { scan with queue := it :: scan.queue }
        else
          let scan := matchQueue side incoming dq (total - tradeQty w it) (settle w it)
          { scan with
            queue := if (reduced w it).quantity = 0 then scan.queue else it :: scan.queue
            lines := emitFill side incoming (reduced w it) (tradeQty w it) :: scan.lines }
      else ⟨it :: dq, total, w, []⟩

structure LimitScan extends Scan where
  traded : Bool
  onlySelf : Bool

/-- The inner loop of the limit routines, with their two flags. -/
def matchQueueLimit (side : Side) (incoming : Order) :
    List OrderIterator → Int → Bool → Bool → Walk → LimitScan
  | [], total, traded, onlySelf, w => ⟨⟨[], total, w, []⟩, traded, onlySelf⟩
  | it :: dq, total, traded, onlySelf, w =>
      if 0 < w.incomingQty then
        if (get w.slotPool it).userId = incoming.userId then
          let scan := matchQueueLimit side incoming dq total traded onlySelf w
          { scan with queue := it :: scan.queue }
        else
          let scan := matchQueueLimit side incoming dq (total - tradeQty w it) true false (settle w it)
          { scan with
            queue := if (reduced w it).quantity = 0 then scan.queue else it :: scan.queue
            lines := emitFill side incoming (reduced w it) (tradeQty w it) :: scan.lines }
      else ⟨⟨it :: dq, total, w, []⟩, traded, onlySelf⟩

section QueueSteps

variable (side : Side) (incoming : Order) (it : OrderIterator) (dq : List OrderIterator) (total : Int)

theorem matchQueue_done {w : Walk} (hw : w.incomingQty ≤ 0) :
    matchQueue side incoming dq total w = ⟨dq, total, w, []⟩ := by
  cases dq with
  | nil => rfl
  | cons it dq => rw [matchQueue, if_neg (by omega)]

theorem matchQueue_skip {w : Walk} (hw : 0 < w.incomingQty)
    (hu : (get w.slotPool it).userId = incoming.userId) :
    matchQueue side incoming (it :: dq) total w =
      { matchQueue side incoming dq total w with
        queue := it :: (matchQueue side incoming dq total w).queue } := by
  rw [matchQueue, if_pos hw, if_pos hu]

theorem matchQueue_trade {w : Walk} (hw : 0 < w.incomingQty)
    (hu : (get w.slotPool it).userId ≠ incoming.userId) :
    matchQueue side incoming (it :: dq) total w =
      { matchQueue side incoming dq (total - tradeQty w it) (settle w it) with
        queue :=
          if (reduced w it).quantity = 0 then
            (matchQueue side incoming dq (total - tradeQty w it) (settle w it)).queue
          else it :: (matchQueue side incoming dq (total - tradeQty w it) (settle w it)).queue
        lines := emitFill side incoming (reduced w it) (tradeQty w it) ::
          (matchQueue side incoming dq (total - tradeQty w it) (settle w it)).lines } := by
  rw [matchQueue, if_pos hw, if_neg hu]

theorem matchQueueLimit_eq (traded : Bool) (w : Walk) :
    matchQueueLimit side incoming dq total traded (!traded) w =
      ⟨matchQueue side incoming dq total w,
        traded || !(matchQueue side incoming dq total w).lines.isEmpty,
        !traded && (matchQueue side incoming dq total w).lines.isEmpty⟩ := by
  induction dq generalizing total traded w with
  | nil => simp [matchQueueLimit, matchQueue]
  | cons it dq ih =>
      rw [matchQueueLimit]
      by_cases hq : 0 < w.incomingQty
      · by_cases hu : (get w.slotPool it).userId = incoming.userId
        · rw [if_pos hq, if_pos hu, matchQueue_skip side incoming it dq total hq hu, ih]
        · have hi := ih (total - tradeQty w it) true (settle w it)
          rw [Bool.not_true] at hi
          rw [if_pos hq, if_neg hu, matchQueue_trade side incoming it dq total hq hu, hi]
          simp
      · rw [if_neg hq, matchQueue_done side incoming _ total (by omega)]
        simp

theorem settle_incomingQty (w : Walk) (it : OrderIterator) :
    (settle w it).incomingQty = w.incomingQty - tradeQty w it := by
  rw [settle]
  split_ifs <;> rfl

theorem settle_exhausts {w : Walk} {it : OrderIterator} (h : (reduced w it).quantity ≠ 0) :
    (settle w it).incomingQty = 0 := by
  rw [settle_incomingQty]
  simp only [reduced, tradeQty] at h ⊢
  omega

theorem matchQueue_length_le (w : Walk) :
    (matchQueue side incoming dq total w).queue.length ≤ dq.length := by
  induction dq generalizing total w with
  | nil => exact Nat.le_refl _
  | cons it dq ih =>
      by_cases hq : 0 < w.incomingQty
      · by_cases hu : (get w.slotPool it).userId = incoming.userId
        · rw [matchQueue_skip side incoming it dq total hq hu]
          exact Nat.succ_le_succ (ih total w)
        · have hi := ih (total - tradeQty w it) (settle w it)
          rw [matchQueue_trade side incoming it dq total hq hu]
          simp only
          split_ifs
          · exact Nat.le_succ_of_le hi
          · exact Nat.succ_le_succ hi
      · rw [matchQueue_done side incoming _ total (by omega)]

/-- A scan that trades and leaves incoming quantity has shortened the queue. This is
why the limit loops come to an end. -/
theorem matchQueue_length_lt (w : Walk) (hl : (matchQueue side incoming dq total w).lines ≠ [])
    (hp : 0 < (matchQueue side incoming dq total w).walk.incomingQty) :
    (matchQueue side incoming dq total w).queue.length < dq.length := by
  induction dq generalizing total w with
  | nil => exact absurd rfl hl
  | cons it dq ih =>
      by_cases hq : 0 < w.incomingQty
      · by_cases hu : (get w.slotPool it).userId = incoming.userId
        · rw [matchQueue_skip side incoming it dq total hq hu] at hl hp ⊢
          exact Nat.succ_lt_succ (ih total w hl hp)
        · rw [matchQueue_trade side incoming it dq total hq hu] at hp ⊢
          by_cases hr : (reduced w it).quantity = 0
          · have hle := matchQueue_length_le side incoming dq (total - tradeQty w it) (settle w it)
            simp only [if_pos hr, List.length_cons]
            omega
          · have he := settle_exhausts hr
            rw [matchQueue_done side incoming dq _ (by omega)] at hp
            simp only at hp
            omega
      · rw [matchQueue_done side incoming _ total (by omega)] at hl
        exact absurd rfl hl

end QueueSteps

structure Sweep where
  levels : List (PriceLevel OrderIterator)
  walk : Walk
  lines : List OutputLine

def scanned (level : PriceLevel OrderIterator) (scan : Scan) : PriceLevel OrderIterator :=
  { level with
    totalQuantity := scan.totalQuantity
    orders := scan.queue }

def matchLevels (side : Side) (incoming : Order) : List (PriceLevel OrderIterator) → Walk → Sweep
  | [], w => ⟨[], w, []⟩
  | level :: rest, w =>
      if 0 < w.incomingQty then
        let scan := matchQueue side incoming level.orders level.totalQuantity w
        if scan.queue.isEmpty then
          let sweep := matchLevels side incoming rest scan.walk
          { sweep with lines := scan.lines ++ sweep.lines }
        else ⟨scanned level scan :: rest, scan.walk, scan.lines⟩
      else ⟨level :: rest, w, []⟩

def exceedsLimit : Side → Int → Int → Bool
  | .buy, price, limit => limit < price
  | .sell, price, limit => price < limit

def measure (levels : List (PriceLevel OrderIterator)) (w : Walk) : Nat :=
  if 0 < w.incomingQty then (resting levels).length + levels.length + 1 else 0

theorem measure_rest_lt {level : PriceLevel OrderIterator} {rest : List (PriceLevel OrderIterator)}
    {w : Walk} (hw : 0 < w.incomingQty) (w' : Walk) : measure rest w' < measure (level :: rest) w := by
  simp only [measure, hw, if_true, resting_cons, List.length_append, List.length_cons]
  split_ifs <;> omega

theorem measure_again_lt {side : Side} {incoming : Order} {level : PriceLevel OrderIterator}
    {rest : List (PriceLevel OrderIterator)} {w : Walk} (hw : 0 < w.incomingQty)
    (ht : (matchQueueLimit side incoming level.orders level.totalQuantity false true w).traded = true) :
    measure (scanned level
        (matchQueueLimit side incoming level.orders level.totalQuantity false true w).toScan :: rest)
      (matchQueueLimit side incoming level.orders level.totalQuantity false true w).walk <
      measure (level :: rest) w := by
  have he := matchQueueLimit_eq side incoming level.orders level.totalQuantity false w
  have hlt := matchQueue_length_lt side incoming level.orders level.totalQuantity w
  simp only [Bool.not_false, Bool.false_or, Bool.true_and] at he
  rw [he] at ht ⊢
  have hl : (matchQueue side incoming level.orders level.totalQuantity w).lines ≠ [] := by
    simpa using ht
  simp only [measure, hw, if_true, scanned, resting_cons, List.length_append, List.length_cons]
  split_ifs with hp
  · have := hlt hl hp
    omega
  · omega

/-- The outer loop of the limit routines. A level that keeps orders is looked at again
after a scan that traded. -/
def matchLevelsLimit (side : Side) (incoming : Order) (limit : Int) :
    List (PriceLevel OrderIterator) → Walk → Sweep
  | [], w => ⟨[], w, []⟩
  | level :: rest, w =>
      if 0 < w.incomingQty then
        if exceedsLimit side level.price limit then ⟨level :: rest, w, []⟩
        else
          let scan := matchQueueLimit side incoming level.orders level.totalQuantity false true w
          if scan.queue.isEmpty then
            let sweep := matchLevelsLimit side incoming limit rest scan.walk
            { sweep with lines := scan.lines ++ sweep.lines }
          else if scan.traded = false then ⟨scanned level scan.toScan :: rest, scan.walk, scan.lines⟩
          else if scan.onlySelf then ⟨scanned level scan.toScan :: rest, scan.walk, scan.lines⟩
          else
            let sweep := matchLevelsLimit side incoming limit (scanned level scan.toScan :: rest) scan.walk
            { sweep with lines := scan.lines ++ sweep.lines }
      else ⟨level :: rest, w, []⟩
termination_by levels w => measure levels w
decreasing_by
  · exact measure_rest_lt ‹_› _
  · exact measure_again_lt ‹_› (by simpa using ‹¬ scan.traded = false›)

end Orderbook.Matching

import Orderbook.Library.Runs
import Orderbook.Matching

namespace Orderbook.Book

open Domain SlotPool Ladder Matching Library.Runs

/-- `orders_` is the storage inside `slotPool`; the hash map is its lookup function. -/
structure SymbolOrderbook where
  bids : List (PriceLevel OrderIterator) := []
  asks : List (PriceLevel OrderIterator) := []
  ordersByKey : OrderKey → Option OrderIterator := fun _ => none
  currentTopBid : TopOfBook := {}
  currentTopAsk : TopOfBook := {}
  nextSequence : Nat := 1
  slotPool : OrderSlotPool := {}

def levels (b : SymbolOrderbook) : Side → List (PriceLevel OrderIterator)
  | .buy => b.bids
  | .sell => b.asks

def setLevels (b : SymbolOrderbook) : Side → List (PriceLevel OrderIterator) → SymbolOrderbook
  | .buy, ls => { b with bids := ls }
  | .sell, ls => { b with asks := ls }

def computeTopBid (b : SymbolOrderbook) : TopOfBook := computeTop b.bids

def computeTopAsk (b : SymbolOrderbook) : TopOfBook := computeTop b.asks

def topChange (side : Side) (old new : TopOfBook) : List OutputLine :=
  if topEqual old new then [] else [.top side new]

def updateTopOfBookAndEmitChanges (oldBid oldAsk : TopOfBook) (b : SymbolOrderbook) :
    SymbolOrderbook × List OutputLine :=
  ({ b with
      currentTopBid := computeTopBid b
      currentTopAsk := computeTopAsk b },
    topChange .buy oldBid (computeTopBid b) ++ topChange .sell oldAsk (computeTopAsk b))

def makeIncomingOrder (cmd : Command) : Order :=
  { userId := cmd.userId
    userOrderId := cmd.userOrderId
    side := cmd.side
    price := cmd.price
    quantity := cmd.quantity
    sequence := 0 }

def startWalk (cmd : Command) (b : SymbolOrderbook) : Walk :=
  ⟨cmd.quantity, b.slotPool, b.ordersByKey⟩

def absorb (side : Side) (b : SymbolOrderbook) (sweep : Sweep) : SymbolOrderbook :=
  { setLevels b side sweep.levels with
    slotPool := sweep.walk.slotPool
    ordersByKey := sweep.walk.ordersByKey }

def marketSweep (side : Side) (cmd : Command) (b : SymbolOrderbook) : Sweep :=
  matchLevels side (makeIncomingOrder cmd) (levels b side.opposite) (startWalk cmd b)

def matchMarket (side : Side) (cmd : Command) (b : SymbolOrderbook) :
    SymbolOrderbook × List OutputLine :=
  (absorb side.opposite b (marketSweep side cmd b), (marketSweep side cmd b).lines)

def matchMarketBuy : Command → SymbolOrderbook → SymbolOrderbook × List OutputLine :=
  matchMarket .buy

def matchMarketSell : Command → SymbolOrderbook → SymbolOrderbook × List OutputLine :=
  matchMarket .sell

def storedOrder (side : Side) (cmd : Command) (quantity : Int) (sequence : Nat) : Order :=
  { userId := cmd.userId
    userOrderId := cmd.userOrderId
    side := side
    price := cmd.price
    quantity := quantity
    sequence := sequence }

/-- The resting path of the limit routines. -/
def restRemainder (side : Side) (cmd : Command) (quantity : Int) (b : SymbolOrderbook) :
    SymbolOrderbook :=
  let slot := allocate b.slotPool
  let stored := storedOrder side cmd quantity b.nextSequence
  let ladder := getOrCreateLevel side (levels b side) stored.price
  { setLevels b side (ladder.1.modify ladder.2 (pushOrder slot.1 stored.quantity)) with
    slotPool := set slot.2 slot.1 stored
    nextSequence := b.nextSequence + 1
    ordersByKey := Function.update b.ordersByKey stored.key (some slot.1) }

def limitSweep (side : Side) (cmd : Command) (b : SymbolOrderbook) : Sweep :=
  matchLevelsLimit side (makeIncomingOrder cmd) cmd.price (levels b side.opposite) (startWalk cmd b)

def matchLimit (side : Side) (cmd : Command) (b : SymbolOrderbook) :
    SymbolOrderbook × List OutputLine :=
  let sweep := limitSweep side cmd b
  if 0 < sweep.walk.incomingQty then
    (restRemainder side cmd sweep.walk.incomingQty (absorb side.opposite b sweep), sweep.lines)
  else (absorb side.opposite b sweep, sweep.lines)

def matchLimitBuy : Command → SymbolOrderbook → SymbolOrderbook × List OutputLine :=
  matchLimit .buy

def matchLimitSell : Command → SymbolOrderbook → SymbolOrderbook × List OutputLine :=
  matchLimit .sell

def matchNewOrder (cmd : Command) (b : SymbolOrderbook) : SymbolOrderbook × List OutputLine :=
  if cmd.price = 0 then
    match cmd.side with
    | .buy => matchMarketBuy cmd b
    | .sell => matchMarketSell cmd b
  else
    match cmd.side with
    | .buy => matchLimitBuy cmd b
    | .sell => matchLimitSell cmd b

def processNewOrder (cmd : Command) (b : SymbolOrderbook) : SymbolOrderbook × List OutputLine :=
  let matched := matchNewOrder cmd b
  let updated := updateTopOfBookAndEmitChanges b.currentTopBid b.currentTopAsk matched.1
  (updated.1, .ack cmd.userId cmd.userOrderId :: (matched.2 ++ updated.2))

/-- The part of `processCancel` that takes the slot out of its level. -/
def unlink (it : OrderIterator) (b : SymbolOrderbook) : SymbolOrderbook :=
  let order := get b.slotPool it
  if 0 < order.quantity then
    match findLevelIndex order.side (levels b order.side) order.price with
    | (_, false) => b
    | (idx, true) =>
        if idx < (levels b order.side).length then
          setLevels b order.side
            (removeEmptyLevel ((levels b order.side).modify idx (eraseOrder it order.quantity)) idx)
        else b
  else b

def retire (key : OrderKey) (it : OrderIterator) (b : SymbolOrderbook) : SymbolOrderbook :=
  { b with
    slotPool := release (set b.slotPool it { get b.slotPool it with quantity := 0 }) it
    ordersByKey := Function.update b.ordersByKey key none }

def cancelOrder (key : OrderKey) (b : SymbolOrderbook) : SymbolOrderbook :=
  match b.ordersByKey key with
  | some it => retire key it (unlink it b)
  | none => b

def processCancel (cmd : Command) (b : SymbolOrderbook) : SymbolOrderbook × List OutputLine :=
  let updated :=
    updateTopOfBookAndEmitChanges b.currentTopBid b.currentTopAsk (cancelOrder cmd.key b)
  (updated.1, .cancelAck cmd.userId cmd.userOrderId :: updated.2)

/-- The free list of the pool is not among the members that are cleared. -/
def flush (b : SymbolOrderbook) : SymbolOrderbook :=
  { b with
    bids := []
    asks := []
    ordersByKey := fun _ => none
    slotPool := { b.slotPool with storage := [] }
    currentTopBid := {}
    currentTopAsk := {}
    nextSequence := 1 }

inductive BookCall
  | processNewOrder (cmd : Command)
  | processCancel (cmd : Command)

def call : Machine SymbolOrderbook BookCall OutputLine := fun b c =>
  match c with
  | .processNewOrder cmd => processNewOrder cmd b
  | .processCancel cmd => processCancel cmd b

def bookAfter (calls : List BookCall) : SymbolOrderbook := final call {} calls

theorem bookAfter_concat (calls : List BookCall) (c : BookCall) :
    bookAfter (calls ++ [c]) = (call (bookAfter calls) c).1 := final_concat call {} calls c

@[simp] theorem levels_setLevels_self (b : SymbolOrderbook) (s : Side)
    (ls : List (PriceLevel OrderIterator)) : levels (setLevels b s ls) s = ls := by
  cases s <;> rfl

@[simp] theorem setLevels_slotPool (b : SymbolOrderbook) (s : Side)
    (ls : List (PriceLevel OrderIterator)) : (setLevels b s ls).slotPool = b.slotPool := by
  cases s <;> rfl

@[simp] theorem setLevels_ordersByKey (b : SymbolOrderbook) (s : Side)
    (ls : List (PriceLevel OrderIterator)) : (setLevels b s ls).ordersByKey = b.ordersByKey := by
  cases s <;> rfl

theorem topChange_cases (side : Side) (old new : TopOfBook) :
    topChange side old new = [] ∨ topChange side old new = [.top side new] := by
  rw [topChange]
  split_ifs
  · exact Or.inl rfl
  · exact Or.inr rfl

theorem mem_topChange {side : Side} {old new : TopOfBook} {line : OutputLine}
    (h : line ∈ topChange side old new) : line = .top side new := by
  rcases topChange_cases side old new with hc | hc
  · rw [hc] at h
    cases h
  · rw [hc] at h
    exact List.mem_singleton.mp h

theorem matchNewOrder_eq (cmd : Command) (b : SymbolOrderbook) :
    matchNewOrder cmd b =
      if cmd.price = 0 then matchMarket cmd.side cmd b else matchLimit cmd.side cmd b := by
  rw [matchNewOrder]
  cases cmd.side <;> rfl

end Orderbook.Book

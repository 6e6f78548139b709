import Orderbook.Book
import Orderbook.Library.QueueFill

namespace Orderbook.Reference

open Domain Ladder Matching Book Library.QueueFill Library.Runs

/-- The book without slots: levels hold the orders themselves, and the lookup map names
an order instance by the sequence number it got when it came to rest. -/
structure ReferenceBook where
  bids : List (PriceLevel Order) := []
  asks : List (PriceLevel Order) := []
  instances : OrderKey → Option Nat := fun _ => none
  currentTopBid : TopOfBook := {}
  currentTopAsk : TopOfBook := {}
  nextSequence : Nat := 1

def sideLevels (b : ReferenceBook) : Side → List (PriceLevel Order)
  | .buy => b.bids
  | .sell => b.asks

def putLevels (b : ReferenceBook) : Side → List (PriceLevel Order) → ReferenceBook
  | .buy, ls => { b with bids := ls }
  | .sell, ls => { b with asks := ls }

def orderRule (user : Int) : Rule Order where
  skip o := o.userId = user
  amount := Order.quantity
  reduce o t := { o with quantity := o.quantity - t }
  amount_reduce _ _ := rfl

structure Walked where
  levels : List (PriceLevel Order)
  left : Int
  fills : List (Fill Order)

/-- Trade against the levels admitted by `within`, from the front; the first level that
keeps an order ends the walk. -/
def walkLevels (within : Int → Bool) (user : Int) : Int → List (PriceLevel Order) → Walked
  | q, [] => ⟨[], q, []⟩
  | q, level :: rest =>
      if 0 < q ∧ within level.price = true then
        let served := fill (orderRule user) q level.orders
        if served.kept.isEmpty then
          let walked := walkLevels within user served.left rest
          { walked with fills := served.fills ++ walked.fills }
        else
          ⟨{ level with
              totalQuantity := level.totalQuantity - takenSum served.fills
              orders := served.kept } :: rest, served.left, served.fills⟩
      else ⟨level :: rest, q, []⟩

def forget {ι : Type} : List (Fill Order) → (OrderKey → Option ι) → OrderKey → Option ι
  | [], m => m
  | f :: fs, m => forget fs (if f.item.quantity = 0 then Function.update m f.item.key none else m)

/-- The prices a new order may trade at: any price for a market order. -/
def within (side : Side) (cmd : Command) (price : Int) : Bool :=
  cmd.price = 0 || !exceedsLimit side price cmd.price

def walk (cmd : Command) (b : ReferenceBook) : Walked :=
  walkLevels (within cmd.side cmd) cmd.userId cmd.quantity (sideLevels b cmd.side.opposite)

def fillLine (cmd : Command) (f : Fill Order) : OutputLine :=
  emitFill cmd.side (makeIncomingOrder cmd) f.item f.taken

def traded (cmd : Command) (b : ReferenceBook) : ReferenceBook :=
  { putLevels b cmd.side.opposite (walk cmd b).levels with
    instances := forget (walk cmd b).fills b.instances }

def restOrder (cmd : Command) (quantity : Int) (b : ReferenceBook) : ReferenceBook :=
  let stored := storedOrder cmd.side cmd quantity b.nextSequence
  { putLevels b cmd.side
      (restAt cmd.side stored stored.quantity stored.price (sideLevels b cmd.side)) with
    nextSequence := b.nextSequence + 1
    instances := Function.update b.instances stored.key (some b.nextSequence) }

def rests (cmd : Command) (b : ReferenceBook) : Prop := cmd.price ≠ 0 ∧ 0 < (walk cmd b).left

instance (cmd : Command) (b : ReferenceBook) : Decidable (rests cmd b) :=
  inferInstanceAs (Decidable (_ ∧ _))

def matched (cmd : Command) (b : ReferenceBook) : ReferenceBook :=
  if rests cmd b then restOrder cmd (walk cmd b).left (traded cmd b) else traded cmd b

def removeInstance (n : Nat) : List (PriceLevel Order) → List (PriceLevel Order)
  | [] => []
  | level :: rest =>
      match level.orders.find? (fun o => o.sequence = n) with
      | some o =>
          let orders := level.orders.filter (fun p => p.sequence ≠ n)
          if orders.isEmpty then rest
          else
            { level with
              totalQuantity := level.totalQuantity - o.quantity
              orders := orders } :: rest
      | none => level :: removeInstance n rest

def cancelled (key : OrderKey) (b : ReferenceBook) : ReferenceBook :=
  match b.instances key with
  | some n =>
      { b with
        bids := removeInstance n b.bids
        asks := removeInstance n b.asks
        instances := Function.update b.instances key none }
  | none => b

def refreshTops (b : ReferenceBook) : ReferenceBook :=
  { b with
    currentTopBid := computeTop b.bids
    currentTopAsk := computeTop b.asks }

def topChanges (old new : ReferenceBook) : List OutputLine :=
  topChange .buy old.currentTopBid (computeTop new.bids) ++
    topChange .sell old.currentTopAsk (computeTop new.asks)

def refNewOrder (cmd : Command) (b : ReferenceBook) : ReferenceBook × List OutputLine :=
  (refreshTops (matched cmd b),
    .ack cmd.userId cmd.userOrderId ::
      ((walk cmd b).fills.map (fillLine cmd) ++ topChanges b (matched cmd b)))

def refCancel (cmd : Command) (b : ReferenceBook) : ReferenceBook × List OutputLine :=
  (refreshTops (cancelled cmd.key b),
    .cancelAck cmd.userId cmd.userOrderId :: topChanges b (cancelled cmd.key b))

def refCall : Machine ReferenceBook BookCall OutputLine := fun b c =>
  match c with
  | .processNewOrder cmd => refNewOrder cmd b
  | .processCancel cmd => refCancel cmd b

@[simp] theorem sideLevels_putLevels_self (b : ReferenceBook) (s : Side) (ls : List (PriceLevel Order)) :
    sideLevels (putLevels b s ls) s = ls := by
  cases s <;> rfl

@[simp] theorem sideLevels_putLevels_opposite (b : ReferenceBook) (s : Side)
    (ls : List (PriceLevel Order)) :
    sideLevels (putLevels b s ls) s.opposite = sideLevels b s.opposite := by
  cases s <;> rfl

@[simp] theorem sideLevels_putLevels_of_opposite (b : ReferenceBook) (s : Side)
    (ls : List (PriceLevel Order)) :
    sideLevels (putLevels b s.opposite ls) s = sideLevels b s := by
  cases s <;> rfl

@[simp] theorem putLevels_nextSequence (b : ReferenceBook) (s : Side) (ls : List (PriceLevel Order)) :
    (putLevels b s ls).nextSequence = b.nextSequence := by
  cases s <;> rfl

@[simp] theorem putLevels_instances (b : ReferenceBook) (s : Side) (ls : List (PriceLevel Order)) :
    (putLevels b s ls).instances = b.instances := by
  cases s <;> rfl

theorem referenceBook_ext {b c : ReferenceBook} (s : Side) (hown : sideLevels b s = sideLevels c s)
    (hopp : sideLevels b s.opposite = sideLevels c s.opposite) (hi : b.instances = c.instances)
    (hb : b.currentTopBid = c.currentTopBid) (ha : b.currentTopAsk = c.currentTopAsk)
    (hn : b.nextSequence = c.nextSequence) : b = c := by
  obtain ⟨bids, asks, _, _, _, _⟩ := b
  obtain ⟨bids', asks', _, _, _, _⟩ := c
  have hbids : bids = bids' := by cases s <;> assumption
  have hasks : asks = asks' := by cases s <;> assumption
  simp only at hi hb ha hn
  rw [hbids, hasks, hi, hb, ha, hn]

theorem mem_topChanges {old new : ReferenceBook} {line : OutputLine} (h : line ∈ topChanges old new) :
    ∃ s, line = .top s (computeTop (sideLevels new s)) := by
  rcases List.mem_append.mp h with h | h
  · exact ⟨.buy, mem_topChange h⟩
  · exact ⟨.sell, mem_topChange h⟩

@[simp] theorem orderRule_skip (user : Int) (o : Order) :
    (orderRule user).skip o = decide (o.userId = user) := rfl

@[simp] theorem orderRule_amount (user : Int) (o : Order) : (orderRule user).amount o = o.quantity := rfl

@[simp] theorem orderRule_reduce (user : Int) (o : Order) (t : Int) :
    (orderRule user).reduce o t = { o with quantity := o.quantity - t } := rfl

theorem forget_append {ι : Type} (fs gs : List (Fill Order)) (m : OrderKey → Option ι) :
    forget (fs ++ gs) m = forget gs (forget fs m) := by
  induction fs generalizing m with
  | nil => rfl
  | cons f fs ih => exact ih _

theorem forget_apply {ι : Type} (fs : List (Fill Order)) (m : OrderKey → Option ι) (k : OrderKey) :
    forget fs m k = if ∃ f ∈ fs, f.item.quantity = 0 ∧ f.item.key = k then none else m k := by
  induction fs generalizing m with
  | nil => simp [forget]
  | cons f fs ih =>
      rw [forget, ih]
      by_cases hf : f.item.quantity = 0
      · by_cases hk : f.item.key = k
        · simp [hf, hk]
        · simp [hf, hk, Function.update_of_ne (Ne.symm hk)]
      · simp [hf]

end Orderbook.Reference

import Orderbook.Representation

namespace Orderbook.Observations

open Domain Ladder Matching Book Reference ReferenceInvariant Slots SlotReuse Orderbook.Representation
  Library.QueueFill

def restingOrders (b : SymbolOrderbook) (s : Side) : List Order :=
  (resting (levels b s)).map (orderAt b)

def allResting (b : SymbolOrderbook) : List Order := restingOrders b .buy ++ restingOrders b .sell

def ladder (b : SymbolOrderbook) (s : Side) : List (PriceLevel Order) :=
  (levels b s).map (mapLevel (orderAt b))

def tradeQuantity : OutputLine → Int
  | .trade _ _ _ q => q
  | _ => 0

def tradeVolume (lines : List OutputLine) : Int := (lines.map tradeQuantity).sum

/-- The trade of a line, seen from the resting order: the order as the trade leaves it. -/
def restingTrade (s : Side) : OutputLine → Option (Fill Order)
  | .trade buy sell _ tradeQty =>
      match s with
      | .buy => some ⟨sell, tradeQty⟩
      | .sell => some ⟨buy, tradeQty⟩
  | _ => none

def restingTrades (s : Side) (lines : List OutputLine) : List (Fill Order) :=
  lines.filterMap (restingTrade s)

@[simp] theorem resting_ladder (b : SymbolOrderbook) (s : Side) :
    resting (ladder b s) = restingOrders b s := resting_map _ _

theorem ladder_eq (b : SymbolOrderbook) (s : Side) : ladder b s = sideLevels (deref b) s :=
  (sideLevels_deref b s).symm

theorem restingOrders_eq (b : SymbolOrderbook) (s : Side) :
    restingOrders b s = resting (sideLevels (deref b) s) := by
  rw [← resting_ladder, ladder_eq]

theorem allResting_eq (b : SymbolOrderbook) : allResting b = allOrders (deref b) := by
  have hb : restingOrders b .buy = resting (deref b).bids := (resting_map _ _).symm
  have ha : restingOrders b .sell = resting (deref b).asks := (resting_map _ _).symm
  rw [allResting, hb, ha]
  rfl

theorem restingOrders_positive (calls : List BookCall) (s : Side) :
    ∀ o ∈ restingOrders (bookAfter calls) s, 0 < o.quantity := by
  rw [← resting_ladder, ladder_eq]
  exact ((represents_after calls).book.side s).positive

@[simp] theorem tradeQuantity_emitFill (s : Side) (incoming o : Order) (q : Int) :
    tradeQuantity (emitFill s incoming o q) = q := by
  cases s <;> rfl

theorem tradeVolume_fills (s : Side) (incoming : Order) (fs : List (Fill Order)) :
    tradeVolume (fs.map (fun f => emitFill s incoming f.item f.taken)) = takenSum fs := by
  simp [tradeVolume, takenSum, Function.comp_def]

@[simp] theorem restingTrade_emitFill (s : Side) (incoming : Order) (f : Fill Order) :
    restingTrade s (emitFill s incoming f.item f.taken) = some f := by
  cases s <;> rfl

theorem restingTrades_topChange (s t : Side) (old new : TopOfBook) :
    restingTrades s (topChange t old new) = [] := by
  rcases topChange_cases t old new with h | h <;> rw [h] <;> rfl

theorem restingTrades_refNewOrder (cmd : Command) (r : ReferenceBook) :
    restingTrades cmd.side (refNewOrder cmd r).2 = (walk cmd r).fills := by
  have hfills : restingTrades cmd.side ((walk cmd r).fills.map (fillLine cmd)) = (walk cmd r).fills := by
    rw [restingTrades, List.filterMap_map]
    apply (List.filterMap_congr _).trans List.filterMap_some
    intro f _
    exact restingTrade_emitFill cmd.side _ f
  have htops : restingTrades cmd.side (topChanges r (matched cmd r)) = [] := by
    rw [topChanges, restingTrades, List.filterMap_append]
    exact congrArg₂ _ (restingTrades_topChange ..) (restingTrades_topChange ..)
  rw [refNewOrder, restingTrades, List.filterMap_cons_none rfl, List.filterMap_append]
  exact (congrArg₂ _ hfills htops).trans (List.append_nil _)

end Orderbook.Observations

import Orderbook.SelfBlocking

namespace Orderbook.MarketFill

open Domain Ladder Matching Book Reference ReferenceWalk Simulation SlotReuse Observations SelfBlocking

def anyPrice (_ : Int) : Bool := true

/-- The walk is not stopped short by an own order: the levels up to the first one that
holds an order of the user serve `q`, or nobody else's order stands behind that level. -/
def MarketUnblocked (user q : Int) (ladder : List (PriceLevel Order)) : Prop :=
  q ≤ foreignQuantity user (resting (reach anyPrice user ladder)) ∨
    ∀ o ∈ resting (beyond anyPrice user ladder), o.userId = user

theorem matchMarket_volume (calls : List BookCall) (s : Side) (cmd : Command) (hq : 0 ≤ cmd.quantity) :
    tradeVolume (matchMarket s cmd (bookAfter calls)).2 =
      min cmd.quantity (foreignQuantity cmd.userId
        (resting (reach anyPrice cmd.userId (ladder (bookAfter calls) s.opposite)))) := by
  have h := represents_after calls
  have hr := sweepLevels_reads anyPrice s (makeIncomingOrder cmd) (levels (bookAfter calls) s.opposite)
    (startWalk cmd (bookAfter calls)) (h.side_nodup s.opposite)
    (fun it hit => h.lt_length s.opposite hit)
  have hlines : (matchMarket s cmd (bookAfter calls)).2 =
      (walkLevels anyPrice cmd.userId cmd.quantity (ladder (bookAfter calls) s.opposite)).fills.map
        (fun f => emitFill s (makeIncomingOrder cmd) f.item f.taken) := by
    rw [matchMarket, marketSweep, matchLevels_eq_sweep]
    exact hr.lines
  rw [hlines, tradeVolume_fills]
  apply walk_takes anyPrice cmd.userId hq
  intro o ho
  apply restingOrders_positive calls s.opposite
  rwa [← resting_ladder]

theorem matchMarket_takes_all_iff (calls : List BookCall) (s : Side) (cmd : Command)
    (hq : 0 < cmd.quantity) :
    tradeVolume (matchMarket s cmd (bookAfter calls)).2 =
        min cmd.quantity (foreignQuantity cmd.userId (restingOrders (bookAfter calls) s.opposite)) ↔
      MarketUnblocked cmd.userId cmd.quantity (ladder (bookAfter calls) s.opposite) := by
  have hpos := restingOrders_positive calls s.opposite
  rw [← resting_ladder] at hpos
  have hbeyond : ∀ o ∈ resting (beyond anyPrice cmd.userId (ladder (bookAfter calls) s.opposite)),
      0 < o.quantity := fun o ho => hpos o (mem_beyond_resting anyPrice cmd.userId ho)
  have hb := foreignQuantity_nonneg cmd.userId hbeyond
  have hsplit := foreignQuantity_split anyPrice cmd.userId (ladder (bookAfter calls) s.opposite)
  rw [matchMarket_volume calls s cmd (Int.le_of_lt hq), ← resting_ladder, hsplit, MarketUnblocked,
    ← foreignQuantity_eq_zero cmd.userId hbeyond]
  omega

/-- Market orders take all the liquidity they may exactly when no own order is in the way. -/
theorem market_takes_all_iff (calls : List BookCall) (cmd : Command) (hq : 0 < cmd.quantity) :
    (tradeVolume (matchMarketBuy cmd (bookAfter calls)).2 =
        min cmd.quantity (foreignQuantity cmd.userId (restingOrders (bookAfter calls) .sell)) ↔
      MarketUnblocked cmd.userId cmd.quantity (ladder (bookAfter calls) .sell)) ∧
    (tradeVolume (matchMarketSell cmd (bookAfter calls)).2 =
        min cmd.quantity (foreignQuantity cmd.userId (restingOrders (bookAfter calls) .buy)) ↔
      MarketUnblocked cmd.userId cmd.quantity (ladder (bookAfter calls) .buy)) :=
  ⟨matchMarket_takes_all_iff calls .buy cmd hq, matchMarket_takes_all_iff calls .sell cmd hq⟩

def ownAskInFront : List BookCall :=
  [.processNewOrder (newOrderCommand [] .sell 1 1 100 5),
    .processNewOrder (newOrderCommand [] .sell 2 2 101 5)]

theorem market_takes_all_user_two :
    tradeVolume (matchMarketBuy (newOrderCommand [] .buy 2 3 0 5) (bookAfter ownAskInFront)).2 =
      min 5 (foreignQuantity 2 (restingOrders (bookAfter ownAskInFront) .sell)) :=
  (market_takes_all_iff ownAskInFront (newOrderCommand [] .buy 2 3 0 5) (by decide)).1.mpr
    (Or.inl (by decide +kernel))

theorem market_stops_at_own_level :
    ¬ tradeVolume (matchMarketBuy (newOrderCommand [] .buy 1 3 0 5) (bookAfter ownAskInFront)).2 =
      min 5 (foreignQuantity 1 (restingOrders (bookAfter ownAskInFront) .sell)) := by
  decide +kernel

end Orderbook.MarketFill

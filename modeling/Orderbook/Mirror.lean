import Orderbook.Feed
import Orderbook.SlotReuse

namespace Orderbook.Mirror

open Domain SlotPool Ladder Matching Book Reference Simulation Slots SlotReuse Feed Library.SortedSearch
  Library.Runs

variable {ι : Type}

def mirrorCommand (cmd : Command) : Command :=
  { cmd with
    side := cmd.side.opposite
    price := -cmd.price }

def mirrorCall : BookCall → BookCall
  | .processNewOrder cmd => .processNewOrder (mirrorCommand cmd)
  | .processCancel cmd => .processCancel (mirrorCommand cmd)

def mirrorOrder (o : Order) : Order :=
  { o with
    side := o.side.opposite
    price := -o.price }

def mirrorTop (tob : TopOfBook) : TopOfBook := { tob with price := -tob.price }

def mirrorLevel (level : PriceLevel ι) : PriceLevel ι := { level with price := -level.price }

def mirrorPool (p : OrderSlotPool) : OrderSlotPool := { p with storage := p.storage.map mirrorOrder }

def mirrorBook (b : SymbolOrderbook) : SymbolOrderbook :=
  { b with
    bids := b.asks.map mirrorLevel
    asks := b.bids.map mirrorLevel
    currentTopBid := mirrorTop b.currentTopAsk
    currentTopAsk := mirrorTop b.currentTopBid
    slotPool := mirrorPool b.slotPool }

def mirrorLine : OutputLine → OutputLine
  | .trade buy sell tradePrice tradeQty =>
      .trade (mirrorOrder sell) (mirrorOrder buy) (-tradePrice) tradeQty
  | .top side tob => .top side.opposite (mirrorTop tob)
  | line => line

/-- The lines of two calls that differ in the order of their top-of-book changes only. -/
def SameUpToTops (lines lines' : List OutputLine) : Prop :=
  ∃ front tops tops', lines = front ++ tops ∧ lines' = front ++ tops' ∧ tops.Perm tops' ∧
    (∀ line ∈ front, isTop line = false) ∧ ∀ line ∈ tops, isTop line = true

section Pool

variable {p : OrderSlotPool} {it : OrderIterator}

@[simp] theorem mirrorPool_length (p : OrderSlotPool) :
    (mirrorPool p).storage.length = p.storage.length := List.length_map _

theorem get_mirror (h : it < p.storage.length) : get (mirrorPool p) it = mirrorOrder (get p it) := by
  simp [SlotPool.get, mirrorPool, h]

theorem set_mirror (p : OrderSlotPool) (it : OrderIterator) (o : Order) :
    set (mirrorPool p) it (mirrorOrder o) = mirrorPool (set p it o) := by
  simp [SlotPool.set, mirrorPool]

theorem allocate_mirror (p : OrderSlotPool) : (allocate (mirrorPool p)).1 = (allocate p).1 := by
  cases hf : p.freeList <;> simp [allocate, mirrorPool, hf]

theorem set_allocate_mirror (p : OrderSlotPool) (o : Order) :
    set (allocate (mirrorPool p)).2 (allocate (mirrorPool p)).1 (mirrorOrder o) =
      mirrorPool (set (allocate p).2 (allocate p).1 o) := by
  cases hf : p.freeList with
  | nil => simp [allocate, mirrorPool, hf, SlotPool.set]
  | cons it rest => simp [allocate, mirrorPool, hf, SlotPool.set]

end Pool

section Levels

variable {levels : List (PriceLevel ι)}

@[simp] theorem resting_mirror (levels : List (PriceLevel ι)) :
    resting (levels.map mirrorLevel) = resting levels := by
  rw [resting, List.flatMap_map]
  rfl

@[simp] theorem mirrorLevel_orders (level : PriceLevel ι) : (mirrorLevel level).orders = level.orders := rfl

@[simp] theorem mirrorLevel_totalQuantity (level : PriceLevel ι) :
    (mirrorLevel level).totalQuantity = level.totalQuantity := rfl

theorem ahead_mirror (s : Side) (p q : Int) : s.opposite.ahead (-p) (-q) ↔ s.ahead p q := by
  cases s with
  | buy => exact Int.neg_lt_neg_iff
  | sell => exact Int.neg_lt_neg_iff

theorem findLevelIndex_mirror (s : Side) (levels : List (PriceLevel ι)) (price : Int) :
    findLevelIndex s.opposite (levels.map mirrorLevel) (-price) = findLevelIndex s levels price := by
  have hs := search_map s.ahead PriceLevel.price s.opposite.ahead PriceLevel.price mirrorLevel
    (fun price => -price) (fun _ => rfl) neg_injective (ahead_mirror s) levels price 0 levels.length
    (Nat.le_refl _) (Nat.le_of_eq (List.length_map _).symm)
  rw [findLevelIndex, findLevelIndex, ← hs]
  simp only [List.length_map]

theorem getOrCreateLevel_mirror (s : Side) (levels : List (PriceLevel ι)) (price : Int) :
    getOrCreateLevel s.opposite (levels.map mirrorLevel) (-price) =
      ((getOrCreateLevel s levels price).1.map mirrorLevel, (getOrCreateLevel s levels price).2) := by
  rw [getOrCreateLevel, getOrCreateLevel, findLevelIndex_mirror]
  rcases findLevelIndex s levels price with ⟨idx, _ | _⟩
  · have hnew : ({ price := -price } : PriceLevel ι) = mirrorLevel { price := price } := rfl
    simp only [hnew, List.map_insertIdx]
  · rfl

theorem removeEmptyLevel_mirror (levels : List (PriceLevel ι)) (index : Nat) :
    removeEmptyLevel (levels.map mirrorLevel) index = (removeEmptyLevel levels index).map mirrorLevel := by
  rw [removeEmptyLevel, removeEmptyLevel, List.getElem?_map]
  cases levels[index]? with
  | none => rfl
  | some level =>
      simp only [Option.map_some]
      rw [apply_ite (List.map mirrorLevel), List.eraseIdx_map]
      rfl

theorem modify_mirror {f : PriceLevel ι → PriceLevel ι}
    (hf : ∀ level, f (mirrorLevel level) = mirrorLevel (f level))
    (levels : List (PriceLevel ι)) (idx : Nat) :
    (levels.map mirrorLevel).modify idx f = (levels.modify idx f).map mirrorLevel := by
  induction levels generalizing idx with
  | nil => simp
  | cons level rest ih =>
      cases idx with
      | zero => simp [hf]
      | succ idx => simp [ih]

theorem eraseOrder_mirror [DecidableEq ι] (it : ι) (quantity : Int) (level : PriceLevel ι) :
    eraseOrder it quantity (mirrorLevel level) = mirrorLevel (eraseOrder it quantity level) := by
  rw [eraseOrder, eraseOrder, apply_ite mirrorLevel]
  rfl

theorem computeTop_mirror (levels : List (PriceLevel ι)) :
    computeTop (levels.map mirrorLevel) = mirrorTop (computeTop levels) := by
  cases levels <;> rfl

theorem topEqual_mirror (a b : TopOfBook) : topEqual (mirrorTop a) (mirrorTop b) = topEqual a b := by
  simp only [topEqual, mirrorTop, Int.neg_inj]

theorem topChange_mirror (s : Side) (old new : TopOfBook) :
    topChange s.opposite (mirrorTop old) (mirrorTop new) = (topChange s old new).map mirrorLine := by
  rw [topChange, topChange, topEqual_mirror, apply_ite (List.map mirrorLine)]
  rfl

end Levels

section Loops

def mirrorWalk (w : Walk) : Walk := { w with slotPool := mirrorPool w.slotPool }

def mirrorScan (scan : Scan) : Scan :=
  { scan with
    walk := mirrorWalk scan.walk
    lines := scan.lines.map mirrorLine }

def mirrorSweep (sweep : Sweep) : Sweep where
  levels := sweep.levels.map mirrorLevel
  walk := mirrorWalk sweep.walk
  lines := sweep.lines.map mirrorLine

variable {w : Walk} {it : OrderIterator} (side : Side) (incoming : Order)

theorem tradeQty_mirror (h : it < w.slotPool.storage.length) :
    tradeQty (mirrorWalk w) it = tradeQty w it := by
  simp only [tradeQty, mirrorWalk, get_mirror h]
  rfl

theorem reduced_mirror (h : it < w.slotPool.storage.length) :
    reduced (mirrorWalk w) it = mirrorOrder (reduced w it) := by
  simp only [reduced, tradeQty_mirror h]
  simp only [mirrorWalk, get_mirror h]
  rfl

theorem settle_mirror (h : it < w.slotPool.storage.length) :
    settle (mirrorWalk w) it = mirrorWalk (settle w it) := by
  rw [settle, settle, reduced_mirror h, tradeQty_mirror h, apply_ite mirrorWalk]
  simp only [mirrorWalk, set_mirror]
  rfl

theorem emitFill_mirror (order : Order) (tradeQty : Int) :
    emitFill side.opposite (mirrorOrder incoming) (mirrorOrder order) tradeQty =
      mirrorLine (emitFill side incoming order tradeQty) := by
  cases side <;> rfl

theorem matchQueue_mirror (dq : List OrderIterator) (total : Int) (w : Walk)
    (hlt : ∀ it ∈ dq, it < w.slotPool.storage.length) :
    matchQueue side.opposite (mirrorOrder incoming) dq total (mirrorWalk w) =
      mirrorScan (matchQueue side incoming dq total w) := by
  induction dq generalizing total w with
  | nil => rfl
  | cons it dq ih =>
      have hit := hlt it List.mem_cons_self
      have htail : ∀ jt ∈ dq, jt < w.slotPool.storage.length :=
        fun jt hjt => hlt jt (List.mem_cons_of_mem it hjt)
      have huser : (get (mirrorWalk w).slotPool it).userId = (get w.slotPool it).userId := by
        rw [mirrorWalk, get_mirror hit]
        rfl
      by_cases hq : 0 < w.incomingQty
      · have hq' : 0 < (mirrorWalk w).incomingQty := hq
        by_cases hu : (get w.slotPool it).userId = incoming.userId
        · rw [matchQueue_skip side incoming it dq total hq hu,
            matchQueue_skip side.opposite (mirrorOrder incoming) it dq total hq' (huser.trans hu),
            ih total w htail]
          rfl
        · have hu' : (get (mirrorWalk w).slotPool it).userId ≠ (mirrorOrder incoming).userId :=
            fun he => hu (huser.symm.trans he)
          have hi := ih (total - tradeQty w it) (settle w it)
            (fun jt hjt => by rw [settle_length]; exact htail jt hjt)
          rw [matchQueue_trade side incoming it dq total hq hu,
            matchQueue_trade side.opposite (mirrorOrder incoming) it dq total hq' hu',
            tradeQty_mirror hit, settle_mirror hit, reduced_mirror hit, emitFill_mirror, hi]
          rfl
      · have hq' : (mirrorWalk w).incomingQty ≤ 0 := Int.not_lt.mp hq
        rw [matchQueue_done side incoming _ total (Int.not_lt.mp hq),
          matchQueue_done side.opposite (mirrorOrder incoming) _ total hq']
        rfl

theorem sweepLevels_mirror {within within' : Int → Bool} (hw : ∀ price, within' (-price) = within price)
    (levels : List (PriceLevel OrderIterator)) (w : Walk) (hd : (resting levels).Nodup)
    (hlt : ∀ it ∈ resting levels, it < w.slotPool.storage.length) :
    sweepLevels within' side.opposite (mirrorOrder incoming) (levels.map mirrorLevel) (mirrorWalk w) =
      mirrorSweep (sweepLevels within side incoming levels w) := by
  induction levels generalizing w with
  | nil => rfl
  | cons level rest ih =>
      rw [resting_cons, List.nodup_append] at hd
      obtain ⟨hlevel, hrest⟩ := forall_resting_cons.mp hlt
      have hprice : within' (mirrorLevel level).price = within level.price := hw level.price
      by_cases hgo : 0 < w.incomingQty ∧ within level.price = true
      · have hscan := matchQueue_mirror side incoming level.orders level.totalQuantity w hlevel
        have hpool := (matchQueue_reads side incoming level.orders level.totalQuantity w hd.1 hlevel).pool
        have hi := ih (matchQueue side incoming level.orders level.totalQuantity w).walk hd.2.1
          (hpool.lt_length hrest)
        rw [List.map_cons, sweepLevels_cons within side incoming level rest w hgo.1 hgo.2,
          sweepLevels_cons within' side.opposite (mirrorOrder incoming) (mirrorLevel level) _ (mirrorWalk w)
            hgo.1 (hprice.trans hgo.2)]
        simp only [mirrorLevel_orders, mirrorLevel_totalQuantity, hscan, mirrorScan]
        generalize matchQueue side incoming level.orders level.totalQuantity w = scan at hi ⊢
        rw [hi]
        by_cases he : scan.queue.isEmpty = true
        · simp only [if_pos he, mirrorSweep, List.map_append]
        · simp only [if_neg he]
          rfl
      · have hgo' : ¬ (0 < (mirrorWalk w).incomingQty ∧ within' (mirrorLevel level).price = true) := by
          rw [hprice]
          exact hgo
        rw [List.map_cons, sweepLevels, if_neg hgo', sweepLevels, if_neg hgo]
        rfl

end Loops

section Calls

variable {b : SymbolOrderbook}

theorem levels_mirror (b : SymbolOrderbook) (s : Side) :
    levels (mirrorBook b) s.opposite = (levels b s).map mirrorLevel := by
  cases s <;> rfl

theorem setLevels_mirror (b : SymbolOrderbook) (s : Side) (ls : List (PriceLevel OrderIterator)) :
    setLevels (mirrorBook b) s.opposite (ls.map mirrorLevel) = mirrorBook (setLevels b s ls) := by
  cases s <;> rfl

theorem absorb_mirror (s : Side) (b : SymbolOrderbook) (sweep : Sweep) :
    absorb s.opposite (mirrorBook b) (mirrorSweep sweep) = mirrorBook (absorb s b sweep) := by
  cases s <;> rfl

theorem exceedsLimit_mirror (s : Side) (price limit : Int) :
    exceedsLimit s.opposite (-price) (-limit) = exceedsLimit s price limit := by
  cases s with
  | buy => simp only [Side.opposite, exceedsLimit, Int.neg_lt_neg_iff]
  | sell => simp only [Side.opposite, exceedsLimit, Int.neg_lt_neg_iff]

theorem marketSweep_mirror (h : SlotInvariant b) (s : Side) (cmd : Command) :
    marketSweep s.opposite (mirrorCommand cmd) (mirrorBook b) = mirrorSweep (marketSweep s cmd b) := by
  rw [marketSweep, marketSweep, matchLevels_eq_sweep, matchLevels_eq_sweep, levels_mirror]
  exact sweepLevels_mirror s (makeIncomingOrder cmd) (fun _ => rfl) (levels b s.opposite) (startWalk cmd b)
    (h.side_nodup s.opposite) (fun it hit => h.lt_length s.opposite hit)

theorem limitSweep_mirror (h : SlotInvariant b) (s : Side) (cmd : Command) :
    limitSweep s.opposite (mirrorCommand cmd) (mirrorBook b) = mirrorSweep (limitSweep s cmd b) := by
  have hd := h.side_nodup s.opposite
  have hlt : ∀ it ∈ resting (levels b s.opposite), it < b.slotPool.storage.length :=
    fun it hit => h.lt_length s.opposite hit
  have hd' : (resting ((levels b s.opposite).map mirrorLevel)).Nodup := by rwa [resting_mirror]
  have hlt' : ∀ it ∈ resting ((levels b s.opposite).map mirrorLevel),
      it < (mirrorPool b.slotPool).storage.length := by
    rwa [resting_mirror, mirrorPool_length]
  -- the limit loop may look at a level again; the sweep that it equals does not
  rw [limitSweep, limitSweep, levels_mirror, matchLevelsLimit_eq_sweep s _ _ _ _ hd hlt,
    matchLevelsLimit_eq_sweep s.opposite _ _ _ _ hd' hlt']
  exact sweepLevels_mirror s (makeIncomingOrder cmd)
    (fun price => by rw [mirrorCommand, exceedsLimit_mirror]) (levels b s.opposite) (startWalk cmd b) hd hlt

theorem restRemainder_mirror (s : Side) (cmd : Command) (quantity : Int) (b : SymbolOrderbook) :
    restRemainder s.opposite (mirrorCommand cmd) quantity (mirrorBook b) =
      mirrorBook (restRemainder s cmd quantity b) := by
  have hslot : (allocate (mirrorBook b).slotPool).1 = (allocate b.slotPool).1 := allocate_mirror b.slotPool
  have hstored : storedOrder s.opposite (mirrorCommand cmd) quantity (mirrorBook b).nextSequence =
      mirrorOrder (storedOrder s cmd quantity b.nextSequence) := rfl
  rw [restRemainder, restRemainder, hstored]
  generalize storedOrder s cmd quantity b.nextSequence = stored
  have hladder : getOrCreateLevel s.opposite (levels (mirrorBook b) s.opposite) (mirrorOrder stored).price =
      ((getOrCreateLevel s (levels b s) stored.price).1.map mirrorLevel,
        (getOrCreateLevel s (levels b s) stored.price).2) := by
    rw [levels_mirror]
    exact getOrCreateLevel_mirror s (levels b s) stored.price
  have hpush := modify_mirror (f := pushOrder (allocate b.slotPool).1 stored.quantity) (fun _ => rfl)
    (getOrCreateLevel s (levels b s) stored.price).1 (getOrCreateLevel s (levels b s) stored.price).2
  have hquantity : (mirrorOrder stored).quantity = stored.quantity := rfl
  have hpool : set (allocate (mirrorBook b).slotPool).2 (allocate b.slotPool).1 (mirrorOrder stored) =
      mirrorPool (set (allocate b.slotPool).2 (allocate b.slotPool).1 stored) := by
    have hset := set_allocate_mirror b.slotPool stored
    rwa [allocate_mirror] at hset
  simp only [hladder, hslot, hquantity, hpush, setLevels_mirror, hpool]
  rfl

theorem unlink_mirror {it : OrderIterator} (h : it < b.slotPool.storage.length) :
    unlink it (mirrorBook b) = mirrorBook (unlink it b) := by
  have hget : get (mirrorBook b).slotPool it = mirrorOrder (get b.slotPool it) := get_mirror h
  rw [unlink, unlink, hget]
  generalize get b.slotPool it = order
  have hside : (mirrorOrder order).side = order.side.opposite := rfl
  have hprice : (mirrorOrder order).price = -order.price := rfl
  have hquantity : (mirrorOrder order).quantity = order.quantity := rfl
  simp only [hside, hprice, hquantity, levels_mirror, findLevelIndex_mirror, List.length_map,
    modify_mirror (eraseOrder_mirror it order.quantity), removeEmptyLevel_mirror, setLevels_mirror]
  rcases findLevelIndex order.side (levels b order.side) order.price with ⟨idx, _ | _⟩
  · simp only [ite_self]
  · simp only [apply_ite mirrorBook]

theorem unlink_slotPool (it : OrderIterator) (b : SymbolOrderbook) : (unlink it b).slotPool = b.slotPool := by
  rw [unlink]
  split_ifs
  · rcases findLevelIndex (get b.slotPool it).side (levels b (get b.slotPool it).side)
      (get b.slotPool it).price with ⟨idx, _ | _⟩
    · rfl
    · simp only
      split_ifs
      · exact setLevels_slotPool b _ _
      · rfl
  · rfl

theorem retire_mirror (key : OrderKey) {it : OrderIterator} (h : it < b.slotPool.storage.length) :
    retire key it (mirrorBook b) = mirrorBook (retire key it b) := by
  have hget : get (mirrorBook b).slotPool it = mirrorOrder (get b.slotPool it) := get_mirror h
  have hset : set (mirrorBook b).slotPool it (mirrorOrder { get b.slotPool it with quantity := 0 }) =
      mirrorPool (set b.slotPool it { get b.slotPool it with quantity := 0 }) := set_mirror b.slotPool it _
  have hzero : { get (mirrorBook b).slotPool it with quantity := 0 } =
      mirrorOrder { get b.slotPool it with quantity := 0 } := by rw [hget]; rfl
  rw [retire, retire, hzero, hset]
  rfl

theorem cancelOrder_mirror (h : SlotInvariant b) (key : OrderKey) :
    cancelOrder key (mirrorBook b) = mirrorBook (cancelOrder key b) := by
  have hmap : (mirrorBook b).ordersByKey key = b.ordersByKey key := rfl
  rw [cancelOrder, cancelOrder, hmap]
  cases hk : b.ordersByKey key with
  | none => rfl
  | some it =>
      have hlt := owned_lt h.owned (h.queued key it hk)
      simp only
      rw [unlink_mirror hlt]
      apply retire_mirror
      rwa [unlink_slotPool]

theorem matchMarket_mirror (h : SlotInvariant b) (s : Side) (cmd : Command) :
    matchMarket s.opposite (mirrorCommand cmd) (mirrorBook b) =
      (mirrorBook (matchMarket s cmd b).1, (matchMarket s cmd b).2.map mirrorLine) := by
  rw [matchMarket, matchMarket, marketSweep_mirror h, absorb_mirror]
  rfl

theorem matchLimit_mirror (h : SlotInvariant b) (s : Side) (cmd : Command) :
    matchLimit s.opposite (mirrorCommand cmd) (mirrorBook b) =
      (mirrorBook (matchLimit s cmd b).1, (matchLimit s cmd b).2.map mirrorLine) := by
  rw [matchLimit, matchLimit, limitSweep_mirror h]
  generalize limitSweep s cmd b = sweep
  by_cases hq : 0 < sweep.walk.incomingQty
  · have hq' : 0 < (mirrorSweep sweep).walk.incomingQty := hq
    simp only [if_pos hq, if_pos hq', absorb_mirror]
    rw [← restRemainder_mirror]
    rfl
  · have hq' : ¬ 0 < (mirrorSweep sweep).walk.incomingQty := hq
    simp only [if_neg hq, if_neg hq', absorb_mirror]
    rfl

theorem matchNewOrder_mirror (h : SlotInvariant b) (cmd : Command) :
    matchNewOrder (mirrorCommand cmd) (mirrorBook b) =
      (mirrorBook (matchNewOrder cmd b).1, (matchNewOrder cmd b).2.map mirrorLine) := by
  have hprice : (mirrorCommand cmd).price = 0 ↔ cmd.price = 0 := Int.neg_eq_zero
  rw [matchNewOrder_eq, matchNewOrder_eq]
  by_cases hp : cmd.price = 0
  · rw [if_pos hp, if_pos (hprice.mpr hp)]
    exact matchMarket_mirror h cmd.side cmd
  · rw [if_neg hp, if_neg (fun hn => hp (hprice.mp hn))]
    exact matchLimit_mirror h cmd.side cmd

/-- The tops of the two sides change places, and so do their lines. -/
theorem update_mirror (oldBid oldAsk : TopOfBook) (b : SymbolOrderbook) :
    updateTopOfBookAndEmitChanges (mirrorTop oldAsk) (mirrorTop oldBid) (mirrorBook b) =
      (mirrorBook (updateTopOfBookAndEmitChanges oldBid oldAsk b).1,
        (topChange .sell oldAsk (computeTopAsk b)).map mirrorLine ++
          (topChange .buy oldBid (computeTopBid b)).map mirrorLine) := by
  have hbid : computeTopBid (mirrorBook b) = mirrorTop (computeTopAsk b) := computeTop_mirror b.asks
  have hask : computeTopAsk (mirrorBook b) = mirrorTop (computeTopBid b) := computeTop_mirror b.bids
  rw [updateTopOfBookAndEmitChanges, hbid, hask]
  exact congrArg₂ _ rfl (congrArg₂ _ (topChange_mirror .sell oldAsk _) (topChange_mirror .buy oldBid _))

theorem isTop_mirror (line : OutputLine) : isTop (mirrorLine line) = isTop line := by
  cases line <;> rfl

theorem isTop_topChange (s : Side) (old new : TopOfBook) : ∀ line ∈ topChange s old new, isTop line = true := by
  intro line hl
  rw [mem_topChange hl]
  rfl

theorem sameUpToTops_swapped {front xs ys : List OutputLine} (hf : ∀ line ∈ front, isTop line = false)
    (hx : ∀ line ∈ xs, isTop line = true) (hy : ∀ line ∈ ys, isTop line = true) :
    SameUpToTops ((front ++ (xs ++ ys)).map mirrorLine)
      (front.map mirrorLine ++ (ys.map mirrorLine ++ xs.map mirrorLine)) := by
  refine ⟨front.map mirrorLine, (xs ++ ys).map mirrorLine, _, List.map_append, rfl, ?_, ?_, ?_⟩
  · rw [List.map_append]
    exact List.perm_append_comm
  · simpa [isTop_mirror] using hf
  · intro line hl
    obtain ⟨line, hm, rfl⟩ := List.mem_map.mp hl
    rw [isTop_mirror]
    exact (List.mem_append.mp hm).elim (hx line) (hy line)

theorem newOrder_mirror (h : Represents b) (cmd : Command) :
    (processNewOrder (mirrorCommand cmd) (mirrorBook b)).1 = mirrorBook (processNewOrder cmd b).1 ∧
      SameUpToTops ((processNewOrder cmd b).2.map mirrorLine)
        (processNewOrder (mirrorCommand cmd) (mirrorBook b)).2 := by
  have hmatched := matchNewOrder_mirror h.toSlotInvariant cmd
  have hlines := (matchNewOrder_reads h.toSlotInvariant h.book.toCoreInvariant cmd).2.2
  have hupdate : updateTopOfBookAndEmitChanges (mirrorBook b).currentTopBid (mirrorBook b).currentTopAsk
      (mirrorBook (matchNewOrder cmd b).1) = _ := update_mirror b.currentTopBid b.currentTopAsk _
  have hfront : ∀ line ∈ OutputLine.ack cmd.userId cmd.userOrderId :: (matchNewOrder cmd b).2,
      isTop line = false := by
    rw [hlines]
    exact isTop_front cmd _
  rw [processNewOrder, hmatched, hupdate]
  exact ⟨rfl, sameUpToTops_swapped hfront (isTop_topChange _ _ _) (isTop_topChange _ _ _)⟩

theorem cancel_mirror (h : Represents b) (cmd : Command) :
    (processCancel (mirrorCommand cmd) (mirrorBook b)).1 = mirrorBook (processCancel cmd b).1 ∧
      SameUpToTops ((processCancel cmd b).2.map mirrorLine)
        (processCancel (mirrorCommand cmd) (mirrorBook b)).2 := by
  have hcancelled : cancelOrder (mirrorCommand cmd).key (mirrorBook b) = mirrorBook (cancelOrder cmd.key b) :=
    cancelOrder_mirror h.toSlotInvariant cmd.key
  have hupdate : updateTopOfBookAndEmitChanges (mirrorBook b).currentTopBid (mirrorBook b).currentTopAsk
      (mirrorBook (cancelOrder cmd.key b)) = _ := update_mirror b.currentTopBid b.currentTopAsk _
  have hfront : ∀ line ∈ [OutputLine.cancelAck cmd.userId cmd.userOrderId], isTop line = false :=
    List.forall_mem_singleton.mpr rfl
  rw [processCancel, hcancelled, hupdate]
  exact ⟨rfl, sameUpToTops_swapped hfront (isTop_topChange _ _ _) (isTop_topChange _ _ _)⟩

theorem call_mirror (h : Represents b) (c : BookCall) :
    (call (mirrorBook b) (mirrorCall c)).1 = mirrorBook (call b c).1 ∧
      SameUpToTops ((call b c).2.map mirrorLine) (call (mirrorBook b) (mirrorCall c)).2 := by
  cases c with
  | processNewOrder cmd => exact newOrder_mirror h cmd
  | processCancel cmd => exact cancel_mirror h cmd

end Calls

theorem bookAfter_mirror (calls : List BookCall) :
    bookAfter (calls.map mirrorCall) = mirrorBook (bookAfter calls) :=
  final_transports call call Represents mirrorBook mirrorCall call_represents
    (fun _ c h => (call_mirror h c).1) calls {} represents_empty

/-- The mirrored run is the mirror of the run, in every book and in the lines of every command. -/
theorem mirrored_run (calls : List BookCall) :
    bookAfter (calls.map mirrorCall) = mirrorBook (bookAfter calls) ∧
      ∀ pre c post, calls = pre ++ c :: post →
        SameUpToTops ((call (bookAfter pre) c).2.map mirrorLine)
          (call (bookAfter (pre.map mirrorCall)) (mirrorCall c)).2 := by
  refine ⟨bookAfter_mirror calls, ?_⟩
  intro pre c _ _
  rw [bookAfter_mirror]
  exact (call_mirror (represents_after pre) c).2

end Orderbook.Mirror

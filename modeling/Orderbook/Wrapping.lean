import Orderbook.Mirror
import Orderbook.Overflow

namespace Orderbook.Wrapping

open Domain SlotPool Ladder Matching Book Reference ReferenceWalk ReferenceInvariant Simulation Slots
  SlotReuse Observations SelfBlocking Feed Mirror Overflow Library.SortedSearch Library.Runs

variable {ι : Type}

def narrowTop (tob : TopOfBook) : TopOfBook := { tob with totalQuantity := int64 tob.totalQuantity }

def narrowed (b : SymbolOrderbook) : SymbolOrderbook :=
  { narrow b with
    currentTopBid := narrowTop b.currentTopBid
    currentTopAsk := narrowTop b.currentTopAsk }

/-- The same book, but for the cached tops and for totals that are the same when they are narrowed. -/
structure Alike (b c : SymbolOrderbook) : Prop where
  levels : ∀ s, (levels c s).map narrowLevel = (levels b s).map narrowLevel
  ordersByKey : c.ordersByKey = b.ordersByKey
  nextSequence : c.nextSequence = b.nextSequence
  slotPool : c.slotPool = b.slotPool

section Levels

variable {s : Side}

@[simp] theorem int64_int64 (n : Int) : int64 (int64 n) = int64 n := by
  have h := int64_add n 0
  rwa [Int.add_zero, Int.add_zero] at h

theorem int64_shift (m n : Int) : int64 (m + (int64 n - n)) = int64 m := by
  have hleft : m + (int64 n - n) = int64 n + (m - n) := by omega
  have hright : n + (m - n) = m := by omega
  rw [hleft, int64_add, hright]

@[simp] theorem narrowLevel_price (level : PriceLevel ι) : (narrowLevel level).price = level.price := rfl

@[simp] theorem narrowLevel_orders (level : PriceLevel ι) : (narrowLevel level).orders = level.orders := rfl

theorem narrowLevel_narrowLevel (level : PriceLevel ι) :
    narrowLevel (narrowLevel level) = narrowLevel level := by
  simp only [narrowLevel, int64_int64]

theorem map_narrow_narrow (levels : List (PriceLevel ι)) :
    (levels.map narrowLevel).map narrowLevel = levels.map narrowLevel := by
  rw [List.map_map]
  exact List.map_congr_left fun level _ => narrowLevel_narrowLevel level

@[simp] theorem resting_narrow (levels : List (PriceLevel ι)) :
    resting (levels.map narrowLevel) = resting levels := by
  rw [resting, List.flatMap_map]
  rfl

theorem findLevelIndex_narrow (s : Side) (levels : List (PriceLevel ι)) (price : Int) :
    findLevelIndex s (levels.map narrowLevel) price = findLevelIndex s levels price := by
  have hs := search_map s.ahead PriceLevel.price s.ahead PriceLevel.price narrowLevel id (fun _ => rfl)
    Function.injective_id (fun _ _ => Iff.rfl) levels price 0 levels.length (Nat.le_refl _)
    (Nat.le_of_eq (List.length_map _).symm)
  rw [findLevelIndex, findLevelIndex, ← hs]
  simp only [List.length_map, id]

theorem getOrCreateLevel_narrow (s : Side) (levels : List (PriceLevel ι)) (price : Int) :
    getOrCreateLevel s (levels.map narrowLevel) price =
      ((getOrCreateLevel s levels price).1.map narrowLevel, (getOrCreateLevel s levels price).2) := by
  rw [getOrCreateLevel, getOrCreateLevel, findLevelIndex_narrow]
  rcases findLevelIndex s levels price with ⟨idx, _ | _⟩
  · have hnew : ({ price := price } : PriceLevel ι) = narrowLevel { price := price } := rfl
    simp only [List.map_insertIdx, ← hnew]
  · rfl

theorem removeEmptyLevel_narrow (levels : List (PriceLevel ι)) (index : Nat) :
    removeEmptyLevel (levels.map narrowLevel) index = (removeEmptyLevel levels index).map narrowLevel := by
  rw [removeEmptyLevel, removeEmptyLevel, List.getElem?_map]
  cases levels[index]? with
  | none => rfl
  | some level =>
      simp only [Option.map_some]
      rw [apply_ite (List.map narrowLevel), List.eraseIdx_map]
      rfl

theorem modify_narrow {f : PriceLevel ι → PriceLevel ι}
    (hf : ∀ level, narrowLevel (f (narrowLevel level)) = narrowLevel (f level))
    (levels : List (PriceLevel ι)) (idx : Nat) :
    ((levels.map narrowLevel).modify idx f).map narrowLevel = (levels.modify idx f).map narrowLevel := by
  induction levels generalizing idx with
  | nil => simp
  | cons level rest ih =>
      cases idx with
      | zero => simp [hf, narrowLevel_narrowLevel]
      | succ idx => simp [ih, narrowLevel_narrowLevel]

theorem pushOrder_narrow (it : ι) (quantity : Int) (level : PriceLevel ι) :
    narrowLevel (pushOrder it quantity (narrowLevel level)) = narrowLevel (pushOrder it quantity level) := by
  simp only [narrowLevel, pushOrder, int64_add]

theorem eraseOrder_narrow [DecidableEq ι] (it : ι) (quantity : Int) (level : PriceLevel ι) :
    narrowLevel (eraseOrder it quantity (narrowLevel level)) = narrowLevel (eraseOrder it quantity level) := by
  rw [eraseOrder, eraseOrder, narrowLevel_orders]
  split_ifs
  · simp only [narrowLevel, Int.sub_eq_add_neg, int64_add]
  · exact narrowLevel_narrowLevel level

theorem rested_narrow (s : Side) (levels : List (PriceLevel ι)) (price : Int)
    {f : PriceLevel ι → PriceLevel ι} (hf : ∀ level, narrowLevel (f (narrowLevel level)) = narrowLevel (f level)) :
    ((getOrCreateLevel s (levels.map narrowLevel) price).1.modify
        (getOrCreateLevel s (levels.map narrowLevel) price).2 f).map narrowLevel =
      ((getOrCreateLevel s levels price).1.modify (getOrCreateLevel s levels price).2 f).map narrowLevel := by
  rw [getOrCreateLevel_narrow]
  exact modify_narrow hf _ _

theorem computeTop_narrow (levels : List (PriceLevel ι)) :
    computeTop (levels.map narrowLevel) = narrowTop (computeTop levels) := by
  cases levels <;> rfl

end Levels

section Loops

variable (side : Side) (incoming : Order)

def narrowSweep (sweep : Sweep) : Sweep := { sweep with levels := sweep.levels.map narrowLevel }

/-- No loop looks at a total: one that is off by `d` stays off by `d`. -/
theorem matchQueue_total (dq : List OrderIterator) (total d : Int) (w : Walk) :
    matchQueue side incoming dq (total + d) w =
      { matchQueue side incoming dq total w with
        totalQuantity := (matchQueue side incoming dq total w).totalQuantity + d } := by
  induction dq generalizing total w with
  | nil => rfl
  | cons it dq ih =>
      by_cases hq : 0 < w.incomingQty
      · by_cases hu : (get w.slotPool it).userId = incoming.userId
        · rw [matchQueue_skip side incoming it dq _ hq hu, matchQueue_skip side incoming it dq _ hq hu, ih]
        · have htotal : total + d - tradeQty w it = total - tradeQty w it + d := by omega
          rw [matchQueue_trade side incoming it dq _ hq hu, matchQueue_trade side incoming it dq _ hq hu,
            htotal, ih]
      · rw [matchQueue_done side incoming _ _ (Int.not_lt.mp hq),
          matchQueue_done side incoming _ _ (Int.not_lt.mp hq)]

theorem sweepLevels_narrow (within : Int → Bool) (levels : List (PriceLevel OrderIterator)) (w : Walk) :
    narrowSweep (sweepLevels within side incoming (levels.map narrowLevel) w) =
      narrowSweep (sweepLevels within side incoming levels w) := by
  induction levels generalizing w with
  | nil => rfl
  | cons level rest ih =>
      rw [List.map_cons]
      by_cases hgo : 0 < w.incomingQty ∧ within level.price = true
      · have hoff : (narrowLevel level).totalQuantity =
            level.totalQuantity + (int64 level.totalQuantity - level.totalQuantity) := by
          have hnarrow : (narrowLevel level).totalQuantity = int64 level.totalQuantity := rfl
          omega
        rw [sweepLevels_cons within side incoming level rest w hgo.1 hgo.2,
          sweepLevels_cons within side incoming (narrowLevel level) _ w hgo.1 hgo.2, narrowLevel_orders, hoff,
          matchQueue_total]
        generalize matchQueue side incoming level.orders level.totalQuantity w = scan
        by_cases he : scan.queue.isEmpty = true
        · have hi := ih scan.walk
          simp only [narrowSweep, Sweep.mk.injEq] at hi
          simp only [if_pos he, narrowSweep, hi]
        · simp only [if_neg he, narrowSweep, List.map_cons, map_narrow_narrow, narrowLevel, scanned,
            int64_shift]
      · have hgo' : ¬ (0 < w.incomingQty ∧ within (narrowLevel level).price = true) := hgo
        rw [sweepLevels, if_neg hgo', sweepLevels, if_neg hgo]
        simp only [narrowSweep, List.map_cons, map_narrow_narrow, narrowLevel_narrowLevel]

end Loops

section Calls

variable {b c : SymbolOrderbook} {s : Side}

theorem alike_narrowed (b : SymbolOrderbook) : Alike b (narrowed b) where
  levels s := by cases s <;> exact map_narrow_narrow _
  ordersByKey := rfl
  nextSequence := rfl
  slotPool := rfl

theorem Alike.slots (h : Alike b c) (hb : SlotInvariant b) : SlotInvariant c := by
  have hside (s : Side) : resting (Book.levels c s) = resting (Book.levels b s) := by
    rw [← resting_narrow, h.levels, resting_narrow]
  have hused : used c = used b := congrArg₂ _ (hside .buy) (hside .sell)
  constructor
  · rw [h.slotPool, hused]
    exact hb.owned
  · rw [h.ordersByKey, hused]
    exact hb.queued

theorem Alike.setLevels (h : Alike b c) (s : Side) {ls ls' : List (PriceLevel OrderIterator)}
    (hl : ls'.map narrowLevel = ls.map narrowLevel) : Alike (setLevels b s ls) (setLevels c s ls') := by
  have hbids := h.levels .buy
  have hasks := h.levels .sell
  constructor
  · intro t
    cases s <;> cases t <;> assumption
  · cases s <;> exact h.ordersByKey
  · cases s <;> exact h.nextSequence
  · cases s <;> exact h.slotPool

theorem Alike.absorb (h : Alike b c) (s : Side) {sweep sweep' : Sweep}
    (hs : narrowSweep sweep' = narrowSweep sweep) : Alike (absorb s b sweep) (absorb s c sweep') := by
  have hset := h.setLevels s (congrArg Sweep.levels hs)
  have hwalk : (narrowSweep sweep').walk = (narrowSweep sweep).walk := by rw [hs]
  constructor
  · intro t
    cases t with
    | buy => exact hset.levels .buy
    | sell => exact hset.levels .sell
  · exact congrArg Walk.ordersByKey hwalk
  · exact hset.nextSequence
  · exact congrArg Walk.slotPool hwalk

theorem Alike.orderSweep (h : Alike b c) (cmd : Command) :
    narrowSweep (orderSweep cmd c) = narrowSweep (orderSweep cmd b) := by
  have hstart : startWalk cmd c = startWalk cmd b := by
    rw [startWalk, h.slotPool, h.ordersByKey, startWalk]
  rw [Slots.orderSweep, Slots.orderSweep, ← sweepLevels_narrow, h.levels, sweepLevels_narrow, hstart]

theorem Alike.restRemainder (h : Alike b c) (s : Side) (cmd : Command) (quantity : Int) :
    Alike (restRemainder s cmd quantity b) (restRemainder s cmd quantity c) := by
  rw [Book.restRemainder, Book.restRemainder, h.nextSequence, h.slotPool, h.ordersByKey]
  generalize storedOrder s cmd quantity b.nextSequence = stored
  have hf := pushOrder_narrow (allocate b.slotPool).1 stored.quantity
  have hladder := rested_narrow s (Book.levels c s) stored.price hf
  rw [h.levels, rested_narrow s _ stored.price hf] at hladder
  have hset := h.setLevels s hladder.symm
  constructor
  · intro t
    cases t with
    | buy => exact hset.levels .buy
    | sell => exact hset.levels .sell
  · rfl
  · rfl
  · rfl

theorem Alike.matchNewOrder (h : Alike b c) (hb : SlotInvariant b) (cmd : Command) :
    Alike (matchNewOrder cmd b).1 (matchNewOrder cmd c).1 ∧
      (matchNewOrder cmd c).2 = (matchNewOrder cmd b).2 := by
  have hsweep := h.orderSweep cmd
  have habsorb := h.absorb cmd.side.opposite hsweep
  have hlines : (narrowSweep (Slots.orderSweep cmd c)).lines =
      (narrowSweep (Slots.orderSweep cmd b)).lines := by
    rw [hsweep]
  have hleft : (narrowSweep (Slots.orderSweep cmd c)).walk.incomingQty =
      (narrowSweep (Slots.orderSweep cmd b)).walk.incomingQty := by
    rw [hsweep]
  change (Slots.orderSweep cmd c).walk.incomingQty = (Slots.orderSweep cmd b).walk.incomingQty at hleft
  rw [matchNewOrder_eq, matchNewOrder_eq]
  by_cases hp : cmd.price = 0
  · rw [if_pos hp, if_pos hp, matchMarket, matchMarket, marketSweep_eq cmd b hp, marketSweep_eq cmd c hp]
    exact ⟨habsorb, hlines⟩
  · rw [if_neg hp, if_neg hp, matchLimit, matchLimit, limitSweep_eq cmd b hp hb,
      limitSweep_eq cmd c hp (h.slots hb)]
    by_cases hq : 0 < (Slots.orderSweep cmd b).walk.incomingQty
    · simp only [hleft, if_pos hq]
      exact ⟨habsorb.restRemainder cmd.side cmd _, hlines⟩
    · simp only [hleft, if_neg hq]
      exact ⟨habsorb, hlines⟩

theorem Alike.unlink (h : Alike b c) (it : OrderIterator) : Alike (unlink it b) (unlink it c) := by
  rw [Book.unlink, Book.unlink, h.slotPool]
  generalize get b.slotPool it = order
  have hfind : findLevelIndex order.side (Book.levels c order.side) order.price =
      findLevelIndex order.side (Book.levels b order.side) order.price := by
    rw [← findLevelIndex_narrow, h.levels, findLevelIndex_narrow]
  have hlength : (Book.levels c order.side).length = (Book.levels b order.side).length := by
    rw [← List.length_map narrowLevel, h.levels, List.length_map]
  have hladder (idx : Nat) :
      (removeEmptyLevel ((Book.levels c order.side).modify idx (eraseOrder it order.quantity)) idx).map
          narrowLevel =
        (removeEmptyLevel ((Book.levels b order.side).modify idx (eraseOrder it order.quantity)) idx).map
          narrowLevel := by
    rw [← removeEmptyLevel_narrow, ← modify_narrow (eraseOrder_narrow it order.quantity), h.levels,
      modify_narrow (eraseOrder_narrow it order.quantity), removeEmptyLevel_narrow]
  simp only [hfind, hlength]
  split_ifs
  · rcases findLevelIndex order.side (Book.levels b order.side) order.price with ⟨idx, _ | _⟩
    · exact h
    · simp only
      split_ifs
      · exact h.setLevels order.side (hladder idx)
      · exact h
  · exact h

theorem Alike.cancelOrder (h : Alike b c) (key : OrderKey) : Alike (cancelOrder key b) (cancelOrder key c) := by
  rw [Book.cancelOrder, Book.cancelOrder, h.ordersByKey]
  cases b.ordersByKey key with
  | none => exact h
  | some it =>
      have hu := h.unlink it
      constructor
      · exact hu.levels
      · simp only [retire, hu.ordersByKey]
      · exact hu.nextSequence
      · simp only [retire, hu.slotPool]

theorem Alike.update (h : Alike b c) (oldBid oldAsk : TopOfBook) :
    (updateTopOfBookAndEmitChanges (narrowTop oldBid) (narrowTop oldAsk) (narrow c)).1 =
        narrowed (updateTopOfBookAndEmitChanges oldBid oldAsk b).1 ∧
      (updateTopOfBookAndEmitChanges (narrowTop oldBid) (narrowTop oldAsk) (narrow c)).2 =
        topChange .buy (narrowTop oldBid) (narrowTop (computeTopBid b)) ++
          topChange .sell (narrowTop oldAsk) (narrowTop (computeTopAsk b)) := by
  have hbids : c.bids.map narrowLevel = b.bids.map narrowLevel := h.levels .buy
  have hasks : c.asks.map narrowLevel = b.asks.map narrowLevel := h.levels .sell
  simp only [updateTopOfBookAndEmitChanges, narrowed, narrow, computeTopBid, computeTopAsk, hbids, hasks,
    computeTop_narrow, h.ordersByKey, h.nextSequence, h.slotPool, and_self]

theorem call64_narrowed (h : Represents b) (x : BookCall) :
    (call64 (narrowed b) x).1 = narrowed (call b x).1 ∧
      ∃ front, (∀ line ∈ front, isTop line = false) ∧
        (call b x).2 = front ++ (topChange .buy b.currentTopBid (computeTopBid (call b x).1) ++
          topChange .sell b.currentTopAsk (computeTopAsk (call b x).1)) ∧
        (call64 (narrowed b) x).2 = front ++
          (topChange .buy (narrowTop b.currentTopBid) (narrowTop (computeTopBid (call b x).1)) ++
            topChange .sell (narrowTop b.currentTopAsk) (narrowTop (computeTopAsk (call b x).1))) := by
  cases x with
  | processNewOrder cmd =>
      obtain ⟨halike, hlines⟩ := (alike_narrowed b).matchNewOrder h.toSlotInvariant cmd
      obtain ⟨hbook, htops⟩ := halike.update b.currentTopBid b.currentTopAsk
      have hfront := isTop_front cmd (walk cmd (deref b)).fills
      rw [← (matchNewOrder_reads h.toSlotInvariant h.book.toCoreInvariant cmd).2.2] at hfront
      refine ⟨hbook, .ack cmd.userId cmd.userOrderId :: (Book.matchNewOrder cmd b).2, hfront, rfl, ?_⟩
      rw [call64, processNewOrder64, hlines]
      exact congrArg _ (congrArg _ htops)
  | processCancel cmd =>
      have halike := (alike_narrowed b).cancelOrder cmd.key
      obtain ⟨hbook, htops⟩ := halike.update b.currentTopBid b.currentTopAsk
      exact ⟨hbook, [.cancelAck cmd.userId cmd.userOrderId], List.forall_mem_singleton.mpr rfl, rfl,
        congrArg _ htops⟩

end Calls

section Runs

/-- A book as calls with `int64_t` totals leave it. -/
def NarrowBook (b : SymbolOrderbook) : Prop := ∃ c, Represents c ∧ b = narrowed c

theorem narrowBook_empty : NarrowBook {} := ⟨{}, represents_empty, rfl⟩

theorem NarrowBook.call64 {b : SymbolOrderbook} (h : NarrowBook b) (x : BookCall) : NarrowBook (call64 b x).1 := by
  obtain ⟨c, hc, rfl⟩ := h
  exact ⟨(call c x).1, call_represents c x hc, (call64_narrowed hc x).1⟩

theorem bookAfter64_eq (calls : List BookCall) : bookAfter64 calls = narrowed (bookAfter calls) := by
  have hrun := final_transports call call64 Represents narrowed id call_represents
    (fun b x h => (call64_narrowed h x).1) calls {} represents_empty
  rwa [List.map_id] at hrun

theorem tops_after (calls : List BookCall) :
    (bookAfter calls).currentTopBid = computeTopBid (bookAfter calls) ∧
      (bookAfter calls).currentTopAsk = computeTopAsk (bookAfter calls) := by
  induction calls using List.reverseRecOn with
  | nil => exact ⟨rfl, rfl⟩
  | append_singleton calls x _ =>
      rw [bookAfter_concat]
      cases x <;> exact ⟨rfl, rfl⟩

/-- The tops that a call publishes when the best levels change as told, with totals as `int64_t`. -/
def narrowChanges (before after : SymbolOrderbook) : List OutputLine :=
  topChange .buy (narrowTop (computeTopBid before)) (narrowTop (computeTopBid after)) ++
    topChange .sell (narrowTop (computeTopAsk before)) (narrowTop (computeTopAsk after))

/-- Wherever the totals of a run wrap around, nothing else of a call changes: it leaves the orders,
queues, slots and arrival numbers that it leaves with unbounded totals, says the same but for the
tops, and publishes the tops that it finds and leaves with unbounded totals, narrowed. -/
structure Confined (calls : List BookCall) (x : BookCall) : Prop where
  book : (call64 (bookAfter64 calls) x).1 = narrowed (bookAfter (calls ++ [x]))
  others : (call64 (bookAfter64 calls) x).2.filter (fun line => !isTop line) =
    (call (bookAfter calls) x).2.filter (fun line => !isTop line)
  tops : (call64 (bookAfter64 calls) x).2.filter isTop =
    narrowChanges (bookAfter calls) (bookAfter (calls ++ [x]))

theorem call64_after (calls : List BookCall) (x : BookCall) :
    ∃ front, (∀ line ∈ front, isTop line = false) ∧
      (call (bookAfter calls) x).2 = front ++
        (topChange .buy (bookAfter calls).currentTopBid (computeTopBid (bookAfter (calls ++ [x]))) ++
          topChange .sell (bookAfter calls).currentTopAsk (computeTopAsk (bookAfter (calls ++ [x])))) ∧
      (call64 (bookAfter64 calls) x).2 =
        front ++ narrowChanges (bookAfter calls) (bookAfter (calls ++ [x])) := by
  obtain ⟨-, front, hfront, hlines, hlines64⟩ := call64_narrowed (represents_after calls) x
  obtain ⟨hbid, hask⟩ := tops_after calls
  rw [← bookAfter_concat] at hlines hlines64
  refine ⟨front, hfront, hlines, ?_⟩
  rw [bookAfter64_eq, hlines64, narrowChanges, hbid, hask]

theorem filter_lines {front tops : List OutputLine} (hf : ∀ line ∈ front, isTop line = false)
    (ht : ∀ line ∈ tops, isTop line = true) :
    (front ++ tops).filter (fun line => !isTop line) = front ∧ (front ++ tops).filter isTop = tops := by
  rw [List.filter_append, List.filter_append, List.filter_eq_self.mpr ht]
  constructor
  · rw [List.filter_eq_self.mpr (by simpa using hf), List.filter_eq_nil_iff.mpr (by simpa using ht),
      List.append_nil]
  · rw [List.filter_eq_nil_iff.mpr (by simpa using hf), List.nil_append]

theorem isTop_changes (oldBid oldAsk newBid newAsk : TopOfBook) :
    ∀ line ∈ topChange .buy oldBid newBid ++ topChange .sell oldAsk newAsk, isTop line = true :=
  List.forall_mem_append.mpr ⟨isTop_topChange _ _ _, isTop_topChange _ _ _⟩

theorem wrapping_confined (calls : List BookCall) (x : BookCall) : Confined calls x := by
  obtain ⟨front, hfront, hlines, hlines64⟩ := call64_after calls x
  constructor
  · rw [bookAfter64_eq, (call64_narrowed (represents_after calls) x).1, bookAfter_concat]
  · rw [hlines64, hlines, (filter_lines hfront (isTop_changes _ _ _ _)).1]
    exact (filter_lines hfront (isTop_changes _ _ _ _)).1
  · rw [hlines64]
    exact (filter_lines hfront (isTop_changes _ _ _ _)).2

end Runs

section Exposure

def broughtTo (s : Side) (price : Int) : BookCall → Int
  | .processNewOrder cmd => if cmd.side = s ∧ cmd.price = price ∧ price ≠ 0 then max cmd.quantity 0 else 0
  | .processCancel _ => 0

/-- The quantities of all limit orders that were ever submitted at a price of a side. -/
def exposure (s : Side) (price : Int) (calls : List BookCall) : Int := (calls.map (broughtTo s price)).sum

theorem exposure_concat (s : Side) (price : Int) (calls : List BookCall) (x : BookCall) :
    exposure s price (calls ++ [x]) = exposure s price calls + broughtTo s price x := by
  simp [exposure]

theorem broughtTo_nonneg (s : Side) (price : Int) (x : BookCall) : 0 ≤ broughtTo s price x := by
  cases x with
  | processNewOrder cmd =>
      rw [broughtTo]
      split_ifs
      · exact Int.le_max_right _ _
      · exact Int.le_refl _
  | processCancel => exact Int.le_refl _

theorem available_nonneg {r : ReferenceBook} (h : CoreInvariant r) (cmd : Command) : 0 ≤ available cmd r := by
  apply foreignQuantity_nonneg
  exact fun o ho => (h.side cmd.side.opposite).positive o (mem_reach_resting _ _ ho)

theorem quantityAt_call {r : ReferenceBook} (h : CoreInvariant r) (x : BookCall) (s : Side) (price : Int) :
    quantityAt (resting (sideLevels (refCall r x).1 s)) price ≤
      quantityAt (resting (sideLevels r s)) price + broughtTo s price x := by
  have hnonneg := broughtTo_nonneg s price x
  cases x with
  | processNewOrder cmd =>
      change quantityAt (resting (sideLevels (refreshTops (matched cmd r)) s)) price ≤ _
      rw [sideLevels_refreshTops]
      by_cases hs : s = cmd.side
      · rw [hs] at hnonneg ⊢
        by_cases hr : rests cmd r
        · rw [quantityAt_matched_own hr, walk_left h hr.2, broughtTo]
          have havailable := available_nonneg h cmd
          have hprice := hr.1
          split_ifs with hp hall hall
          · omega
          · exact absurd ⟨rfl, hp, hp ▸ hprice⟩ hall
          · exact absurd hall.2.1 hp
          · exact Int.le_refl _
        · rw [matched_own, if_neg hr]
          omega
      · have hopposite : s = cmd.side.opposite := by
          cases s <;> cases hc : cmd.side <;> simp_all [Side.opposite]
        have hle := quantityAt_matched_opposite h cmd price
        rw [← hopposite] at hle
        omega
  | processCancel cmd =>
      change quantityAt (resting (sideLevels (refreshTops (cancelled cmd.key r)) s)) price ≤ _
      rw [sideLevels_refreshTops]
      cases hk : r.instances cmd.key with
      | none =>
          have hsame : cancelled cmd.key r = r := by simp only [cancelled, hk]
          rw [hsame]
          omega
      | some n =>
          rw [SlotCancel.sideLevels_cancelled hk, resting_removeInstance (h.side_nodup s)]
          have hle := quantityAt_filter (h.side s).positive (fun o => o.sequence ≠ n) price
          omega

theorem quantityAt_le_exposure (calls : List BookCall) (s : Side) (price : Int) :
    quantityAt (restingOrders (bookAfter calls) s) price ≤ exposure s price calls := by
  rw [restingOrders_eq]
  induction calls using List.reverseRecOn with
  | nil => cases s <;> exact Int.le_refl _
  | append_singleton calls x ih =>
      have h := represents_after calls
      have hread : deref (bookAfter (calls ++ [x])) = (refCall (deref (bookAfter calls)) x).1 := by
        rw [call_reads h, bookAfter, final_concat]
        rfl
      have hcall := quantityAt_call h.book.toCoreInvariant x s price
      rw [hread, exposure_concat]
      omega

/-- As long as the limit orders of each price add up to an `int64_t`, the book with such totals is the
book with unbounded ones. -/
theorem exact_of_exposure (calls : List BookCall)
    (h : ∀ s price, exposure s price calls ≤ Int64.maxValue.toInt) :
    bookAfter64 calls = bookAfter calls ∧ output call64 {} calls = output call {} calls := by
  induction calls using List.reverseRecOn with
  | nil => exact ⟨rfl, rfl⟩
  | append_singleton calls x ih =>
      have hbefore (s : Side) (price : Int) : exposure s price calls ≤ Int64.maxValue.toInt := by
        have hle := h s price
        have hx := broughtTo_nonneg s price x
        rw [exposure_concat] at hle
        omega
      obtain ⟨hbook, hout⟩ := ih hbefore
      have hr := represents_after calls
      have hbounded : Bounded (deref (bookAfter calls)) := by
        intro s price
        rw [← restingOrders_eq]
        exact Int.le_trans (quantityAt_le_exposure calls s price) (hbefore s price)
      have hadmitted : CallFits (bookAfter calls) x := by
        cases x with
        | processNewOrder cmd =>
            intro hprice hleft
            have hle := h cmd.side cmd.price
            have hresting := quantityAt_le_exposure calls cmd.side cmd.price
            have hoffered : 0 ≤ offered (bookAfter calls) cmd := by
              rw [offered, ladder_eq]
              exact available_nonneg hr.book.toCoreInvariant cmd
            rw [exposure_concat, broughtTo, if_pos ⟨rfl, rfl, hprice⟩] at hle
            omega
        | processCancel => trivial
      have hsame := (call64_eq ⟨hr, hbounded⟩ hadmitted).1
      constructor
      · rw [bookAfter64, bookAfter, final_concat, final_concat]
        change (call64 (bookAfter64 calls) x).1 = (call (bookAfter calls) x).1
        rw [hbook, hsame]
      · rw [output_concat, output_concat, hout]
        change _ ++ (call64 (bookAfter64 calls) x).2 = _ ++ (call (bookAfter calls) x).2
        rw [hbook, hsame]

theorem exact_of_exposure_halves :
    let halves : List BookCall :=
      [.processNewOrder (newOrderCommand [] .buy 1 1 10 4611686018427387904),
        .processNewOrder (newOrderCommand [] .buy 2 2 10 4611686018427387903),
        .processNewOrder (newOrderCommand [] .sell 3 3 10 7)]
    bookAfter64 halves = bookAfter halves ∧ output call64 {} halves = output call {} halves := by
  intro halves
  apply exact_of_exposure
  intro s price
  by_cases hp : price = 10
  · rw [hp]
    cases s <;> decide
  · have hnone : exposure s price halves = 0 := by
      simp [halves, exposure, broughtTo, newOrderCommand, Ne.symm hp]
    rw [hnone]
    decide

end Exposure

end Orderbook.Wrapping

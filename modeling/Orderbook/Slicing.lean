import Orderbook.Legality

namespace Orderbook.Slicing

open Domain SlotPool Ladder Matching Book Simulation Slots SlotReuse Observations Ledger Legality
  Library.QueueFill Library.Runs

def marketOrder (symbol : Text) (side : Side) (userId userOrderId quantity : Int) : Command :=
  newOrderCommand symbol side userId userOrderId 0 quantity

def inTwo (first second : Command) : List BookCall := [.processNewOrder first, .processNewOrder second]

/-- The orders `first` and `second` do to the book, and to each resting order, what the order
`whole` does alone. -/
structure SlicesOf (first second whole : Command) (b : SymbolOrderbook) : Prop where
  book_eq : final call b (inTwo first second) = (processNewOrder whole b).1
  volume_eq : ∀ o ∈ allResting b, restingVolume o.sequence (output call b (inTwo first second)) =
    restingVolume o.sequence (processNewOrder whole b).2

def moreQty (w : Walk) (q : Int) : Walk := { w with incomingQty := w.incomingQty + q }

section Queue

variable (side : Side) (incoming : Order) {q : Int}

def scanEffect (scan : Scan) : List OrderIterator × Int × Walk := (scan.queue, scan.totalQuantity, scan.walk)

theorem settle_whole {w : Walk} {it : OrderIterator} (h : (get w.slotPool it).quantity ≤ w.incomingQty)
    (hq : 0 < q) : tradeQty (moreQty w q) it = tradeQty w it ∧ reduced (moreQty w q) it = reduced w it ∧
      settle (moreQty w q) it = moreQty (settle w it) q := by
  have ht : tradeQty (moreQty w q) it = tradeQty w it := by
    simp only [tradeQty, moreQty]
    omega
  have hr : reduced (moreQty w q) it = reduced w it := by
    rw [reduced, ht]
    rfl
  refine ⟨ht, hr, ?_⟩
  rw [settle, settle, ht, hr]
  have hadd : (moreQty w q).incomingQty - tradeQty w it = w.incomingQty - tradeQty w it + q := by
    simp only [moreQty]
    omega
  rw [hadd]
  split_ifs <;> rfl

section Part

variable {w : Walk} {it : OrderIterator} (hit : it < w.slotPool.storage.length)
  (h : w.incomingQty < (get w.slotPool it).quantity)
include hit h

theorem tradeQty_part : tradeQty (moreQty w q) it = tradeQty w it + tradeQty (moreQty (settle w it) q) it := by
  have ht : tradeQty w it = w.incomingQty := by
    simp only [tradeQty]
    omega
  simp only [tradeQty, moreQty, settle_get_self w it hit, settle_incomingQty, reduced] at ht ⊢
  omega

theorem reduced_part : reduced (moreQty w q) it = reduced (moreQty (settle w it) q) it := by
  have hself := settle_get_self w it hit
  have hpool : (moreQty (settle w it) q).slotPool = (settle w it).slotPool := rfl
  have hquantity : (reduced (moreQty w q) it).quantity = (reduced (moreQty (settle w it) q) it).quantity := by
    change (get w.slotPool it).quantity - tradeQty (moreQty w q) it =
      (get (settle w it).slotPool it).quantity - tradeQty (moreQty (settle w it) q) it
    rw [tradeQty_part hit h, hself]
    simp only [reduced]
    omega
  simp only [reduced, hpool, hself] at hquantity ⊢
  rw [hquantity]
  rfl

theorem settle_part : settle (moreQty w q) it = settle (moreQty (settle w it) q) it := by
  have hne : (reduced w it).quantity ≠ 0 := by
    simp only [reduced, tradeQty]
    omega
  have hpool : (settle w it).slotPool = set w.slotPool it (reduced w it) := by
    rw [settle, if_neg hne]
  have hkeys := settle_ordersByKey w it
  rw [if_neg hne] at hkeys
  have hleft : (moreQty w q).incomingQty - tradeQty (moreQty w q) it =
      (moreQty (settle w it) q).incomingQty - tradeQty (moreQty (settle w it) q) it := by
    rw [tradeQty_part hit h]
    simp only [moreQty, settle_incomingQty]
    omega
  rw [settle, settle, ← reduced_part hit h, hleft]
  simp only [moreQty, hpool, hkeys, set_set]

end Part

variable (it : OrderIterator) (dq : List OrderIterator) (total : Int) {w : Walk}

theorem scanEffect_skip (hw : 0 < w.incomingQty) (hu : (get w.slotPool it).userId = incoming.userId) :
    scanEffect (matchQueue side incoming (it :: dq) total w) =
      (it :: (scanEffect (matchQueue side incoming dq total w)).1,
        (scanEffect (matchQueue side incoming dq total w)).2) := by
  rw [matchQueue_skip side incoming it dq total hw hu]
  rfl

theorem scanEffect_trade (hw : 0 < w.incomingQty) (hu : (get w.slotPool it).userId ≠ incoming.userId) :
    scanEffect (matchQueue side incoming (it :: dq) total w) =
      (if (reduced w it).quantity = 0 then
          (scanEffect (matchQueue side incoming dq (total - tradeQty w it) (settle w it))).1
        else it :: (scanEffect (matchQueue side incoming dq (total - tradeQty w it) (settle w it))).1,
        (scanEffect (matchQueue side incoming dq (total - tradeQty w it) (settle w it))).2) := by
  rw [matchQueue_trade side incoming it dq total hw hu]
  rfl

theorem left_nonneg_scan (hw : 0 ≤ w.incomingQty) (hd : dq.Nodup)
    (hlt : ∀ it ∈ dq, it < w.slotPool.storage.length) :
    0 ≤ (matchQueue side incoming dq total w).walk.incomingQty := by
  rw [(matchQueue_reads side incoming dq total w hd hlt).left]
  exact left_nonneg _ hw _

/-- A scan for `q` more is a scan, and then a scan for the rest of it over what the first one left. -/
def Resumes (dq : List OrderIterator) (total : Int) (w : Walk) (q : Int) : Prop :=
  scanEffect (matchQueue side incoming dq total (moreQty w q)) =
    scanEffect (matchQueue side incoming (matchQueue side incoming dq total w).queue
      (matchQueue side incoming dq total w).totalQuantity
      (moreQty (matchQueue side incoming dq total w).walk q))

section Order

variable {it} {dq} (hq : 0 < q)
include hq

theorem moreQty_pos (hw : 0 ≤ w.incomingQty) : 0 < (moreQty w q).incomingQty := by
  simp only [moreQty]
  omega

theorem resumes_own (hpos : 0 < w.incomingQty) (hu : (get w.slotPool it).userId = incoming.userId)
    (hd : dq.Nodup) (hlt : ∀ it ∈ dq, it < w.slotPool.storage.length)
    (h : Resumes side incoming dq total w q) : Resumes side incoming (it :: dq) total w q := by
  have hmore := moreQty_pos hq (Int.le_of_lt hpos)
  have hagain := moreQty_pos hq (left_nonneg_scan side incoming dq total (Int.le_of_lt hpos) hd hlt)
  have hown : (get (matchQueue side incoming dq total w).walk.slotPool it).userId = incoming.userId := by
    obtain ⟨n, hn⟩ := (matchQueue_reads side incoming dq total w hd hlt).pool.identity it
    rw [hn]
    exact hu
  rw [Resumes, matchQueue_skip side incoming it dq total hpos hu,
    scanEffect_skip side incoming it _ _ hagain hown, scanEffect_skip side incoming it dq total hmore hu, h]

theorem resumes_filled (hpos : 0 < w.incomingQty) (hu : (get w.slotPool it).userId ≠ incoming.userId)
    (ha : (get w.slotPool it).quantity ≤ w.incomingQty)
    (h : Resumes side incoming dq (total - tradeQty w it) (settle w it) q) :
    Resumes side incoming (it :: dq) total w q := by
  have hmore := moreQty_pos hq (Int.le_of_lt hpos)
  obtain ⟨ht, hr, hs⟩ := settle_whole ha hq
  have hgone : (reduced w it).quantity = 0 := by
    simp only [reduced, tradeQty]
    omega
  rw [Resumes, scanEffect_trade side incoming it dq total hmore hu,
    matchQueue_trade side incoming it dq total hpos hu]
  simp only [ht, hr, hs, if_pos hgone]
  exact h

theorem resumes_inside (hit : it < w.slotPool.storage.length) (hpos : 0 < w.incomingQty)
    (hu : (get w.slotPool it).userId ≠ incoming.userId) (ha : w.incomingQty < (get w.slotPool it).quantity) :
    Resumes side incoming (it :: dq) total w q := by
  have hmore := moreQty_pos hq (Int.le_of_lt hpos)
  have hkept : (reduced w it).quantity ≠ 0 := by
    simp only [reduced, tradeQty]
    omega
  have hzero := settle_exhausts hkept
  have hagain : 0 < (moreQty (settle w it) q).incomingQty := moreQty_pos hq (Int.le_of_eq hzero.symm)
  have hforeign : (get (moreQty (settle w it) q).slotPool it).userId ≠ incoming.userId := by
    rw [show (moreQty (settle w it) q).slotPool = (settle w it).slotPool from rfl, settle_get_self w it hit]
    exact hu
  rw [Resumes, scanEffect_trade side incoming it dq total hmore hu,
    matchQueue_trade side incoming it dq total hpos hu]
  simp only [if_neg hkept, matchQueue_done side incoming dq _ (Int.le_of_eq hzero)]
  rw [scanEffect_trade side incoming it dq _ hagain hforeign, reduced_part hit ha, settle_part hit ha,
    tradeQty_part hit ha, Int.sub_sub]

end Order

theorem matchQueue_more (hq : 0 < q) (hw : 0 ≤ w.incomingQty) (hd : dq.Nodup)
    (hlt : ∀ it ∈ dq, it < w.slotPool.storage.length) : Resumes side incoming dq total w q := by
  induction dq generalizing total w with
  | nil => rfl
  | cons it dq ih =>
      rw [List.nodup_cons] at hd
      have hit : it < w.slotPool.storage.length := hlt it List.mem_cons_self
      have htail : ∀ jt ∈ dq, jt < w.slotPool.storage.length :=
        fun jt hjt => hlt jt (List.mem_cons_of_mem it hjt)
      by_cases hpos : 0 < w.incomingQty
      · by_cases hu : (get w.slotPool it).userId = incoming.userId
        · exact resumes_own side incoming total hq hpos hu hd.2 htail (ih total hw hd.2 htail)
        · by_cases ha : (get w.slotPool it).quantity ≤ w.incomingQty
          · have hleft : 0 ≤ (settle w it).incomingQty := by
              rw [settle_incomingQty, tradeQty]
              omega
            apply resumes_filled side incoming total hq hpos hu ha
            exact ih _ hleft hd.2 (fun jt hjt => by rw [settle_length]; exact htail jt hjt)
          · exact resumes_inside side incoming total hq hit hpos hu (Int.not_le.mp ha)
      · rw [Resumes, matchQueue_done side incoming _ total (Int.not_lt.mp hpos)]

end Queue

section Levels

variable (side : Side) (incoming : Order) {q : Int}

def sweepEffect (sweep : Sweep) : List (PriceLevel OrderIterator) × Walk := (sweep.levels, sweep.walk)

def atQty (w : Walk) (q : Int) : Walk := { w with incomingQty := q }

def goOn (level : PriceLevel OrderIterator) (rest : List (PriceLevel OrderIterator))
    (e : List OrderIterator × Int × Walk) : List (PriceLevel OrderIterator) × Walk :=
  if e.1.isEmpty then sweepEffect (matchLevels side incoming rest e.2.2)
  else (⟨level.price, e.2.1, e.1⟩ :: rest, e.2.2)

theorem matchLevels_done (levels : List (PriceLevel OrderIterator)) {w : Walk} (hw : ¬ 0 < w.incomingQty) :
    matchLevels side incoming levels w = ⟨levels, w, []⟩ := by
  cases levels with
  | nil => rfl
  | cons level rest => rw [matchLevels, if_neg hw]

theorem sweepEffect_cons (level : PriceLevel OrderIterator) (rest : List (PriceLevel OrderIterator))
    {w : Walk} (hw : 0 < w.incomingQty) :
    sweepEffect (matchLevels side incoming (level :: rest) w) =
      goOn side incoming level rest
        (scanEffect (matchQueue side incoming level.orders level.totalQuantity w)) := by
  rw [matchLevels, if_pos hw, goOn]
  generalize matchQueue side incoming level.orders level.totalQuantity w = scan
  by_cases he : scan.queue.isEmpty = true
  · simp only [if_pos he]
    exact (if_pos he).symm
  · simp only [if_neg he]
    exact (if_neg he).symm

/-- A sweep for more is a sweep, and then a sweep for the rest of it over what the first one left. -/
theorem matchLevels_more (levels : List (PriceLevel OrderIterator)) {w : Walk} (hq : 0 < q)
    (hw : 0 ≤ w.incomingQty) (hd : (resting levels).Nodup)
    (hlt : ∀ it ∈ resting levels, it < w.slotPool.storage.length) :
    sweepEffect (matchLevels side incoming levels (moreQty w q)) =
      sweepEffect (matchLevels side incoming (matchLevels side incoming levels w).levels
        (moreQty (matchLevels side incoming levels w).walk q)) := by
  induction levels generalizing w with
  | nil => rfl
  | cons level rest ih =>
      rw [resting_cons, List.nodup_append] at hd
      obtain ⟨hlevel, hrest⟩ := forall_resting_cons.mp hlt
      by_cases hpos : 0 < w.incomingQty
      · have hmore := moreQty_pos hq hw
        have hleft := left_nonneg_scan side incoming level.orders level.totalQuantity hw hd.1 hlevel
        have hpool := (matchQueue_reads side incoming level.orders level.totalQuantity w hd.1 hlevel).pool
        have hscan := matchQueue_more side incoming level.orders level.totalQuantity hq hw hd.1 hlevel
        rw [Resumes] at hscan
        rw [sweepEffect_cons side incoming level rest hmore, hscan, matchLevels, if_pos hpos]
        generalize matchQueue side incoming level.orders level.totalQuantity w = scan at hleft hpool ⊢
        by_cases he : scan.queue.isEmpty = true
        · have hi := ih hleft hd.2.1 (hpool.lt_length hrest)
          simp only [if_pos he]
          rw [List.isEmpty_iff.mp he]
          exact hi
        · have hagain := moreQty_pos hq hleft
          simp only [if_neg he]
          exact (sweepEffect_cons side incoming (scanned level scan) rest hagain).symm
      · rw [matchLevels_done side incoming _ hpos]

/-- After a sweep that found no more to trade with, no further quantity changes anything. -/
theorem matchLevels_stuck (levels : List (PriceLevel OrderIterator)) {w : Walk}
    (hd : (resting levels).Nodup) (hlt : ∀ it ∈ resting levels, it < w.slotPool.storage.length)
    (hleft : 0 < (matchLevels side incoming levels w).walk.incomingQty) (q : Int) :
    matchLevels side incoming (matchLevels side incoming levels w).levels
        (atQty (matchLevels side incoming levels w).walk q) =
      ⟨(matchLevels side incoming levels w).levels, atQty (matchLevels side incoming levels w).walk q, []⟩ := by
  induction levels generalizing w with
  | nil => rfl
  | cons level rest ih =>
      rw [resting_cons, List.nodup_append] at hd
      obtain ⟨hlevel, hrest⟩ := forall_resting_cons.mp hlt
      by_cases hpos : 0 < w.incomingQty
      · have hreads := matchQueue_reads side incoming level.orders level.totalQuantity w hd.1 hlevel
        rw [matchLevels, if_pos hpos] at hleft ⊢
        generalize matchQueue side incoming level.orders level.totalQuantity w = scan at hreads hleft ⊢
        by_cases he : scan.queue.isEmpty = true
        · simp only [if_pos he] at hleft ⊢
          exact ih hd.2.1 (hreads.pool.lt_length hrest) hleft
        · -- own orders are in front
          simp only [if_neg he] at hleft ⊢
          have hown := matchQueue_own side incoming (scanned level scan).orders
            (scanned level scan).totalQuantity (atQty scan.walk q) (hreads.own hleft)
          by_cases hq : 0 < (atQty scan.walk q).incomingQty
          · rw [matchLevels, if_pos hq, hown]
            exact if_neg he
          · exact matchLevels_done side incoming _ hq
      · rw [matchLevels_done side incoming _ hpos] at hleft
        exact absurd hleft hpos

def stores (sweep : Sweep) :
    List (PriceLevel OrderIterator) × OrderSlotPool × (OrderKey → Option OrderIterator) :=
  (sweep.levels, sweep.walk.slotPool, sweep.walk.ordersByKey)

theorem sweep_in_two (levels : List (PriceLevel OrderIterator)) {w : Walk} (hq : 0 < q)
    (hw : 0 ≤ w.incomingQty) (hd : (resting levels).Nodup)
    (hlt : ∀ it ∈ resting levels, it < w.slotPool.storage.length) :
    stores (matchLevels side incoming (matchLevels side incoming levels w).levels
        (atQty (matchLevels side incoming levels w).walk q)) =
      stores (matchLevels side incoming levels (moreQty w q)) := by
  have hmore := matchLevels_more side incoming levels hq hw hd hlt
  have hstores : stores (matchLevels side incoming levels (moreQty w q)) =
      stores (matchLevels side incoming (matchLevels side incoming levels w).levels
        (moreQty (matchLevels side incoming levels w).walk q)) :=
    congrArg (fun e : _ × Walk => (e.1, e.2.slotPool, e.2.ordersByKey)) hmore
  rw [hstores]
  by_cases hleft : 0 < (matchLevels side incoming levels w).walk.incomingQty
  · -- the first sweep was stuck, and so is the second with any quantity
    have hstuck := matchLevels_stuck side incoming levels hd hlt hleft
    have hagain : moreQty (matchLevels side incoming levels w).walk q =
        atQty (matchLevels side incoming levels w).walk
          ((matchLevels side incoming levels w).walk.incomingQty + q) := rfl
    rw [hagain, hstuck, hstuck]
    rfl
  · have hnonneg : 0 ≤ (matchLevels side incoming levels w).walk.incomingQty := by
      rw [matchLevels_eq_sweep, (sweepLevels_reads _ side incoming levels w hd hlt).left]
      exact ReferenceWalk.walkLevels_left_nonneg _ _ hw _
    have hzero : (matchLevels side incoming levels w).walk.incomingQty = 0 := by omega
    rw [moreQty, hzero, Int.zero_add]
    rfl

end Levels

section Book

variable {b : SymbolOrderbook}

def retopped (b : SymbolOrderbook) : SymbolOrderbook :=
  { b with
    currentTopBid := computeTopBid b
    currentTopAsk := computeTopAsk b }

theorem processNewOrder_market {cmd : Command} (hp : cmd.price = 0) (b : SymbolOrderbook) :
    (processNewOrder cmd b).1 = retopped (absorb cmd.side.opposite b (marketSweep cmd.side cmd b)) := by
  rw [processNewOrder, matchNewOrder_eq, if_pos hp]
  rfl

theorem absorb_retopped (s : Side) (b : SymbolOrderbook) (first second : Sweep) :
    retopped (absorb s (retopped (absorb s b first)) second) = retopped (absorb s b second) := by
  cases s <;> rfl

theorem absorb_stores (s : Side) (b : SymbolOrderbook) {sweep sweep' : Sweep}
    (h : stores sweep = stores sweep') : absorb s b sweep = absorb s b sweep' := by
  obtain ⟨hlevels, hrest⟩ := Prod.mk.inj h
  obtain ⟨hpool, hkeys⟩ := Prod.mk.inj hrest
  rw [absorb, absorb, hlevels, hpool, hkeys]

theorem matchLevels_user (s : Side) {incoming incoming' : Order} (hu : incoming.userId = incoming'.userId)
    (levels : List (PriceLevel OrderIterator)) (w : Walk) :
    stores (matchLevels s incoming levels w) = stores (matchLevels s incoming' levels w) := by
  obtain ⟨hlevels, hwalk⟩ := sweepLevels_user s hu (fun _ => true) levels w
  rw [matchLevels_eq_sweep, matchLevels_eq_sweep, stores, stores, hlevels, hwalk]

section Slices

variable (symbol : Text) (side : Side) (userId id₁ id₂ id : Int) {q₁ q₂ : Int}

theorem incoming_user (id q id' q' : Int) :
    (makeIncomingOrder (marketOrder symbol side userId id q)).userId =
      (makeIncomingOrder (marketOrder symbol side userId id' q')).userId := rfl

theorem secondSweep (b : SymbolOrderbook) (first : Sweep) :
    marketSweep side (marketOrder symbol side userId id₂ q₂) (retopped (absorb side.opposite b first)) =
      matchLevels side (makeIncomingOrder (marketOrder symbol side userId id₂ q₂)) first.levels
        (atQty first.walk q₂) := by
  have hlevels : levels (retopped (absorb side.opposite b first)) side.opposite = first.levels := by
    cases side <;> rfl
  rw [marketSweep, hlevels]
  rfl

theorem sweeps_store (h : SlotInvariant b) (h₁ : 0 < q₁) (h₂ : 0 < q₂) :
    stores (marketSweep side (marketOrder symbol side userId id₂ q₂)
        (retopped (absorb side.opposite b (marketSweep side (marketOrder symbol side userId id₁ q₁) b)))) =
      stores (marketSweep side (marketOrder symbol side userId id (q₁ + q₂)) b) := by
  have htwo := sweep_in_two side (makeIncomingOrder (marketOrder symbol side userId id₁ q₁))
    (levels b side.opposite) (w := startWalk (marketOrder symbol side userId id₁ q₁) b) h₂ (Int.le_of_lt h₁)
    (h.side_nodup side.opposite) (fun it hit => h.lt_length side.opposite hit)
  have hwhole : startWalk (marketOrder symbol side userId id (q₁ + q₂)) b =
      moreQty (startWalk (marketOrder symbol side userId id₁ q₁) b) q₂ := rfl
  rw [secondSweep, marketSweep, marketSweep, hwhole,
    matchLevels_user side (incoming_user symbol side userId id₂ q₂ id₁ q₁),
    matchLevels_user side (incoming_user symbol side userId id (q₁ + q₂) id₁ q₁)]
  exact htwo

theorem slices_book (h : SlotInvariant b) (h₁ : 0 < q₁) (h₂ : 0 < q₂) :
    final call b (inTwo (marketOrder symbol side userId id₁ q₁) (marketOrder symbol side userId id₂ q₂)) =
      (processNewOrder (marketOrder symbol side userId id (q₁ + q₂)) b).1 := by
  have hstores := sweeps_store symbol side userId id₁ id₂ id h h₁ h₂
  have hfirst := @processNewOrder_market (marketOrder symbol side userId id₁ q₁) rfl b
  have hsecond := @processNewOrder_market (marketOrder symbol side userId id₂ q₂) rfl
    (processNewOrder (marketOrder symbol side userId id₁ q₁) b).1
  rw [inTwo, final_cons, final_cons, final_nil]
  change (processNewOrder (marketOrder symbol side userId id₂ q₂)
    (processNewOrder (marketOrder symbol side userId id₁ q₁) b).1).1 = _
  rw [hsecond, hfirst, processNewOrder_market rfl]
  calc _ = _ := absorb_retopped side.opposite b _ _
    _ = _ := congrArg retopped (absorb_stores side.opposite b hstores)

end Slices

theorem cancelledQuantity_inTwo (n : Nat) (b : SymbolOrderbook) (first second : Command) :
    cancelledQuantity n b (inTwo first second) = 0 := rfl

/-- A resting order loses in new orders what they trade with it, so runs of them that leave the
same book have traded the same with it. -/
theorem volume_of_book (h : Represents b) {n : Nat} (hn : 0 < n) (hlt : n < b.nextSequence)
    {first second whole : Command}
    (hbook : final call b (inTwo first second) = (processNewOrder whole b).1) :
    restingVolume n (output call b (inTwo first second)) = restingVolume n (processNewOrder whole b).2 := by
  have htwo := run_balance h hn hlt (inTwo first second)
  have hone := call_balance h hn hlt (.processNewOrder whole)
  rw [cancelledQuantity_inTwo, hbook] at htwo
  simp only [call, cancelledBy] at hone
  omega

end Book

theorem sequence_between (calls : List BookCall) : ∀ o ∈ allResting (bookAfter calls),
    0 < o.sequence ∧ o.sequence < (bookAfter calls).nextSequence := by
  intro o ho
  rw [allResting_eq] at ho
  obtain ⟨pre, -, -, -, -, hs, -⟩ := submitted_after calls o ho
  refine ⟨?_, (represents_after calls).book.toCoreInvariant.below o ho⟩
  rw [hs]
  exact nextSequence_pos pre

/-- On every reachable book a market order may be cut in two, wherever the cut falls. -/
theorem market_slices (calls : List BookCall) (symbol : Text) (side : Side) (userId id₁ id₂ id q₁ q₂ : Int)
    (h₁ : 0 < q₁) (h₂ : 0 < q₂) :
    SlicesOf (marketOrder symbol side userId id₁ q₁) (marketOrder symbol side userId id₂ q₂)
      (marketOrder symbol side userId id (q₁ + q₂)) (bookAfter calls) := by
  have h := represents_after calls
  have hbook := slices_book symbol side userId id₁ id₂ id h.toSlotInvariant h₁ h₂
  refine ⟨hbook, fun o ho => ?_⟩
  obtain ⟨hpos, hlt⟩ := sequence_between calls o ho
  exact volume_of_book h hpos hlt hbook

def threeAsks : List BookCall :=
  [.processNewOrder (newOrderCommand [] .sell 1 1 100 5),
    .processNewOrder (newOrderCommand [] .sell 2 2 101 4),
    .processNewOrder (newOrderCommand [] .sell 3 3 101 6)]

theorem market_slices_inside_order :
    SlicesOf (marketOrder [] .buy 4 1 3) (marketOrder [] .buy 4 2 8) (marketOrder [] .buy 4 3 (3 + 8))
      (bookAfter threeAsks) :=
  market_slices threeAsks [] .buy 4 1 2 3 3 8 (by decide) (by decide)

end Orderbook.Slicing

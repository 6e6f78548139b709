import Orderbook.Representation

namespace Orderbook.CutBook

open Domain SlotPool Ladder Matching Book Simulation Slots SlotReuse Orderbook.Representation

def insideLevels (s : Side) (limit : Int) (levels : List (PriceLevel OrderIterator)) :
    List (PriceLevel OrderIterator) :=
  levels.filter (fun level => !exceedsLimit s level.price limit)

def outsideLevels (s : Side) (limit : Int) (levels : List (PriceLevel OrderIterator)) :
    List (PriceLevel OrderIterator) :=
  levels.filter (fun level => exceedsLimit s level.price limit)

def cut (s : Side) (limit : Int) (b : SymbolOrderbook) : SymbolOrderbook :=
  setLevels b s.opposite (insideLevels s limit (levels b s.opposite))

/-- The book `c` with the levels put back that were cut off of `b`. -/
def putBack (s : Side) (limit : Int) (b c : SymbolOrderbook) : SymbolOrderbook :=
  setLevels c s.opposite (levels c s.opposite ++ outsideLevels s limit (levels b s.opposite))

def atMarket (cmd : Command) : Command := { cmd with price := 0 }

def unfilled (s : Side) (cmd : Command) (b : SymbolOrderbook) : Int :=
  (marketSweep s (atMarket cmd) (cut s cmd.price b)).walk.incomingQty

/-- The limit routine did on `b` what the market routine did on the cut book, and rested
the remainder. -/
structure AgreesWithMarket (s : Side) (cmd : Command) (b : SymbolOrderbook)
    (limit market : SymbolOrderbook × List OutputLine) : Prop where
  trades : limit.2.map render = market.2.map render
  unfilled_eq : (limitSweep s cmd b).walk.incomingQty = unfilled s cmd b
  opposite : levels limit.1 s.opposite = levels (putBack s cmd.price b market.1) s.opposite
  map : ∀ key, key ≠ cmd.key → limit.1.ordersByKey key = market.1.ordersByKey key
  book : limit.1 =
    if 0 < unfilled s cmd b then
      restRemainder s cmd (unfilled s cmd b) (putBack s cmd.price b market.1)
    else putBack s cmd.price b market.1

section Incoming

variable (s : Side) {incoming incoming' : Order}

theorem render_emitFill (hu : incoming.userId = incoming'.userId)
    (ho : incoming.userOrderId = incoming'.userOrderId) (o : Order) (q : Int) :
    render (emitFill s incoming o q) = render (emitFill s incoming' o q) := by
  cases s with
  | buy => simp only [emitFill, emitTrade, render, hu, ho]
  | sell => simp only [emitFill, emitTrade, render, hu, ho]

structure SameScan (a b : Scan) : Prop where
  queue : a.queue = b.queue
  total : a.totalQuantity = b.totalQuantity
  walk : a.walk = b.walk
  text : a.lines.map render = b.lines.map render

structure SameSweep (a b : Sweep) : Prop where
  levels : a.levels = b.levels
  walk : a.walk = b.walk
  text : a.lines.map render = b.lines.map render

theorem matchQueue_text (hu : incoming.userId = incoming'.userId)
    (ho : incoming.userOrderId = incoming'.userOrderId) (dq : List OrderIterator) (total : Int) (w : Walk) :
    (matchQueue s incoming dq total w).lines.map render =
      (matchQueue s incoming' dq total w).lines.map render := by
  induction dq generalizing total w with
  | nil => rfl
  | cons it dq ih =>
      by_cases hq : 0 < w.incomingQty
      · by_cases hown : (get w.slotPool it).userId = incoming.userId
        · rw [matchQueue_skip s incoming it dq total hq hown,
            matchQueue_skip s incoming' it dq total hq (hown.trans hu)]
          exact ih total w
        · rw [matchQueue_trade s incoming it dq total hq hown,
            matchQueue_trade s incoming' it dq total hq (hu ▸ hown)]
          simp only [List.map_cons, ih, render_emitFill s hu ho]
      · rw [matchQueue_done s incoming _ total (Int.not_lt.mp hq),
          matchQueue_done s incoming' _ total (Int.not_lt.mp hq)]

theorem matchQueue_incoming (hu : incoming.userId = incoming'.userId)
    (ho : incoming.userOrderId = incoming'.userOrderId) (dq : List OrderIterator) (total : Int) (w : Walk) :
    SameScan (matchQueue s incoming dq total w) (matchQueue s incoming' dq total w) := by
  obtain ⟨hqueue, htotal, hwalk⟩ := matchQueue_user s hu dq total w
  exact ⟨hqueue, htotal, hwalk, matchQueue_text s hu ho dq total w⟩

theorem sweepLevels_text (within : Int → Bool) (hu : incoming.userId = incoming'.userId)
    (ho : incoming.userOrderId = incoming'.userOrderId) (ls : List (PriceLevel OrderIterator)) (w : Walk) :
    (sweepLevels within s incoming ls w).lines.map render =
      (sweepLevels within s incoming' ls w).lines.map render := by
  induction ls generalizing w with
  | nil => rfl
  | cons level rest ih =>
      by_cases hgo : 0 < w.incomingQty ∧ within level.price = true
      · have hscan := matchQueue_incoming s hu ho level.orders level.totalQuantity w
        simp only [sweepLevels, if_pos hgo, hscan.queue, hscan.walk]
        split_ifs
        · simp only [List.map_append, hscan.text, ih]
        · exact hscan.text
      · rw [sweepLevels, if_neg hgo, sweepLevels, if_neg hgo]

theorem sweepLevels_incoming (within : Int → Bool) (hu : incoming.userId = incoming'.userId)
    (ho : incoming.userOrderId = incoming'.userOrderId) (ls : List (PriceLevel OrderIterator)) (w : Walk) :
    SameSweep (sweepLevels within s incoming ls w) (sweepLevels within s incoming' ls w) := by
  obtain ⟨hlevels, hwalk⟩ := sweepLevels_user s hu within ls w
  exact ⟨hlevels, hwalk, sweepLevels_text s within hu ho ls w⟩

end Incoming

section Cut

variable {within : Int → Bool} {ls : List (PriceLevel OrderIterator)}

def Closing (within : Int → Bool) (ls : List (PriceLevel OrderIterator)) : Prop :=
  ls.Pairwise (fun l m => within l.price = false → within m.price = false)

theorem Closing.split (h : Closing within ls) :
    ls.filter (fun l => within l.price) ++ ls.filter (fun l => !within l.price) = ls := by
  induction ls with
  | nil => rfl
  | cons level rest ih =>
      obtain ⟨hlevel, hrest⟩ := List.pairwise_cons.mp h
      cases hw : within level.price with
      | true => simpa [hw] using ih hrest
      | false =>
          have hnone : rest.filter (fun l => within l.price) = [] := by
            rw [List.filter_eq_nil_iff]
            intro m hm
            simp [hlevel m hm hw]
          have hi := ih hrest
          rw [hnone, List.nil_append] at hi
          simp [hw, hnone, hi]

theorem sweepLevels_stop (s : Side) (incoming : Order) {level : PriceLevel OrderIterator} {w : Walk}
    (h : ¬ (0 < w.incomingQty ∧ within level.price = true)) (rest : List (PriceLevel OrderIterator)) :
    sweepLevels within s incoming (level :: rest) w = ⟨level :: rest, w, []⟩ := by
  rw [sweepLevels, if_neg h]

/-- A sweep that stops at a price is the sweep of the levels in front of that price. -/
theorem sweepLevels_append (s : Side) (incoming : Order) {front back : List (PriceLevel OrderIterator)}
    (hf : ∀ l ∈ front, within l.price = true) (hb : ∀ l ∈ back, within l.price = false) (w : Walk) :
    sweepLevels within s incoming (front ++ back) w =
      { sweepLevels (fun _ => true) s incoming front w with
        levels := (sweepLevels (fun _ => true) s incoming front w).levels ++ back } := by
  induction front generalizing w with
  | nil =>
      cases back with
      | nil => rfl
      | cons level back =>
          have hout := hb level List.mem_cons_self
          exact sweepLevels_stop s incoming (by simp [hout]) back
  | cons level rest ih =>
      by_cases hq : 0 < w.incomingQty
      · have hi := ih (fun l hl => hf l (List.mem_cons_of_mem level hl))
        rw [List.cons_append,
          sweepLevels_cons within s incoming level _ w hq (hf level List.mem_cons_self),
          sweepLevels_cons (fun _ => true) s incoming level rest w hq rfl]
        simp only [hi]
        split_ifs <;> rfl
      · rw [List.cons_append, sweepLevels_stop s incoming (fun hgo => hq hgo.1),
          sweepLevels_stop s incoming (fun hgo => hq hgo.1)]
        rfl

theorem closing_of_sorted {s : Side} (limit : Int)
    (h : (ls.map PriceLevel.price).Pairwise s.opposite.ahead) :
    Closing (fun p => !exceedsLimit s p limit) ls := by
  apply (List.pairwise_map.mp h).imp
  intro l m hlm hl
  cases s with
  | buy =>
      simp only [exceedsLimit, Bool.not_eq_false', decide_eq_true_eq] at hl ⊢
      exact Int.lt_trans hl hlm
  | sell =>
      simp only [exceedsLimit, Bool.not_eq_false', decide_eq_true_eq] at hl ⊢
      exact Int.lt_trans hlm hl

end Cut

section Agreement

variable (s : Side) (cmd : Command) {b : SymbolOrderbook}

theorem startWalk_cut : startWalk (atMarket cmd) (cut s cmd.price b) = startWalk cmd b := by
  cases s <;> rfl

theorem limitSweep_cut (h : Represents b) :
    limitSweep s cmd b =
      { sweepLevels (fun _ => true) s (makeIncomingOrder cmd)
          (insideLevels s cmd.price (levels b s.opposite)) (startWalk cmd b) with
        levels := (sweepLevels (fun _ => true) s (makeIncomingOrder cmd)
            (insideLevels s cmd.price (levels b s.opposite)) (startWalk cmd b)).levels ++
          outsideLevels s cmd.price (levels b s.opposite) } := by
  -- prices only get worse, so the levels inside the limit are the front of the side
  have hsplit := (closing_of_sorted cmd.price (side_sorted h s.opposite)).split
  simp only [Bool.not_not] at hsplit
  rw [limitSweep, matchLevelsLimit_eq_sweep s (makeIncomingOrder cmd) cmd.price _ _
    (h.side_nodup s.opposite) (fun it hit => h.lt_length s.opposite hit)]
  conv_lhs => rw [← hsplit]
  apply sweepLevels_append
  · intro l hl
    simpa using List.of_mem_filter hl
  · intro l hl
    simpa using List.of_mem_filter hl

theorem marketSweep_cut :
    SameSweep (sweepLevels (fun _ => true) s (makeIncomingOrder cmd)
        (insideLevels s cmd.price (levels b s.opposite)) (startWalk cmd b))
      (marketSweep s (atMarket cmd) (cut s cmd.price b)) := by
  have hlevels : levels (cut s cmd.price b) s.opposite =
      insideLevels s cmd.price (levels b s.opposite) := levels_setLevels_self b s.opposite _
  rw [marketSweep, matchLevels_eq_sweep, startWalk_cut, hlevels]
  exact @sweepLevels_incoming s (makeIncomingOrder cmd) (makeIncomingOrder (atMarket cmd))
    (fun _ => true) rfl rfl _ _

theorem absorb_putBack {sweep market : Sweep}
    (hl : sweep.levels = market.levels ++ outsideLevels s cmd.price (levels b s.opposite))
    (hw : sweep.walk = market.walk) :
    absorb s.opposite b sweep =
      putBack s cmd.price b (absorb s.opposite (cut s cmd.price b) market) := by
  rw [absorb, hl, hw]
  cases s <;> rfl

theorem matchLimit_lines (b : SymbolOrderbook) :
    (matchLimit s cmd b).2 = (limitSweep s cmd b).lines := by
  rw [matchLimit]
  split_ifs <;> rfl

theorem matchLimit_book (b : SymbolOrderbook) : (matchLimit s cmd b).1 =
    if 0 < (limitSweep s cmd b).walk.incomingQty then
      restRemainder s cmd (limitSweep s cmd b).walk.incomingQty (absorb s.opposite b (limitSweep s cmd b))
    else absorb s.opposite b (limitSweep s cmd b) := by
  rw [matchLimit]
  split_ifs <;> rfl

theorem matchLimit_agrees (h : Represents b) :
    AgreesWithMarket s cmd b (matchLimit s cmd b) (matchMarket s (atMarket cmd) (cut s cmd.price b)) := by
  have hcut := limitSweep_cut s cmd h
  have hsame := @marketSweep_cut s cmd b
  have hlevels : (limitSweep s cmd b).levels =
      (marketSweep s (atMarket cmd) (cut s cmd.price b)).levels ++
        outsideLevels s cmd.price (levels b s.opposite) := by
    rw [hcut, ← hsame.levels]
  have hwalk : (limitSweep s cmd b).walk = (marketSweep s (atMarket cmd) (cut s cmd.price b)).walk := by
    rw [hcut, ← hsame.walk]
  have hbook := absorb_putBack s cmd hlevels hwalk
  have hleft : (limitSweep s cmd b).walk.incomingQty = unfilled s cmd b := congrArg _ hwalk
  have hall : (matchLimit s cmd b).1 =
      if 0 < unfilled s cmd b then
        restRemainder s cmd (unfilled s cmd b)
          (putBack s cmd.price b (matchMarket s (atMarket cmd) (cut s cmd.price b)).1)
      else putBack s cmd.price b (matchMarket s (atMarket cmd) (cut s cmd.price b)).1 := by
    rw [matchLimit_book, hleft, hbook]
    rfl
  refine ⟨?_, hleft, ?_, ?_, hall⟩
  · rw [matchLimit_lines, hcut]
    exact hsame.text
  · rw [hall]
    split_ifs
    · exact restRemainder_opposite s
    · rfl
  · intro key hkey
    have hput : (putBack s cmd.price b
        (matchMarket s (atMarket cmd) (cut s cmd.price b)).1).ordersByKey key =
        (matchMarket s (atMarket cmd) (cut s cmd.price b)).1.ordersByKey key :=
      congrFun (setLevels_ordersByKey _ _ _) key
    rw [hall, ← hput]
    split_ifs
    · rw [restRemainder_ordersByKey, Function.update_of_ne hkey]
    · rfl

end Agreement

/-- On every reachable book a limit order trades as the market order with its user and
quantity does on the levels inside its limit. -/
theorem limit_agrees_with_market (calls : List BookCall) (cmd : Command) :
    AgreesWithMarket .buy cmd (bookAfter calls) (matchLimitBuy cmd (bookAfter calls))
        (matchMarketBuy (atMarket cmd) (cut .buy cmd.price (bookAfter calls))) ∧
      AgreesWithMarket .sell cmd (bookAfter calls) (matchLimitSell cmd (bookAfter calls))
        (matchMarketSell (atMarket cmd) (cut .sell cmd.price (bookAfter calls))) :=
  ⟨matchLimit_agrees .buy cmd (represents_after calls), matchLimit_agrees .sell cmd (represents_after calls)⟩

end Orderbook.CutBook

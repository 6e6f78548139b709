import Orderbook.Observations

namespace Orderbook.ImmediateOrCancel

open Domain SlotPool Ladder Matching Book Reference ReferenceInvariant Slots SlotCancel SlotReuse
  Orderbook.Representation Observations Library.QueueFill

/-- Only the matching loop of a limit order: what it does not fill is dropped. -/
def immediateOrCancel (cmd : Command) (b : SymbolOrderbook) : SymbolOrderbook :=
  absorb cmd.side.opposite b (limitSweep cmd.side cmd b)

def submitThenCancel (cmd : Command) (b : SymbolOrderbook) : SymbolOrderbook :=
  (processCancel (cancelCommand cmd.userId cmd.userOrderId) (processNewOrder cmd b).1).1

def keyedOrders (b : SymbolOrderbook) (key : OrderKey) : Option Order :=
  (b.ordersByKey key).map (orderAt b)

structure SameContents (b b' : SymbolOrderbook) : Prop where
  bids : ladder b .buy = ladder b' .buy
  asks : ladder b .sell = ladder b' .sell
  keyed : keyedOrders b = keyedOrders b'

def Trades (lines : List OutputLine) : Prop :=
  ∃ buy sell tradePrice tradeQty, OutputLine.trade buy sell tradePrice tradeQty ∈ lines

/-- A limit order that is cancelled at once leaves what it would leave if it never rested. -/
structure LeavesNothing (cmd : Command) (b : SymbolOrderbook) : Prop where
  immediate : SameContents (submitThenCancel cmd b) (immediateOrCancel cmd b)
  untraded : ¬ Trades (processNewOrder cmd b).2 → SameContents (submitThenCancel cmd b) b

section Ladder

variable {s : Side} {n : Nat} {levels : List (PriceLevel Order)} {o : Order}

/-- The order with the newest number can be taken out again as if it had not come. -/
theorem removeInstance_restAt (h : SideInvariant s n levels) (hn : o.sequence = n) :
    removeInstance n (restAt s o o.quantity o.price levels) = levels := by
  subst hn
  have hnew (ls : List (PriceLevel Order)) :
      removeInstance o.sequence (pushOrder o o.quantity { price := o.price } :: ls) = ls := by
    simp [removeInstance, pushOrder]
  induction levels with
  | nil => exact hnew []
  | cons level rest ih =>
      have hlevel := h.level level List.mem_cons_self
      have hold : ∀ p ∈ level.orders, p.sequence ≠ o.sequence :=
        fun p hp => Nat.ne_of_lt (hlevel.below p hp)
      have hnone : level.orders.find? (fun p => p.sequence = o.sequence) = none := by
        rw [List.find?_eq_none]
        intro p hp
        simpa using hold p hp
      rw [restAt, Library.SortedSearch.upsert]
      split_ifs with hp hb
      · have hkeep : level.orders.filter (fun p => p.sequence ≠ o.sequence) = level.orders := by
          rw [List.filter_eq_self]
          intro p hp
          simpa using hold p hp
        have hempty : level.orders.isEmpty = false := by simpa using hlevel.nonempty
        rw [removeInstance]
        simp only [pushOrder, List.find?_append, hnone, List.filter_append, hkeep]
        simp [hempty]
      · rw [removeInstance, hnone]
        exact congrArg (level :: ·) (ih h.tail)
      · exact hnew (level :: rest)

theorem walkLevels_untraded (within : Int → Bool) (user q : Int)
    (hne : ∀ level ∈ levels, level.orders ≠ [])
    (hf : (walkLevels within user q levels).fills = []) :
    (walkLevels within user q levels).levels = levels := by
  cases levels with
  | nil => rfl
  | cons level rest =>
      by_cases hgo : 0 < q ∧ within level.price = true
      · by_cases hk : (fill (orderRule user) q level.orders).kept.isEmpty = true
        · simp only [walkLevels, if_pos hgo, if_pos hk] at hf
          rw [kept_of_untaken (orderRule user) q level.orders (List.append_eq_nil_iff.mp hf).1] at hk
          exact absurd (List.isEmpty_iff.mp hk) (hne level List.mem_cons_self)
        · simp only [walkLevels, if_pos hgo, if_neg hk] at hf ⊢
          rw [kept_of_untaken (orderRule user) q level.orders hf, hf, takenSum_nil, Int.sub_zero]
      · rw [walkLevels, if_neg hgo]

end Ladder

section Reference

variable {r : ReferenceBook} {cmd : Command}

theorem cancelled_matched (h : CoreInvariant r) (hk : r.instances cmd.key = none) :
    (∀ s, sideLevels (cancelled cmd.key (matched cmd r)) s = sideLevels (traded cmd r) s) ∧
      (cancelled cmd.key (matched cmd r)).instances = (traded cmd r).instances := by
  have hforgot : (traded cmd r).instances cmd.key = none := by
    change forget (walk cmd r).fills r.instances cmd.key = none
    rw [forget_apply]
    split_ifs
    · rfl
    · exact hk
  rw [matched]
  split_ifs with hrest
  · have hc := traded_core h cmd
    have hi : (restOrder cmd (walk cmd r).left (traded cmd r)).instances cmd.key =
        some (traded cmd r).nextSequence := Function.update_self ..
    constructor
    · refine forall_side cmd.side ?_ ?_
      · rw [sideLevels_cancelled hi, restOrder_own]
        exact removeInstance_restAt (hc.side cmd.side) rfl
      · rw [sideLevels_cancelled hi, restOrder_opposite]
        apply removeInstance_absent
        exact fun o ho => Nat.ne_of_lt ((hc.side cmd.side.opposite).below o ho)
    · rw [cancelled, hi]
      change Function.update (Function.update (traded cmd r).instances cmd.key _) cmd.key none = _
      rw [Function.update_idem, ← hforgot, Function.update_eq_self]
  · rw [cancelled, hforgot]
    exact ⟨fun _ => rfl, rfl⟩

theorem cancelled_refreshTops (key : OrderKey) (r : ReferenceBook) :
    (∀ s, sideLevels (cancelled key (refreshTops r)) s = sideLevels (cancelled key r) s) ∧
      (cancelled key (refreshTops r)).instances = (cancelled key r).instances := by
  have hi : (refreshTops r).instances key = r.instances key := rfl
  cases hk : r.instances key with
  | none =>
      rw [hk] at hi
      rw [cancelled, cancelled, hi, hk]
      exact ⟨fun s => by cases s <;> rfl, rfl⟩
  | some n =>
      rw [hk] at hi
      rw [cancelled, cancelled, hi, hk]
      exact ⟨fun s => by cases s <;> rfl, rfl⟩

theorem cancelled_after_order (h : CoreInvariant r) (hk : r.instances cmd.key = none) :
    (∀ s, sideLevels (cancelled cmd.key (refreshTops (matched cmd r))) s = sideLevels (traded cmd r) s) ∧
      (cancelled cmd.key (refreshTops (matched cmd r))).instances = (traded cmd r).instances := by
  obtain ⟨hsides, hinst⟩ := cancelled_refreshTops cmd.key (matched cmd r)
  obtain ⟨hsides', hinst'⟩ := cancelled_matched h hk
  exact ⟨fun s => (hsides s).trans (hsides' s), hinst.trans hinst'⟩

theorem traded_untraded (h : CoreInvariant r) (hf : (walk cmd r).fills = []) :
    (∀ s, sideLevels (traded cmd r) s = sideLevels r s) ∧ (traded cmd r).instances = r.instances := by
  constructor
  · refine forall_side cmd.side (traded_own cmd r) ?_
    rw [traded_opposite]
    apply walkLevels_untraded _ _ _ _ hf
    exact fun level hl => ((h.side cmd.side.opposite).level level hl).nonempty
  · change forget (walk cmd r).fills r.instances = r.instances
    rw [hf, forget]

end Reference

section Contents

variable {b b' : SymbolOrderbook}

theorem keyedOrders_eq (h : SlotInvariant b) (hc : CoreInvariant (deref b)) (key : OrderKey) :
    keyedOrders b key = ((deref b).instances key).bind
      (fun n => (allOrders (deref b)).find? (fun o => o.sequence = n)) := by
  have hi : (deref b).instances key =
      (b.ordersByKey key).map (fun it => (get b.slotPool it).sequence) := rfl
  rw [keyedOrders, hi]
  cases hk : b.ordersByKey key with
  | none => rfl
  | some it =>
      have hm := get_mem_allOrders (h.queued key it hk)
      change some (get b.slotPool it) =
        (allOrders (deref b)).find? (fun o => o.sequence = (get b.slotPool it).sequence)
      cases hf : (allOrders (deref b)).find? (fun o => o.sequence = (get b.slotPool it).sequence) with
      | none =>
          rw [List.find?_eq_none] at hf
          exact absurd (decide_eq_true rfl) (hf _ hm)
      | some o =>
          have hs : o.sequence = (get b.slotPool it).sequence := by simpa using List.find?_some hf
          rw [hc.sequence_inj (List.mem_of_find?_eq_some hf) hm hs]

theorem sameContents_of_reads (h : SlotInvariant b) (hc : CoreInvariant (deref b)) (h' : SlotInvariant b')
    (hc' : CoreInvariant (deref b'))
    (hr : (∀ s, sideLevels (deref b) s = sideLevels (deref b') s) ∧
      (deref b).instances = (deref b').instances) : SameContents b b' := by
  obtain ⟨hs, hi⟩ := hr
  have horders : allOrders (deref b) = allOrders (deref b') :=
    congrArg₂ (fun bids asks => resting bids ++ resting asks) (hs .buy) (hs .sell)
  refine ⟨?_, ?_, ?_⟩
  · rw [ladder_eq, ladder_eq, hs]
  · rw [ladder_eq, ladder_eq, hs]
  · funext key
    rw [keyedOrders_eq h hc, keyedOrders_eq h' hc', hi, horders]

theorem submitThenCancel_reads (h : Represents b) (cmd : Command) :
    deref (submitThenCancel cmd b) = refreshTops (cancelled cmd.key (refreshTops (matched cmd (deref b)))) := by
  have hnew : Represents (processNewOrder cmd b).1 := call_represents b (.processNewOrder cmd) h
  rw [submitThenCancel, deref_cancel hnew, deref_newOrder h]
  rfl

theorem submitThenCancel_represents (h : Represents b) (cmd : Command) :
    Represents (submitThenCancel cmd b) :=
  call_represents _ (.processCancel (cancelCommand cmd.userId cmd.userOrderId))
    (call_represents b (.processNewOrder cmd) h)

theorem fills_of_untraded (h : Represents b) {cmd : Command} (hn : ¬ Trades (processNewOrder cmd b).2) :
    (walk cmd (deref b)).fills = [] := by
  rw [newOrder_lines h] at hn
  cases hf : (walk cmd (deref b)).fills with
  | nil => rfl
  | cons f fs =>
      exfalso
      apply hn
      have hmem : fillLine cmd f ∈ (refNewOrder cmd (deref b)).2 := by
        simp [refNewOrder, hf]
      rw [fillLine] at hmem
      cases hs : cmd.side with
      | buy =>
          rw [hs] at hmem
          exact ⟨_, _, _, _, hmem⟩
      | sell =>
          rw [hs] at hmem
          exact ⟨_, _, _, _, hmem⟩

end Contents

/-- On every reachable book a limit order with an unused key, cancelled as soon as it has been
submitted, acts as an immediate-or-cancel order; without a trade it leaves no trace. -/
theorem submit_then_cancel (calls : List BookCall) (cmd : Command) (hprice : cmd.price ≠ 0)
    (hkey : (bookAfter calls).ordersByKey cmd.key = none) : LeavesNothing cmd (bookAfter calls) := by
  have h := represents_after calls
  have hc := h.book.toCoreInvariant
  have hk : (deref (bookAfter calls)).instances cmd.key = none := by
    simp only [deref, hkey, Option.map_none]
  have hafter := submitThenCancel_represents h cmd
  have hreads := cancelled_after_order hc hk
  constructor
  · have hioc : deref (immediateOrCancel cmd (bookAfter calls)) = traded cmd (deref (bookAfter calls)) := by
      rw [immediateOrCancel, limitSweep_eq cmd _ hprice h.toSlotInvariant]
      exact deref_absorb h.toSlotInvariant
    have hslots : SlotInvariant (immediateOrCancel cmd (bookAfter calls)) := by
      rw [immediateOrCancel, limitSweep_eq cmd _ hprice h.toSlotInvariant]
      exact absorb_slots h.toSlotInvariant hc
    apply sameContents_of_reads hafter.toSlotInvariant hafter.book.toCoreInvariant hslots
    · rw [hioc]
      exact traded_core hc cmd
    · rw [hioc, submitThenCancel_reads h]
      exact ⟨fun s => (sideLevels_refreshTops _ s).trans (hreads.1 s), hreads.2⟩
  · intro hn
    obtain ⟨hsides, hinst⟩ := traded_untraded hc (fills_of_untraded h hn)
    apply sameContents_of_reads hafter.toSlotInvariant hafter.book.toCoreInvariant h.toSlotInvariant hc
    rw [submitThenCancel_reads h]
    exact ⟨fun s => (sideLevels_refreshTops _ s).trans ((hreads.1 s).trans (hsides s)),
      hreads.2.trans hinst⟩

def oneAsk : List BookCall := [.processNewOrder (newOrderCommand [] .sell 1 1 100 5)]

theorem submit_then_cancel_partly_filled :
    LeavesNothing (newOrderCommand [] .buy 2 1 101 8) (bookAfter oneAsk) :=
  submit_then_cancel oneAsk (newOrderCommand [] .buy 2 1 101 8) (by decide) (by decide +kernel)

end Orderbook.ImmediateOrCancel

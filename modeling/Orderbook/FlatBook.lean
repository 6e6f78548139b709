import Orderbook.Wrapping

namespace Orderbook.FlatBook

open Domain Ladder Matching Book Reference ReferenceWalk ReferenceInvariant SlotReuse Slots
  Orderbook.Representation Feed Overflow Wrapping Library.QueueFill Library.Runs Library.SortedSearch

/-- What a book is for: the orders of each side in priority order, without levels, slots or
cached tops. -/
@[ext]
structure PriorityBook where
  bids : List Order := []
  asks : List Order := []
  instances : OrderKey → Option Nat := fun _ => none
  nextSequence : Nat := 1

def ordersOf (b : PriorityBook) : Side → List Order
  | .buy => b.bids
  | .sell => b.asks

def putOrders (b : PriorityBook) : Side → List Order → PriorityBook
  | .buy, os => { b with bids := os }
  | .sell, os => { b with asks := os }

/-- The best price of a side, and the quantity at that price in the form in which it is published. -/
def best (published : Int → Int) : List Order → TopOfBook
  | [] => {}
  | o :: os => ⟨true, o.price, published (quantityAt (o :: os) o.price)⟩

/-- An order that an incoming order of `user` may trade with: its price is admitted, and no order
of the same user has a better price. -/
def Reachable (s : Side) (within : Int → Bool) (user : Int) (orders : List Order) (o : Order) : Prop :=
  within o.price = true ∧ ∀ p ∈ orders, p.userId = user → ¬ s.ahead p.price o.price

instance (s : Side) (within : Int → Bool) (user : Int) (orders : List Order) :
    DecidablePred (Reachable s within user orders) := fun _ => inferInstanceAs (Decidable (_ ∧ _))

def reachable (s : Side) (within : Int → Bool) (user : Int) (orders : List Order) : List Order :=
  orders.filter (fun o => Reachable s within user orders o)

def unreachable (s : Side) (within : Int → Bool) (user : Int) (orders : List Order) : List Order :=
  orders.filter (fun o => ¬ Reachable s within user orders o)

/-- A new order stands behind every order that it is not ahead of. -/
def enqueue (s : Side) (o : Order) (orders : List Order) : List Order :=
  orders.filter (fun p => ¬ s.ahead o.price p.price) ++ o :: orders.filter (fun p => s.ahead o.price p.price)

def serve (cmd : Command) (b : PriorityBook) : Filled Order :=
  fill (orderRule cmd.userId) cmd.quantity
    (reachable cmd.side.opposite (within cmd.side cmd) cmd.userId (ordersOf b cmd.side.opposite))

def served (cmd : Command) (b : PriorityBook) : PriorityBook :=
  { putOrders b cmd.side.opposite ((serve cmd b).kept ++
      unreachable cmd.side.opposite (within cmd.side cmd) cmd.userId (ordersOf b cmd.side.opposite)) with
    instances := forget (serve cmd b).fills b.instances }

def rested (cmd : Command) (quantity : Int) (b : PriorityBook) : PriorityBook :=
  let stored := storedOrder cmd.side cmd quantity b.nextSequence
  { putOrders b cmd.side (enqueue cmd.side stored (ordersOf b cmd.side)) with
    nextSequence := b.nextSequence + 1
    instances := Function.update b.instances stored.key (some b.nextSequence) }

def submitted (cmd : Command) (b : PriorityBook) : PriorityBook :=
  if cmd.price ≠ 0 ∧ 0 < (serve cmd b).left then rested cmd (serve cmd b).left (served cmd b)
  else served cmd b

def withdrawn (key : OrderKey) (b : PriorityBook) : PriorityBook :=
  match b.instances key with
  | some n =>
      { b with
        bids := b.bids.filter (fun o => o.sequence ≠ n)
        asks := b.asks.filter (fun o => o.sequence ≠ n)
        instances := Function.update b.instances key none }
  | none => b

def afterCall : BookCall → PriorityBook → PriorityBook
  | .processNewOrder cmd, b => submitted cmd b
  | .processCancel cmd, b => withdrawn cmd.key b

def answer : BookCall → PriorityBook → List OutputLine
  | .processNewOrder cmd, b => .ack cmd.userId cmd.userOrderId :: (serve cmd b).fills.map (fillLine cmd)
  | .processCancel cmd, _ => [.cancelAck cmd.userId cmd.userOrderId]

def bestChanges (published : Int → Int) (old new : PriorityBook) : List OutputLine :=
  topChange .buy (best published old.bids) (best published new.bids) ++
    topChange .sell (best published old.asks) (best published new.asks)

def flatCall (published : Int → Int) : Machine PriorityBook BookCall OutputLine := fun b c =>
  (afterCall c b, answer c b ++ bestChanges published b (afterCall c b))

def flatten (b : ReferenceBook) : PriorityBook where
  bids := resting b.bids
  asks := resting b.asks
  instances := b.instances
  nextSequence := b.nextSequence

theorem ordersOf_served (cmd : Command) (b : PriorityBook) (s : Side) :
    ordersOf (served cmd b) s = if s = cmd.side.opposite then (serve cmd b).kept ++
        unreachable cmd.side.opposite (within cmd.side cmd) cmd.userId (ordersOf b cmd.side.opposite)
      else ordersOf b s := by
  cases s <;> cases hs : cmd.side <;> simp [served, putOrders, ordersOf, hs, Side.opposite]

theorem ordersOf_rested (cmd : Command) (quantity : Int) (b : PriorityBook) (s : Side) :
    ordersOf (rested cmd quantity b) s =
      if s = cmd.side then enqueue cmd.side (storedOrder cmd.side cmd quantity b.nextSequence) (ordersOf b cmd.side)
      else ordersOf b s := by
  cases s <;> cases hs : cmd.side <;> simp [rested, putOrders, ordersOf, hs]

@[simp] theorem served_nextSequence (cmd : Command) (b : PriorityBook) :
    (served cmd b).nextSequence = b.nextSequence := by
  cases hs : cmd.side <;> simp [served, putOrders, hs, Side.opposite]

theorem submitted_nextSequence (cmd : Command) (b : PriorityBook) : (submitted cmd b).nextSequence =
    if cmd.price ≠ 0 ∧ 0 < (serve cmd b).left then b.nextSequence + 1 else b.nextSequence := by
  rw [submitted]
  split_ifs
  · exact congrArg (· + 1) (served_nextSequence cmd b)
  · exact served_nextSequence cmd b

@[simp] theorem withdrawn_nextSequence (key : OrderKey) (b : PriorityBook) :
    (withdrawn key b).nextSequence = b.nextSequence := by
  rw [withdrawn]
  cases b.instances key <;> rfl

@[simp] theorem ordersOf_flatten (b : ReferenceBook) (s : Side) :
    ordersOf (flatten b) s = resting (sideLevels b s) := by
  cases s <;> rfl

@[simp] theorem flatten_instances (b : ReferenceBook) : (flatten b).instances = b.instances := rfl

@[simp] theorem flatten_nextSequence (b : ReferenceBook) : (flatten b).nextSequence = b.nextSequence := rfl

section Side

variable {s : Side} {next : Nat} {levels : List (PriceLevel Order)}

theorem computeTop_flat (h : SideInvariant s next levels) : computeTop levels = best id (resting levels) := by
  cases levels with
  | nil => rfl
  | cons level rest =>
      have hl := h.level level List.mem_cons_self
      obtain ⟨o, os, ho⟩ := List.exists_cons_of_ne_nil hl.nonempty
      have hprice : o.price = level.price := hl.price_eq o (ho ▸ List.mem_cons_self)
      have htotal := total_eq_quantityAt h List.mem_cons_self
      rw [resting_cons, ho, List.cons_append] at htotal ⊢
      rw [computeTop, best, hprice, htotal]
      rfl

theorem narrowTop_best (orders : List Order) : narrowTop (best id orders) = best int64 orders := by
  cases orders <;> rfl

theorem own_iff (level : PriceLevel Order) (user : Int) :
    ¬ ownsOrder user level = true ↔ ∀ p ∈ level.orders, p.userId ≠ user := by
  rw [ownsOrder_iff]
  push Not
  rfl

theorem filter_front {P : Order → Prop} [DecidablePred P] {xs : List Order} (ys : List Order)
    (h : ∀ o ∈ xs, P o) : (xs ++ ys).filter (fun o => P o) = xs ++ ys.filter (fun o => P o) ∧
      (xs ++ ys).filter (fun o => ¬ P o) = ys.filter (fun o => ¬ P o) := by
  constructor
  · rw [List.filter_append, List.filter_eq_self.mpr (by simpa using h)]
  · rw [List.filter_append, List.filter_eq_nil_iff.mpr (by simpa using h), List.nil_append]

theorem filter_none {P : Order → Prop} [DecidablePred P] {xs : List Order} (h : ∀ o ∈ xs, ¬ P o) :
    xs.filter (fun o => P o) = [] ∧ xs.filter (fun o => ¬ P o) = xs :=
  ⟨List.filter_eq_nil_iff.mpr (by simpa using h), List.filter_eq_self.mpr (by simpa using h)⟩

/-- Whom a walk down the levels can come to are the reachable orders, and what lies beyond are the
others: prices get worse from level to level. -/
theorem reach_flat {within : Int → Bool} (hw : ∀ p q, s.ahead p q → within q = true → within p = true)
    (h : SideInvariant s next levels) (user : Int) :
    resting (reach within user levels) = reachable s within user (resting levels) ∧
      resting (beyond within user levels) = unreachable s within user (resting levels) := by
  induction levels with
  | nil => exact ⟨rfl, rfl⟩
  | cons level rest ih =>
      have hl := h.level level List.mem_cons_self
      have hback := h.front_ahead
      by_cases hp : within level.price = true
      · have hlevel : ∀ o ∈ level.orders, Reachable s within user (resting (level :: rest)) o := by
          intro o ho
          rw [Reachable, hl.price_eq o ho]
          exact ⟨hp, fun p hpm _ => not_ahead_front h p hpm⟩
        have hyes : reachable s within user (resting (level :: rest)) = level.orders ++
            (resting rest).filter (fun o => Reachable s within user (resting (level :: rest)) o) :=
          (filter_front (resting rest) hlevel).1
        have hno : unreachable s within user (resting (level :: rest)) =
            (resting rest).filter (fun o => ¬ Reachable s within user (resting (level :: rest)) o) :=
          (filter_front (resting rest) hlevel).2
        by_cases ho : ownsOrder user level = true
        · -- the user's own order keeps the walk from all levels behind
          obtain ⟨hr, hb⟩ := reach_beyond_owned within user hp ho rest
          have hrest : ∀ o ∈ resting rest, ¬ Reachable s within user (resting (level :: rest)) o := by
            obtain ⟨own, hown, huser⟩ := (ownsOrder_iff user level).mp ho
            intro o hom hreach
            apply hreach.2 own (List.mem_append_left _ hown) huser
            rw [hl.price_eq own hown]
            exact hback o hom
          rw [hr, hb, hyes, hno, (filter_none hrest).1, (filter_none hrest).2]
          exact ⟨rfl, rfl⟩
        · obtain ⟨hr, hb⟩ := reach_beyond_foreign within user hp ho rest
          obtain ⟨hir, hib⟩ := ih h.tail
          have hforeign := (own_iff level user).mp ho
          have hsame (o : Order) : Reachable s within user (resting (level :: rest)) o ↔
              Reachable s within user (resting rest) o := by
            simp only [Reachable, resting_cons, List.forall_mem_append]
            refine and_congr_right fun _ => ⟨fun hall => hall.2, fun hall => ⟨?_, hall⟩⟩
            exact fun p hp hu => absurd hu (hforeign p hp)
          rw [hr, hb, hyes, hno, resting_cons, hir, hib, reachable, unreachable]
          simp only [hsame, and_self]
      · obtain ⟨hr, hb⟩ := reach_beyond_closed within user hp rest
        have hall : ∀ o ∈ resting (level :: rest), ¬ Reachable s within user (resting (level :: rest)) o := by
          intro o ho hreach
          rw [resting_cons, List.mem_append] at ho
          rcases ho with ho | ho
          · exact hp (hl.price_eq o ho ▸ hreach.1)
          · exact hp (hw _ _ (hback o ho) hreach.1)
        rw [hr, hb, reachable, unreachable, (filter_none hall).1, (filter_none hall).2]
        exact ⟨rfl, rfl⟩

theorem enqueue_front {o : Order} {xs : List Order} (ys : List Order) (h : ∀ p ∈ xs, ¬ s.ahead o.price p.price) :
    enqueue s o (xs ++ ys) = xs ++ enqueue s o ys := by
  have hno : xs.filter (fun p => s.ahead o.price p.price) = [] :=
    List.filter_eq_nil_iff.mpr (by simpa using h)
  rw [enqueue, (filter_front ys h).1, List.filter_append, hno, List.nil_append, List.append_assoc, enqueue]

theorem enqueue_behind {o : Order} {xs : List Order} (h : ∀ p ∈ xs, s.ahead o.price p.price) :
    enqueue s o xs = o :: xs := by
  have hno : ∀ p ∈ xs, ¬ ¬ s.ahead o.price p.price := fun p hp hn => hn (h p hp)
  rw [enqueue, (filter_none hno).1, List.nil_append, List.filter_eq_self.mpr (by simpa using h)]

theorem restAt_flat (h : SideInvariant s next levels) (o : Order) (quantity : Int) :
    resting (restAt s o quantity o.price levels) = enqueue s o (resting levels) := by
  induction levels with
  | nil => rfl
  | cons level rest ih =>
      have hl := h.level level List.mem_cons_self
      have hi := ih h.tail
      rw [restAt] at hi
      rw [restAt, upsert, resting_cons level rest]
      split_ifs with hp hb
      · -- the level of that price: its orders are not worse, all behind it are
        have hfront : ∀ p ∈ level.orders, ¬ s.ahead o.price p.price := by
          intro p hpm
          rw [hl.price_eq p hpm, ← hp]
          exact s.ahead_irrefl _
        have hback : ∀ p ∈ resting rest, s.ahead o.price p.price := fun p hpm => hp ▸ h.front_ahead p hpm
        rw [enqueue_front _ hfront, enqueue_behind hback, resting_cons]
        simp [pushOrder]
      · have hfront : ∀ p ∈ level.orders, ¬ s.ahead o.price p.price := by
          intro p hpm
          rw [hl.price_eq p hpm]
          exact s.ahead_asymm hb
        rw [enqueue_front _ hfront, resting_cons, hi]
      · have hahead : s.ahead o.price level.price :=
          ((s.ahead_trichotomy level.price o.price).resolve_left hb).resolve_left hp
        have hback : ∀ p ∈ level.orders ++ resting rest, s.ahead o.price p.price := by
          rw [List.forall_mem_append]
          constructor
          · exact fun p hpm => hl.price_eq p hpm ▸ hahead
          · exact fun p hpm => s.ahead_trans hahead (h.front_ahead p hpm)
        rw [enqueue_behind hback]
        rfl

end Side

section Call

variable {b : ReferenceBook}

theorem within_of_ahead (cmd : Command) (p q : Int) (h : cmd.side.opposite.ahead p q)
    (hq : within cmd.side cmd q = true) : within cmd.side cmd p = true := by
  cases hs : cmd.side with
  | buy =>
      simp only [hs, Side.opposite, Side.ahead, within, exceedsLimit, Bool.or_eq_true, decide_eq_true_eq,
        Bool.not_eq_true', decide_eq_false_iff_not] at h hq ⊢
      omega
  | sell =>
      simp only [hs, Side.opposite, Side.ahead, within, exceedsLimit, Bool.or_eq_true, decide_eq_true_eq,
        Bool.not_eq_true', decide_eq_false_iff_not] at h hq ⊢
      omega

theorem flatten_putLevels (s : Side) (ls : List (PriceLevel Order)) :
    flatten (putLevels b s ls) = putOrders (flatten b) s (resting ls) := by
  cases s <;> rfl

theorem walk_flat (h : CoreInvariant b) (cmd : Command) :
    (walk cmd b).fills = (serve cmd (flatten b)).fills ∧ (walk cmd b).left = (serve cmd (flatten b)).left ∧
      resting (walk cmd b).levels = (serve cmd (flatten b)).kept ++
        unreachable cmd.side.opposite (within cmd.side cmd) cmd.userId
          (ordersOf (flatten b) cmd.side.opposite) := by
  obtain ⟨hr, hb⟩ := reach_flat (within_of_ahead cmd) (h.side cmd.side.opposite) cmd.userId
  have hf := walkLevels_flattens (within cmd.side cmd) cmd.userId cmd.quantity
    (sideLevels b cmd.side.opposite)
  rw [serve, ordersOf_flatten, ← hr, ← hb]
  exact ⟨hf.fills, hf.left, hf.kept⟩

theorem traded_flat (h : CoreInvariant b) (cmd : Command) :
    flatten (traded cmd b) = served cmd (flatten b) := by
  obtain ⟨hfills, -, hkept⟩ := walk_flat h cmd
  rw [served, ← hkept, ← hfills, ← flatten_putLevels]
  rfl

theorem restOrder_flat (h : CoreInvariant b) (cmd : Command) (quantity : Int) :
    flatten (restOrder cmd quantity b) = rested cmd quantity (flatten b) := by
  have hrest := restAt_flat (h.side cmd.side) (storedOrder cmd.side cmd quantity b.nextSequence)
    (storedOrder cmd.side cmd quantity b.nextSequence).quantity
  rw [rested, ordersOf_flatten, flatten_nextSequence, ← hrest, ← flatten_putLevels]
  rfl

theorem matched_flat (h : CoreInvariant b) (cmd : Command) :
    flatten (matched cmd b) = submitted cmd (flatten b) := by
  obtain ⟨-, hleft, -⟩ := walk_flat h cmd
  rw [matched, submitted, ← hleft, ← traded_flat h]
  by_cases hr : cmd.price ≠ 0 ∧ 0 < (walk cmd b).left
  · rw [if_pos hr, if_pos (show rests cmd b from hr), restOrder_flat (traded_core h cmd)]
  · rw [if_neg hr, if_neg (show ¬ rests cmd b from hr)]

theorem cancelled_flat (h : CoreInvariant b) (key : OrderKey) :
    flatten (cancelled key b) = withdrawn key (flatten b) := by
  rw [cancelled, withdrawn, flatten_instances]
  cases b.instances key with
  | none => rfl
  | some n =>
      have hbids : resting (removeInstance n b.bids) = (resting b.bids).filter (fun o => o.sequence ≠ n) :=
        resting_removeInstance (h.side_nodup .buy)
      have hasks : resting (removeInstance n b.asks) = (resting b.asks).filter (fun o => o.sequence ≠ n) :=
        resting_removeInstance (h.side_nodup .sell)
      simp only [flatten, hbids, hasks]

theorem tops_flat (h : CoreInvariant b) :
    computeTop b.bids = best id (flatten b).bids ∧ computeTop b.asks = best id (flatten b).asks :=
  ⟨computeTop_flat (h.side .buy), computeTop_flat (h.side .sell)⟩

theorem topChanges_flat {old new : ReferenceBook} (ho : BookInvariant old) (hn : CoreInvariant new) :
    topChanges old new = bestChanges id (flatten old) (flatten new) := by
  obtain ⟨hob, hoa⟩ := tops_flat ho.toCoreInvariant
  obtain ⟨hnb, hna⟩ := tops_flat hn
  rw [topChanges, ho.topBid, ho.topAsk, hob, hoa, hnb, hna, bestChanges]

theorem call_flat (h : BookInvariant b) (c : BookCall) :
    flatCall id (flatten b) c = (flatten (refCall b c).1, (refCall b c).2) := by
  cases c with
  | processNewOrder cmd =>
      have hread := matched_flat h.toCoreInvariant cmd
      have htops := topChanges_flat h (matched_core h.toCoreInvariant cmd)
      simp only [flatCall, afterCall, answer, refCall, refNewOrder, (walk_flat h.toCoreInvariant cmd).1, htops,
        ← hread]
      rfl
  | processCancel cmd =>
      have hread := cancelled_flat h.toCoreInvariant cmd.key
      have htops := topChanges_flat h (cancelled_core h.toCoreInvariant cmd.key)
      simp only [flatCall, afterCall, answer, refCall, refCancel, htops, ← hread]
      rfl

end Call

theorem flat_run {b : SymbolOrderbook} (h : Represents b) (calls : List BookCall) :
    final (flatCall id) (flatten (deref b)) calls = flatten (deref (final call b calls)) ∧
      output (flatCall id) (flatten (deref b)) calls = output call b calls := by
  apply simulates call (flatCall id) Represents (fun b => flatten (deref b)) call_represents _ calls b h
  intro b c h
  rw [call_flat h.book, call_reads h]

section Narrow

variable {b : SymbolOrderbook}

theorem flatten_narrowed (b : SymbolOrderbook) : flatten (deref (narrowed b)) = flatten (deref b) := by
  have hside (ls : List (PriceLevel SlotPool.OrderIterator)) :
      resting ((ls.map narrowLevel).map (mapLevel (orderAt b))) = resting (ls.map (mapLevel (orderAt b))) := by
    rw [resting_map, resting_narrow, resting_map]
  ext1
  · exact hside b.bids
  · exact hside b.asks
  · rfl
  · rfl

theorem answer_front (c : BookCall) (b : PriorityBook) : ∀ line ∈ answer c b, isTop line = false := by
  cases c with
  | processNewOrder cmd => exact isTop_front cmd (serve cmd b).fills
  | processCancel cmd => exact List.forall_mem_singleton.mpr rfl

theorem currentTops_flat (h : Represents b) : b.currentTopBid = best id (flatten (deref b)).bids ∧
    b.currentTopAsk = best id (flatten (deref b)).asks := by
  obtain ⟨hbids, hasks⟩ := tops_flat h.book.toCoreInvariant
  rw [← hbids, ← hasks]
  exact ⟨h.book.topBid, h.book.topAsk⟩

theorem call64_flat {b : SymbolOrderbook} (h : NarrowBook b) (x : BookCall) :
    flatCall int64 (flatten (deref b)) x = (flatten (deref (call64 b x).1), (call64 b x).2) := by
  obtain ⟨c, hc, rfl⟩ := h
  obtain ⟨hbook, front, hfront, hlines, hlines64⟩ := call64_narrowed hc x
  have hread : flatCall id (flatten (deref c)) x = (flatten (deref (call c x).1), (call c x).2) := by
    rw [call_flat hc.book, call_reads hc]
  obtain ⟨hafter, hsaid⟩ := Prod.mk.inj hread
  have hanswer : answer x (flatten (deref c)) = front := by
    have hfilter := congrArg (List.filter fun line => !isTop line) hsaid
    rw [hlines, (filter_lines hfront (isTop_changes _ _ _ _)).1, bestChanges,
      (filter_lines (answer_front x _) (isTop_changes _ _ _ _)).1] at hfilter
    exact hfilter
  obtain ⟨hbid, hask⟩ := currentTops_flat hc
  obtain ⟨hbid', hask'⟩ := tops_flat (call_represents c x hc).book.toCoreInvariant
  have htopBid : computeTopBid (call c x).1 = best id (flatten (deref (call c x).1)).bids :=
    (computeTop_map _ _).symm.trans hbid'
  have htopAsk : computeTopAsk (call c x).1 = best id (flatten (deref (call c x).1)).asks :=
    (computeTop_map _ _).symm.trans hask'
  rw [flatten_narrowed, hbook, flatten_narrowed, hlines64, hbid, hask, htopBid, htopAsk]
  simp only [narrowTop_best]
  rw [flatCall, hanswer, hafter, bestChanges]

end Narrow

/-- The book is a priority queue of orders on each side, in every run and with every line it emits. It
publishes the quantities at the best prices as an `int64_t` holds them. -/
theorem flat_reads (calls : List BookCall) :
    final (flatCall int64) {} calls = flatten (deref (bookAfter64 calls)) ∧
      output (flatCall int64) {} calls = output call64 {} calls :=
  simulates call64 (flatCall int64) NarrowBook (fun b => flatten (deref b)) (fun _ x h => h.call64 x)
    (fun _ x h => call64_flat h x) calls {} narrowBook_empty

end Orderbook.FlatBook

import Orderbook.CommandParser
import Orderbook.Feed
import Orderbook.SelfBlocking

namespace Orderbook.Overflow

open Domain SlotPool CommandParser Ladder Book Reference ReferenceWalk ReferenceInvariant Slots
  SlotReuse Orderbook.Representation Observations SelfBlocking Library.QueueFill Library.Runs

variable {ι : Type}

/-- The `int64_t` that arithmetic modulo 2^64 gives for `n`. -/
def int64 (n : Int) : Int := (Int64.ofInt n).toInt

/-- Narrowing at every update of a total comes to the same as narrowing at the end. -/
theorem int64_add (m n : Int) : int64 (int64 m + n) = int64 (m + n) := by
  simp only [int64, Int64.ofInt_add, Int64.ofInt_toInt]

def narrowLevel (level : PriceLevel ι) : PriceLevel ι :=
  { level with totalQuantity := int64 level.totalQuantity }

/-- All totals as `int64_t`. Within a call they are only added to and subtracted from, and
no branch reads one before the tops are computed, so they are narrowed once, there. -/
def narrow (b : SymbolOrderbook) : SymbolOrderbook :=
  { b with
    bids := b.bids.map narrowLevel
    asks := b.asks.map narrowLevel }

def processNewOrder64 (cmd : Command) (b : SymbolOrderbook) : SymbolOrderbook × List OutputLine :=
  let matched := matchNewOrder cmd b
  let updated := updateTopOfBookAndEmitChanges b.currentTopBid b.currentTopAsk (narrow matched.1)
  (updated.1, .ack cmd.userId cmd.userOrderId :: (matched.2 ++ updated.2))

def processCancel64 (cmd : Command) (b : SymbolOrderbook) : SymbolOrderbook × List OutputLine :=
  let updated :=
    updateTopOfBookAndEmitChanges b.currentTopBid b.currentTopAsk (narrow (cancelOrder cmd.key b))
  (updated.1, .cancelAck cmd.userId cmd.userOrderId :: updated.2)

def call64 : Machine SymbolOrderbook BookCall OutputLine := fun b c =>
  match c with
  | .processNewOrder cmd => processNewOrder64 cmd b
  | .processCancel cmd => processCancel64 cmd b

def bookAfter64 (calls : List BookCall) : SymbolOrderbook := final call64 {} calls

def quantityAt (orders : List Order) (price : Int) : Int :=
  ((orders.filter (fun o => o.price = price)).map Order.quantity).sum

/-- The totals that a call leaves behind and publishes: positive, and the sums of what
the orders have left. -/
structure TotalsExact (b : SymbolOrderbook) (lines : List OutputLine) : Prop where
  stored : ∀ s, ∀ level ∈ levels b s, 0 < level.totalQuantity ∧
    level.totalQuantity = (level.orders.map (fun it => (orderAt b it).quantity)).sum
  published : ∀ s tob, .top s tob ∈ lines → tob.valid = true → 0 < tob.totalQuantity ∧
    tob.totalQuantity = quantityAt (restingOrders b s) tob.price

def NeverOverflows (calls : List BookCall) : Prop :=
  ∀ pre c post, calls = pre ++ c :: post →
    TotalsExact (call64 (bookAfter64 pre) c).1 (call64 (bookAfter64 pre) c).2

/-- What an order of `cmd` can trade with: other users' orders inside its limit, up to the
first level that holds an order of its own user. -/
def offered (b : SymbolOrderbook) (cmd : Command) : Int :=
  foreignQuantity cmd.userId (resting
    (reach (within cmd.side cmd) cmd.userId (ladder b cmd.side.opposite)))

def Fits (b : SymbolOrderbook) (cmd : Command) : Prop :=
  cmd.price ≠ 0 → offered b cmd < cmd.quantity →
    quantityAt (restingOrders b cmd.side) cmd.price + (cmd.quantity - offered b cmd) ≤
      Int64.maxValue.toInt

section Quantities

variable {s : Side} {next : Nat} {levels : List (PriceLevel Order)}

theorem int64_le (n : Int) : int64 n ≤ Int64.maxValue.toInt := Int64.toInt_le _

theorem int64_eq {n : Int} (h : 0 ≤ n) (hn : n ≤ Int64.maxValue.toInt) : int64 n = n := by
  apply Int64.toInt_ofInt_of_le
  · exact Int.le_trans (by decide) h
  · exact Int.lt_of_le_of_lt hn (by decide)

theorem narrowLevel_eq {level : PriceLevel ι} (h : 0 ≤ level.totalQuantity)
    (ht : level.totalQuantity ≤ Int64.maxValue.toInt) : narrowLevel level = level := by
  rw [narrowLevel, int64_eq h ht]

theorem level_orders (h : SideInvariant s next levels) {level : PriceLevel Order} (hl : level ∈ levels) :
    (resting levels).filter (fun o => o.price = level.price) = level.orders := by
  induction levels with
  | nil => cases hl
  | cons front rest ih =>
      rcases List.mem_cons.mp hl with rfl | hl
      · exact Feed.front_orders h
      · rw [resting_cons, List.filter_append, ih h.tail hl, List.filter_eq_nil_iff.mpr, List.nil_append]
        intro o ho
        obtain ⟨p, hp⟩ := List.exists_mem_of_ne_nil _ (h.tail.level level hl).nonempty
        have hahead := h.front_ahead p (mem_resting.mpr ⟨level, hl, hp⟩)
        rw [(h.tail.level level hl).price_eq p hp] at hahead
        have hne : o.price ≠ level.price := by
          rw [(h.level front List.mem_cons_self).price_eq o ho]
          exact s.ne_of_ahead hahead
        simpa using hne

theorem total_eq_quantityAt (h : SideInvariant s next levels) {level : PriceLevel Order}
    (hl : level ∈ levels) : level.totalQuantity = quantityAt (resting levels) level.price := by
  rw [quantityAt, level_orders h hl]
  exact (h.level level hl).total_eq

theorem quantityAt_append (xs ys : List Order) (price : Int) :
    quantityAt (xs ++ ys) price = quantityAt xs price + quantityAt ys price := by
  rw [quantityAt, List.filter_append, List.map_append, List.sum_append]
  rfl

theorem totals_le_iff (h : SideInvariant s next levels) {bound : Int} (hb : 0 ≤ bound) :
    (∀ level ∈ levels, level.totalQuantity ≤ bound) ↔
      ∀ price, quantityAt (resting levels) price ≤ bound := by
  constructor
  · intro ht price
    by_cases hp : ∃ level ∈ levels, level.price = price
    · obtain ⟨level, hl, rfl⟩ := hp
      rw [← total_eq_quantityAt h hl]
      exact ht level hl
    · rw [quantityAt, List.filter_eq_nil_iff.mpr]
      · exact hb
      · intro o ho he
        obtain ⟨level, hl, hol⟩ := mem_resting.mp ho
        rw [(h.level level hl).price_eq o hol, decide_eq_true_eq] at he
        exact hp ⟨level, hl, he⟩
  · intro hq level hl
    rw [total_eq_quantityAt h hl]
    exact hq level.price

theorem quantityAt_rested (o : Order) (price : Int) :
    quantityAt (resting (restAt s o o.quantity o.price levels)) price =
      quantityAt (resting levels) price + if o.price = price then o.quantity else 0 := by
  have hp := ((resting_restAt s o o.quantity o.price levels).filter (fun o => o.price = price)).map
    Order.quantity
  rw [quantityAt, hp.sum_eq]
  split_ifs with he
  · rw [List.filter_cons_of_pos (by simpa using he), List.map_cons, List.sum_cons, Int.add_comm]
    rfl
  · rw [List.filter_cons_of_neg (by simpa using he), Int.add_zero]
    rfl

theorem quantityAt_kept {orders : List Order} (hpos : ∀ o ∈ orders, 0 < o.quantity) (user q price : Int) :
    quantityAt (fill (orderRule user) q orders).kept price ≤ quantityAt orders price := by
  have hk : quantityAt (fill (orderRule user) q orders).kept price +
      takenSum ((fill (orderRule user) q orders).fills.filter (fun f => f.item.price = price)) =
        quantityAt orders price :=
    amountSum_kept_filter (orderRule user) (fun o => o.price = price) (fun _ _ => rfl) q orders
  have ht : 0 ≤ takenSum
      ((fill (orderRule user) q orders).fills.filter (fun f => f.item.price = price)) := by
    apply List.sum_nonneg
    intro t hm
    obtain ⟨f, hf, rfl⟩ := List.mem_map.mp hm
    obtain ⟨_, _, _, _, htaken, _⟩ := fills_bounds (orderRule user) hpos f (List.mem_of_mem_filter hf)
    exact Int.le_of_lt htaken
  omega

theorem quantityAt_walked (hpos : ∀ o ∈ resting levels, 0 < o.quantity) (within : Int → Bool)
    (user q price : Int) :
    quantityAt (resting (walkLevels within user q levels).levels) price ≤
      quantityAt (resting levels) price := by
  rw [(walkLevels_flattens within user q levels).kept, resting_reach_beyond within user levels,
    quantityAt_append, quantityAt_append]
  apply Int.add_le_add_right
  exact quantityAt_kept (fun o ho => hpos o (mem_reach_resting within user ho)) user q price

theorem quantityAt_filter {orders : List Order} (hpos : ∀ o ∈ orders, 0 < o.quantity) (p : Order → Bool)
    (price : Int) : quantityAt (orders.filter p) price ≤ quantityAt orders price := by
  apply List.Sublist.sum_le_sum
  · exact (List.filter_sublist.filter _).map _
  · intro q hq
    obtain ⟨o, ho, rfl⟩ := List.mem_map.mp hq
    exact Int.le_of_lt (hpos o (List.mem_of_mem_filter ho))

end Quantities

section Step

def Bounded (r : ReferenceBook) : Prop :=
  ∀ s price, quantityAt (resting (sideLevels r s)) price ≤ Int64.maxValue.toInt

variable {r : ReferenceBook}

theorem bounded_iff (h : CoreInvariant r) :
    Bounded r ↔ ∀ s, ∀ level ∈ sideLevels r s, level.totalQuantity ≤ Int64.maxValue.toInt :=
  forall_congr' (fun s => (totals_le_iff (h.side s) (by decide)).symm)

def available (cmd : Command) (r : ReferenceBook) : Int :=
  foreignQuantity cmd.userId (resting
    (reach (within cmd.side cmd) cmd.userId (sideLevels r cmd.side.opposite)))

theorem walk_left (h : CoreInvariant r) {cmd : Command} (hl : 0 < (walk cmd r).left) :
    (walk cmd r).left = cmd.quantity - available cmd r := by
  have hpos := (h.side cmd.side.opposite).positive
  have hlt := (walk_left_pos (within cmd.side cmd) cmd.userId cmd.quantity hpos).mp hl
  have hn := foreignQuantity_nonneg cmd.userId
    (fun o ho => hpos o (mem_reach_resting (within cmd.side cmd) cmd.userId ho))
  have ht := walk_takes (within cmd.side cmd) cmd.userId (Int.le_trans hn (Int.le_of_lt hlt)) hpos
  rw [walkLevels_takenSum] at ht
  change cmd.quantity - (walk cmd r).left = min cmd.quantity (available cmd r) at ht
  omega

theorem rests_iff (h : CoreInvariant r) (cmd : Command) :
    rests cmd r ↔ cmd.price ≠ 0 ∧ available cmd r < cmd.quantity :=
  and_congr_right (fun _ =>
    walk_left_pos (within cmd.side cmd) cmd.userId cmd.quantity (h.side cmd.side.opposite).positive)

theorem quantityAt_matched_own {cmd : Command} (hr : rests cmd r) (price : Int) :
    quantityAt (resting (sideLevels (matched cmd r) cmd.side)) price =
      quantityAt (resting (sideLevels r cmd.side)) price +
        if cmd.price = price then (walk cmd r).left else 0 := by
  rw [matched_own, if_pos hr]
  exact quantityAt_rested (storedOrder cmd.side cmd (walk cmd r).left r.nextSequence) price

theorem quantityAt_matched_opposite (h : CoreInvariant r) (cmd : Command) (price : Int) :
    quantityAt (resting (sideLevels (matched cmd r) cmd.side.opposite)) price ≤
      quantityAt (resting (sideLevels r cmd.side.opposite)) price := by
  rw [matched_opposite]
  exact quantityAt_walked (h.side cmd.side.opposite).positive _ _ _ price

theorem matched_bounded_iff (h : CoreInvariant r) (hb : Bounded r) (cmd : Command) :
    Bounded (matched cmd r) ↔ (cmd.price ≠ 0 → available cmd r < cmd.quantity →
      quantityAt (resting (sideLevels r cmd.side)) cmd.price + (cmd.quantity - available cmd r) ≤
        Int64.maxValue.toInt) := by
  have hopp (price : Int) :=
    Int.le_trans (quantityAt_matched_opposite h cmd price) (hb cmd.side.opposite price)
  by_cases hr : rests cmd r
  · rw [← walk_left h hr.2]
    constructor
    · intro ha _ _
      have hp := ha cmd.side cmd.price
      rwa [quantityAt_matched_own hr, if_pos rfl] at hp
    · intro hf
      -- the remainder adds to its own price only
      refine forall_side cmd.side ?_ hopp
      intro price
      rw [quantityAt_matched_own hr]
      split_ifs with hp
      · obtain ⟨hprice, hleft⟩ := (rests_iff h cmd).mp hr
        exact hp ▸ hf hprice hleft
      · rw [Int.add_zero]
        exact hb cmd.side price
  · constructor
    · exact fun _ hp hq => absurd ((rests_iff h cmd).mpr ⟨hp, hq⟩) hr
    · intro _
      refine forall_side cmd.side ?_ hopp
      rw [matched_own, if_neg hr]
      exact hb cmd.side

theorem cancelled_bounded (h : CoreInvariant r) (hb : Bounded r) (key : OrderKey) :
    Bounded (cancelled key r) := by
  rw [cancelled]
  cases r.instances key with
  | none => exact hb
  | some n =>
      have hremoved (s : Side) (price : Int) :
          quantityAt (resting (removeInstance n (sideLevels r s))) price ≤ Int64.maxValue.toInt := by
        rw [resting_removeInstance (h.side_nodup s)]
        exact Int.le_trans (quantityAt_filter (h.side s).positive _ price) (hb s price)
      exact forall_side .buy (hremoved .buy) (hremoved .sell)

theorem refCall_top {c : BookCall} {s : Side} {tob : TopOfBook} (h : .top s tob ∈ (refCall r c).2) :
    tob = computeTop (sideLevels (refCall r c).1 s) := by
  cases c with
  | processNewOrder cmd =>
      change tob = computeTop (sideLevels (refreshTops (matched cmd r)) s)
      rw [sideLevels_refreshTops]
      change _ ∈ (_ :: _) ++ topChanges r (matched cmd r) at h
      rcases List.mem_append.mp h with h | h
      · cases Feed.isTop_front cmd _ _ h
      · obtain ⟨_, he⟩ := mem_topChanges h
        cases he
        rfl
  | processCancel cmd =>
      change tob = computeTop (sideLevels (refreshTops (cancelled cmd.key r)) s)
      rw [sideLevels_refreshTops]
      rcases List.mem_cons.mp h with h | h
      · cases h
      · obtain ⟨_, he⟩ := mem_topChanges h
        cases he
        rfl

end Step

section Book

variable {b : SymbolOrderbook}

@[simp] theorem levels_narrow (b : SymbolOrderbook) (s : Side) :
    levels (narrow b) s = (levels b s).map narrowLevel := by
  cases s <;> rfl

theorem level_total (h : CoreInvariant (deref b)) {s : Side} {level : PriceLevel OrderIterator}
    (hl : level ∈ levels b s) : 0 < level.totalQuantity ∧
      level.totalQuantity = (level.orders.map (fun it => (orderAt b it).quantity)).sum := by
  have hi := level_invariant h s level hl
  have ht := hi.total_eq
  rw [mapLevel_orders, List.map_map] at ht
  exact ⟨hi.total_pos, ht⟩

theorem bounded_deref (h : CoreInvariant (deref b)) :
    Bounded (deref b) ↔ ∀ s, ∀ level ∈ levels b s, level.totalQuantity ≤ Int64.maxValue.toInt := by
  rw [bounded_iff h]
  apply forall_congr'
  intro s
  rw [sideLevels_deref, List.forall_mem_map]
  rfl

theorem narrow_eq (h : CoreInvariant (deref b)) (hb : Bounded (deref b)) : narrow b = b := by
  have hside (s : Side) : (levels b s).map narrowLevel = levels b s := by
    apply (List.map_congr_left _).trans (List.map_id _)
    intro level hl
    exact narrowLevel_eq (Int.le_of_lt (level_total h hl).1) ((bounded_deref h).mp hb s level hl)
  have hbids : b.bids.map narrowLevel = b.bids := hside .buy
  have hasks : b.asks.map narrowLevel = b.asks := hside .sell
  rw [narrow, hbids, hasks]

theorem bounded_of_exact (h : CoreInvariant (deref b)) (oldBid oldAsk : TopOfBook) (lines : List OutputLine)
    (he : TotalsExact (updateTopOfBookAndEmitChanges oldBid oldAsk (narrow b)).1 lines) :
    Bounded (deref b) := by
  rw [bounded_deref h]
  intro s level hl
  have hm : narrowLevel level ∈ levels (updateTopOfBookAndEmitChanges oldBid oldAsk (narrow b)).1 s := by
    have hn : narrowLevel level ∈ levels (narrow b) s := by
      rw [levels_narrow]
      exact List.mem_map_of_mem hl
    cases s <;> exact hn
  have ht : int64 level.totalQuantity = (level.orders.map (fun it => (orderAt b it).quantity)).sum :=
    (he.stored s _ hm).2
  rw [(level_total h hl).2, ← ht]
  exact int64_le _

theorem call_exact (h : Represents b) (c : BookCall) : TotalsExact (call b c).1 (call b c).2 := by
  have hnext := call_represents b c h
  have hcore := hnext.book.toCoreInvariant
  constructor
  · exact fun s level hl => level_total hcore hl
  · intro s tob hm hv
    have hr := call_reads h c
    rw [show (call b c).2 = (refCall (deref b) c).2 by rw [hr]] at hm
    have ht := refCall_top hm
    rw [hr] at ht
    rw [restingOrders_eq]
    cases hl : sideLevels (deref (call b c).1) s with
    | nil =>
        rw [ht, hl] at hv
        cases hv
    | cons level rest =>
        have hfront : level ∈ sideLevels (deref (call b c).1) s := hl ▸ List.mem_cons_self
        have htotal := total_eq_quantityAt (hcore.side s) hfront
        have hpos := ((hcore.side s).level level hfront).total_pos
        rw [hl] at ht htotal
        rw [ht]
        exact ⟨hpos, htotal⟩

structure Sound (b : SymbolOrderbook) : Prop extends Represents b where
  bounded : Bounded (deref b)

def CallFits (b : SymbolOrderbook) : BookCall → Prop
  | .processNewOrder cmd => Fits b cmd
  | .processCancel _ => True

theorem fits_iff (b : SymbolOrderbook) (h : Sound b) (cmd : Command) :
    Fits b cmd ↔ Bounded (deref (matchNewOrder cmd b).1) := by
  rw [(matchNewOrder_reads h.toSlotInvariant h.book.toCoreInvariant cmd).1,
    matched_bounded_iff h.book.toCoreInvariant h.bounded, Fits, offered, restingOrders_eq, ladder_eq, available]

theorem call64_eq (h : Sound b) {c : BookCall} (ha : CallFits b c) :
    call64 b c = call b c ∧ Bounded (deref (call b c).1) := by
  have hcore := h.book.toCoreInvariant
  cases c with
  | processNewOrder cmd =>
      have hread := (matchNewOrder_reads h.toSlotInvariant hcore cmd).1
      have hbounded := (fits_iff b h cmd).mp ha
      have hn : narrow (matchNewOrder cmd b).1 = (matchNewOrder cmd b).1 := by
        apply narrow_eq _ hbounded
        rw [hread]
        exact matched_core hcore cmd
      constructor
      · rw [call64, processNewOrder64, hn]
        rfl
      · exact forall_side .buy (hbounded .buy) (hbounded .sell)
  | processCancel cmd =>
      have hread := SlotCancel.deref_cancelOrder h.toSlotInvariant hcore cmd.key
      have hbounded : Bounded (deref (cancelOrder cmd.key b)) := by
        rw [hread]
        exact cancelled_bounded hcore h.bounded cmd.key
      have hn : narrow (cancelOrder cmd.key b) = cancelOrder cmd.key b := by
        apply narrow_eq _ hbounded
        rw [hread]
        exact cancelled_core hcore cmd.key
      constructor
      · rw [call64, processCancel64, hn]
        rfl
      · exact forall_side .buy (hbounded .buy) (hbounded .sell)

theorem call64_sound (b : SymbolOrderbook) (c : BookCall) (h : Sound b) (ha : CallFits b c) :
    Sound (call64 b c).1 := by
  obtain ⟨he, hb⟩ := call64_eq h ha
  rw [he]
  exact ⟨call_represents b c h.toRepresents, hb⟩

theorem call64_exact_iff (b : SymbolOrderbook) (c : BookCall) (h : Sound b) :
    TotalsExact (call64 b c).1 (call64 b c).2 ↔ CallFits b c := by
  constructor
  · intro he
    cases c with
    | processNewOrder cmd =>
        rw [CallFits, fits_iff b h cmd]
        apply bounded_of_exact _ b.currentTopBid b.currentTopAsk _ he
        rw [(matchNewOrder_reads h.toSlotInvariant h.book.toCoreInvariant cmd).1]
        exact matched_core h.book.toCoreInvariant cmd
    | processCancel cmd => trivial
  · intro ha
    rw [(call64_eq h ha).1]
    exact call_exact h.toRepresents c

end Book

/-- Totals stay positive and exact along a run exactly if every limit order of it fits. -/
theorem neverOverflows_iff (calls : List BookCall) :
    NeverOverflows calls ↔
      ∀ pre cmd post, calls = pre ++ .processNewOrder cmd :: post → Fits (bookAfter64 pre) cmd := by
  have hzero : (0 : Int) ≤ Int64.maxValue.toInt := by decide
  have hempty : Sound {} := ⟨represents_empty, forall_side .buy (fun _ => hzero) (fun _ => hzero)⟩
  have hruns := forall_steps_iff call64 (fun b c => call64_exact_iff b c)
    (fun b c => call64_sound b c) hempty calls
  refine hruns.trans ⟨fun h pre cmd post hc => h pre _ post hc, ?_⟩
  intro h pre c post hc
  cases c with
  | processNewOrder cmd => exact h pre cmd post hc
  | processCancel cmd => trivial

def lineCall (line : Text) : Option BookCall :=
  match parseLineToCommand line with
  | .error _ => none
  | .ok cmd =>
      match cmd.type with
      | .newOrder => some (.processNewOrder cmd)
      | .cancel => some (.processCancel cmd)
      | .flush => none
      | .invalid => none

def Parsed (calls : List BookCall) : Prop := ∀ c ∈ calls, ∃ line, lineCall line = some c

def largestBid : Text :=
  ['N', ',', '1', ',', 'X', ',', '1', '0', ','] ++ decimal Int64.maxValue.toInt ++ [',', 'B', ',', '1']

def oneMore : Text := ['N', ',', '2', ',', 'X', ',', '1', '0', ',', '1', ',', 'B', ',', '2']

def overflowingCalls : List BookCall :=
  [.processNewOrder (newOrderCommand ['X'] .buy 1 1 10 9223372036854775807),
    .processNewOrder (newOrderCommand ['X'] .buy 2 2 10 1)]

theorem overflowingCalls_parsed : Parsed overflowingCalls := by
  have hfirst : parseLineToCommand largestBid =
      .ok (newOrderCommand ['X'] .buy 1 1 10 9223372036854775807) := by
    decide +kernel
  have hsecond : parseLineToCommand oneMore = .ok (newOrderCommand ['X'] .buy 2 2 10 1) := by
    decide +kernel
  refine List.forall_mem_cons.mpr ⟨⟨largestBid, ?_⟩, List.forall_mem_singleton.mpr ⟨oneMore, ?_⟩⟩
  · rw [lineCall, hfirst]
    rfl
  · rw [lineCall, hsecond]
    rfl

theorem two_bids_overflow : ¬ ∀ calls, Parsed calls → NeverOverflows calls := by
  intro h
  have hexact := h overflowingCalls overflowingCalls_parsed [_] _ [] rfl
  have htop := hexact.published .buy ⟨true, 10, -9223372036854775808⟩ (by decide +kernel) rfl
  exact absurd htop.1 (by decide)

end Orderbook.Overflow

import Mathlib.Algebra.BigOperators.Ring.List
import Orderbook.Exchange

namespace Orderbook.Neutrality

open Domain Matching Book Reference ReferenceInvariant Engine Slots SlotReuse Overflow Wrapping NarrowEngine
  FlatBook Exchange Library.QueueFill Library.Runs

/-- Other names for users, order ids and symbols, other prices in the same order, and quantities in
another unit. A price of zero makes a market order, so it stays zero. -/
structure Relabelling where
  user : Int → Int
  orderId : Int → Int → Int
  symbol : Text → Text
  price : Int → Int
  unit : Int
  user_injective : Function.Injective user
  orderId_injective : ∀ u, Function.Injective (orderId u)
  symbol_injective : Function.Injective symbol
  price_lt : ∀ {p q}, p < q → price p < price q
  price_zero : price 0 = 0
  unit_pos : 0 < unit

namespace Relabelling

variable (ρ : Relabelling) (seq : Nat → Nat)

def key (k : OrderKey) : OrderKey := ⟨ρ.user k.userId, ρ.orderId k.userId k.userOrderId⟩

def command (cmd : Command) : Command where
  type := cmd.type
  userId := ρ.user cmd.userId
  symbol := ρ.symbol cmd.symbol
  price := ρ.price cmd.price
  quantity := ρ.unit * cmd.quantity
  side := cmd.side
  userOrderId := ρ.orderId cmd.userId cmd.userOrderId

def call : BookCall → BookCall
  | .processNewOrder cmd => .processNewOrder (ρ.command cmd)
  | .processCancel cmd => .processCancel (ρ.command cmd)

def order (o : Order) : Order where
  userId := ρ.user o.userId
  userOrderId := ρ.orderId o.userId o.userOrderId
  side := o.side
  price := ρ.price o.price
  quantity := ρ.unit * o.quantity
  sequence := seq o.sequence

def fill (f : Fill Order) : Fill Order := ⟨ρ.order seq f.item, ρ.unit * f.taken⟩

def top (tob : TopOfBook) : TopOfBook := ⟨tob.valid, ρ.price tob.price, ρ.unit * tob.totalQuantity⟩

def line : OutputLine → OutputLine
  | .ack userId userOrderId => .ack (ρ.user userId) (ρ.orderId userId userOrderId)
  | .cancelAck userId userOrderId => .cancelAck (ρ.user userId) (ρ.orderId userId userOrderId)
  | .trade buy sell tradePrice tradeQty =>
      .trade (ρ.order seq buy) (ρ.order seq sell) (ρ.price tradePrice) (ρ.unit * tradeQty)
  | .top side tob => .top side (ρ.top tob)

@[simp] theorem order_price (o : Order) : (ρ.order seq o).price = ρ.price o.price := rfl

@[simp] theorem order_userId (o : Order) : (ρ.order seq o).userId = ρ.user o.userId := rfl

@[simp] theorem order_quantity (o : Order) : (ρ.order seq o).quantity = ρ.unit * o.quantity := rfl

@[simp] theorem order_sequence (o : Order) : (ρ.order seq o).sequence = seq o.sequence := rfl

@[simp] theorem order_key (o : Order) : (ρ.order seq o).key = ρ.key o.key := rfl

@[simp] theorem command_side (cmd : Command) : (ρ.command cmd).side = cmd.side := rfl

@[simp] theorem command_key (cmd : Command) : (ρ.command cmd).key = ρ.key cmd.key := rfl

theorem key_injective : Function.Injective ρ.key := by
  rintro ⟨u, i⟩ ⟨u', i'⟩ h
  obtain ⟨hu, hi⟩ := OrderKey.mk.inj h
  obtain rfl : u = u' := ρ.user_injective hu
  obtain rfl : i = i' := ρ.orderId_injective u hi
  rfl

theorem price_lt_iff (p q : Int) : ρ.price p < ρ.price q ↔ p < q := by
  constructor
  · intro h
    by_contra hn
    rcases Int.lt_or_eq_of_le (Int.not_lt.mp hn) with hlt | rfl
    · exact Int.lt_asymm h (ρ.price_lt hlt)
    · exact Int.lt_irrefl _ h
  · exact ρ.price_lt

theorem price_injective : Function.Injective ρ.price := by
  intro p q h
  rcases Int.lt_trichotomy p q with hlt | rfl | hlt
  · exact absurd h (Int.ne_of_lt (ρ.price_lt hlt))
  · rfl
  · exact absurd h.symm (Int.ne_of_lt (ρ.price_lt hlt))

theorem price_eq_zero (p : Int) : ρ.price p = 0 ↔ p = 0 := ρ.price_injective.eq_iff' ρ.price_zero

theorem unit_mul_eq_zero (q : Int) : ρ.unit * q = 0 ↔ q = 0 := by
  simp [ρ.unit_pos.ne']

theorem unit_mul_pos (q : Int) : 0 < ρ.unit * q ↔ 0 < q :=
  ⟨fun h => pos_of_mul_pos_right h ρ.unit_pos.le, Int.mul_pos ρ.unit_pos⟩

theorem ahead_price (s : Side) (p q : Int) : s.ahead (ρ.price p) (ρ.price q) ↔ s.ahead p q := by
  cases s with
  | buy => exact ρ.price_lt_iff _ _
  | sell => exact ρ.price_lt_iff _ _

theorem within_command (s : Side) (cmd : Command) (p : Int) :
    within s (ρ.command cmd) (ρ.price p) = within s cmd p := by
  have hlimit : exceedsLimit s (ρ.price p) (ρ.price cmd.price) = exceedsLimit s p cmd.price := by
    cases s with
    | buy => simp only [exceedsLimit, ρ.price_lt_iff]
    | sell => simp only [exceedsLimit, ρ.price_lt_iff]
  simp only [within, command, ρ.price_eq_zero, hlimit]

theorem filter_order {P P' : Order → Prop} [DecidablePred P] [DecidablePred P']
    (h : ∀ o, P' (ρ.order seq o) ↔ P o) (os : List Order) :
    (os.map (ρ.order seq)).filter (fun o => P' o) = (os.filter (fun o => P o)).map (ρ.order seq) := by
  rw [List.filter_map]
  congr 1
  apply List.filter_congr
  intro o _
  simpa using h o

end Relabelling

section Orders

variable (ρ : Relabelling) (seq : Nat → Nat)

theorem reachable_order {s : Side} {w w' : Int → Bool} (hw : ∀ p, w' (ρ.price p) = w p) (user : Int)
    (os : List Order) (o : Order) :
    Reachable s w' (ρ.user user) (os.map (ρ.order seq)) (ρ.order seq o) ↔ Reachable s w user os o := by
  simp only [Reachable, Relabelling.order_price, hw, List.forall_mem_map, Relabelling.order_userId,
    ρ.user_injective.eq_iff, ρ.ahead_price]

theorem enqueue_order (s : Side) (o : Order) (os : List Order) :
    enqueue s (ρ.order seq o) (os.map (ρ.order seq)) = (enqueue s o os).map (ρ.order seq) := by
  have hbehind : ∀ p, s.ahead (ρ.order seq o).price (ρ.order seq p).price ↔ s.ahead o.price p.price :=
    fun p => ρ.ahead_price s o.price p.price
  rw [enqueue, enqueue, List.map_append, List.map_cons,
    ρ.filter_order seq (fun p => not_congr (hbehind p)), ρ.filter_order seq hbehind]

/-- A total is published alike in either unit. -/
def Scales (published : Int → Int) (unit : Int) (b : PriorityBook) : Prop :=
  ∀ s price, published (unit * quantityAt (ordersOf b s) price) =
    unit * published (quantityAt (ordersOf b s) price)

theorem quantityAt_order (os : List Order) (price : Int) :
    quantityAt (os.map (ρ.order seq)) (ρ.price price) = ρ.unit * quantityAt os price := by
  have hsame : ∀ p, (ρ.order seq p).price = ρ.price price ↔ p.price = price := fun p => ρ.price_injective.eq_iff
  rw [quantityAt, ρ.filter_order seq hsame, List.map_map, quantityAt, ← List.sum_map_mul_left]
  rfl

theorem best_order {published : Int → Int} {os : List Order}
    (hs : ∀ price, published (ρ.unit * quantityAt os price) = ρ.unit * published (quantityAt os price)) :
    best published (os.map (ρ.order seq)) = ρ.top (best published os) := by
  cases os with
  | nil => simp [best, Relabelling.top, ρ.price_zero]
  | cons o os =>
      rw [List.map_cons, best, ρ.order_price, ← List.map_cons, quantityAt_order, hs]
      rfl

theorem topChange_top (s : Side) (old new : TopOfBook) :
    topChange s (ρ.top old) (ρ.top new) = (topChange s old new).map (ρ.line seq) := by
  have hequal : Ladder.topEqual (ρ.top old) (ρ.top new) = Ladder.topEqual old new := by
    simp only [Ladder.topEqual, Relabelling.top, ρ.price_injective.eq_iff,
      mul_right_inj' ρ.unit_pos.ne']
  rw [topChange, topChange, hequal]
  split_ifs <;> rfl

end Orders

/-- `c` is the book `b` under other names. -/
structure Relabels (ρ : Relabelling) (seq : Nat → Nat) (b c : PriorityBook) : Prop where
  orders : ∀ s, ordersOf c s = (ordersOf b s).map (ρ.order seq)
  instances : ∀ k, c.instances (ρ.key k) = (b.instances k).map seq

section Calls

variable {ρ : Relabelling} {seq : Nat → Nat} {b c : PriorityBook}

theorem serve_relabels (h : Relabels ρ seq b c) (cmd : Command) :
    serve (ρ.command cmd) c = ⟨(serve cmd b).kept.map (ρ.order seq), ρ.unit * (serve cmd b).left,
      (serve cmd b).fills.map (ρ.fill seq)⟩ := by
  have hreach : reachable cmd.side.opposite (within cmd.side (ρ.command cmd)) (ρ.user cmd.userId)
      (ordersOf c cmd.side.opposite) = (reachable cmd.side.opposite (within cmd.side cmd) cmd.userId
        (ordersOf b cmd.side.opposite)).map (ρ.order seq) := by
    rw [h.orders]
    exact ρ.filter_order seq (reachable_order ρ seq (ρ.within_command cmd.side cmd) cmd.userId _) _
  rw [serve]
  refine (congrArg (fill _ _) hreach).trans ?_
  apply fill_map ρ.unit_pos
  · intro o
    simp [ρ.user_injective.eq_iff, Relabelling.command]
  · exact fun _ => rfl
  · intro o t
    simp [Relabelling.order, Int.mul_sub]

theorem fillLine_relabels (hzero : seq 0 = 0) (cmd : Command) (f : Fill Order) :
    fillLine (ρ.command cmd) (ρ.fill seq f) = ρ.line seq (fillLine cmd f) := by
  have hincoming : makeIncomingOrder (ρ.command cmd) = ρ.order seq (makeIncomingOrder cmd) := by
    simp [makeIncomingOrder, Relabelling.order, Relabelling.command, hzero]
  simp only [fillLine, hincoming]
  cases hs : cmd.side with
  | buy => simp only [Relabelling.command, hs]; rfl
  | sell => simp only [Relabelling.command, hs]; rfl

theorem forget_relabels (fs : List (Fill Order)) {m m' : OrderKey → Option Nat}
    (h : ∀ k, m' (ρ.key k) = (m k).map seq) (k : OrderKey) :
    forget (fs.map (ρ.fill seq)) m' (ρ.key k) = (forget fs m k).map seq := by
  have hgone : (∃ f ∈ fs.map (ρ.fill seq), f.item.quantity = 0 ∧ f.item.key = ρ.key k) ↔
      ∃ f ∈ fs, f.item.quantity = 0 ∧ f.item.key = k := by
    simp [Relabelling.fill, ρ.unit_mul_eq_zero, ρ.key_injective.eq_iff]
  rw [forget_apply, forget_apply, h]
  by_cases hg : ∃ f ∈ fs, f.item.quantity = 0 ∧ f.item.key = k
  · rw [if_pos hg, if_pos (hgone.mpr hg), Option.map_none]
  · rw [if_neg hg, if_neg (fun hg' => hg (hgone.mp hg'))]

theorem update_relabels {m m' : OrderKey → Option Nat} (h : ∀ k, m' (ρ.key k) = (m k).map seq)
    (key : OrderKey) (n : Option Nat) (k : OrderKey) :
    Function.update m' (ρ.key key) (n.map seq) (ρ.key k) = (Function.update m key n k).map seq := by
  by_cases hk : k = key
  · rw [hk, Function.update_self, Function.update_self]
  · rw [Function.update_of_ne (fun he => hk (ρ.key_injective he)), Function.update_of_ne hk, h]

theorem Relabels.served (h : Relabels ρ seq b c) (cmd : Command) :
    Relabels ρ seq (served cmd b) (served (ρ.command cmd) c) := by
  have hserve := serve_relabels h cmd
  constructor
  · intro s
    have hbeyond : unreachable cmd.side.opposite (within cmd.side (ρ.command cmd)) (ρ.user cmd.userId)
        (ordersOf c cmd.side.opposite) = (unreachable cmd.side.opposite (within cmd.side cmd) cmd.userId
          (ordersOf b cmd.side.opposite)).map (ρ.order seq) := by
      rw [h.orders]
      apply ρ.filter_order seq
      exact fun o => not_congr (reachable_order ρ seq (ρ.within_command cmd.side cmd) cmd.userId _ o)
    rw [ordersOf_served, ordersOf_served, hserve, ρ.command_side]
    by_cases hs : s = cmd.side.opposite
    · subst hs
      rw [if_pos rfl, if_pos rfl, List.map_append, ← hbeyond]
      rfl
    · rw [if_neg hs, if_neg hs, h.orders]
  · intro k
    rw [FlatBook.served, FlatBook.served, hserve]
    exact forget_relabels _ h.instances k

theorem Relabels.rested (h : Relabels ρ seq b c) (hnext : c.nextSequence = seq b.nextSequence) (cmd : Command)
    (quantity : Int) : Relabels ρ seq (rested cmd quantity b) (rested (ρ.command cmd) (ρ.unit * quantity) c) := by
  have hstored : storedOrder cmd.side (ρ.command cmd) (ρ.unit * quantity) c.nextSequence =
      ρ.order seq (storedOrder cmd.side cmd quantity b.nextSequence) := by
    rw [hnext]
    rfl
  constructor
  · intro s
    rw [ordersOf_rested, ordersOf_rested, ρ.command_side]
    by_cases hs : s = cmd.side
    · subst hs
      rw [if_pos rfl, if_pos rfl, ← enqueue_order, ← h.orders, ← hstored]
    · rw [if_neg hs, if_neg hs, h.orders]
  · intro k
    have hupdate := update_relabels h.instances cmd.key (some b.nextSequence) k
    rw [Option.map_some, ← hnext] at hupdate
    exact hupdate

theorem Relabels.submitted (h : Relabels ρ seq b c) (hnext : c.nextSequence = seq b.nextSequence)
    (cmd : Command) : Relabels ρ seq (submitted cmd b) (submitted (ρ.command cmd) c) := by
  have hprice : (ρ.command cmd).price ≠ 0 ↔ cmd.price ≠ 0 := not_congr (ρ.price_eq_zero cmd.price)
  rw [FlatBook.submitted, FlatBook.submitted, serve_relabels h]
  simp only [hprice, ρ.unit_mul_pos]
  split_ifs
  · exact (h.served cmd).rested (by simpa using hnext) cmd _
  · exact h.served cmd

theorem Relabels.withdrawn (h : Relabels ρ seq b c) (hseq : Function.Injective seq) (key : OrderKey) :
    Relabels ρ seq (withdrawn key b) (withdrawn (ρ.key key) c) := by
  rw [FlatBook.withdrawn, FlatBook.withdrawn, h.instances]
  cases hk : b.instances key with
  | none => exact h
  | some n =>
      have hothers : ∀ o, (ρ.order seq o).sequence ≠ seq n ↔ o.sequence ≠ n :=
        fun _ => not_congr hseq.eq_iff
      constructor
      · intro s
        cases s with
        | buy => exact (congrArg _ (h.orders .buy)).trans (ρ.filter_order seq hothers b.bids)
        | sell => exact (congrArg _ (h.orders .sell)).trans (ρ.filter_order seq hothers b.asks)
      · exact update_relabels h.instances key none

theorem bestChanges_relabels {published : Int → Int} {b' c' : PriorityBook} (h : Relabels ρ seq b c)
    (h' : Relabels ρ seq b' c') (hs : Scales published ρ.unit b) (hs' : Scales published ρ.unit b') :
    bestChanges published c c' = (bestChanges published b b').map (ρ.line seq) := by
  have htop {x y : PriorityBook} (hxy : Relabels ρ seq x y) (hx : Scales published ρ.unit x) :
      best published y.bids = ρ.top (best published x.bids) ∧
        best published y.asks = ρ.top (best published x.asks) := by
    have hbid : best published (x.bids.map (ρ.order seq)) = _ := best_order ρ seq (hx .buy)
    have hask : best published (x.asks.map (ρ.order seq)) = _ := best_order ρ seq (hx .sell)
    rw [← hbid, ← hask]
    exact ⟨congrArg _ (hxy.orders .buy), congrArg _ (hxy.orders .sell)⟩
  obtain ⟨hbid, hask⟩ := htop h hs
  obtain ⟨hbid', hask'⟩ := htop h' hs'
  rw [bestChanges, bestChanges, hbid, hask, hbid', hask', topChange_top ρ seq, topChange_top ρ seq,
    List.map_append]

theorem Relabels.afterCall (hseq : Function.Injective seq) (h : Relabels ρ seq b c)
    (hnext : c.nextSequence = seq b.nextSequence) (x : BookCall) :
    Relabels ρ seq (afterCall x b) (afterCall (ρ.call x) c) := by
  cases x with
  | processNewOrder cmd => exact h.submitted hnext cmd
  | processCancel cmd => exact h.withdrawn hseq cmd.key

theorem answer_relabels (hzero : seq 0 = 0) (h : Relabels ρ seq b c) (x : BookCall) :
    answer (ρ.call x) c = (answer x b).map (ρ.line seq) := by
  cases x with
  | processNewOrder cmd =>
      have hfills : (serve (ρ.command cmd) c).fills.map (fillLine (ρ.command cmd)) =
          ((serve cmd b).fills.map (fillLine cmd)).map (ρ.line seq) := by
        rw [serve_relabels h, List.map_map, List.map_map]
        exact List.map_congr_left fun f _ => fillLine_relabels hzero cmd f
      simp only [answer, Relabelling.call, List.map_cons, hfills]
      rfl
  | processCancel cmd => rfl

theorem call_relabels {published : Int → Int} (hzero : seq 0 = 0) (hseq : Function.Injective seq)
    (h : Relabels ρ seq b c) (hnext : c.nextSequence = seq b.nextSequence) {x : BookCall}
    (hs : Scales published ρ.unit b) (hs' : Scales published ρ.unit (afterCall x b)) :
    (flatCall published c (ρ.call x)).2 = (flatCall published b x).2.map (ρ.line seq) := by
  rw [flatCall, flatCall, List.map_append, ← bestChanges_relabels h (h.afterCall hseq hnext x) hs hs',
    ← answer_relabels hzero h]

theorem call_nextSequence (h : Relabels ρ seq b c) (hnext : c.nextSequence = seq b.nextSequence)
    (hsucc : seq (b.nextSequence + 1) = seq b.nextSequence + 1) (x : BookCall) :
    b.nextSequence ≤ (afterCall x b).nextSequence ∧
      (afterCall (ρ.call x) c).nextSequence = seq (afterCall x b).nextSequence := by
  cases x with
  | processNewOrder cmd =>
      have hprice : (ρ.command cmd).price ≠ 0 ↔ cmd.price ≠ 0 := not_congr (ρ.price_eq_zero cmd.price)
      simp only [afterCall, Relabelling.call, submitted_nextSequence, serve_relabels h, ρ.unit_mul_pos, hprice]
      split_ifs
      · exact ⟨Nat.le_succ _, by rw [hnext, hsucc]⟩
      · exact ⟨Nat.le_refl _, hnext⟩
  | processCancel cmd =>
      simp only [afterCall, Relabelling.call, withdrawn_nextSequence]
      exact ⟨Nat.le_refl _, hnext⟩

/-- A whole run on the book under other names: arrival numbers go on in step. -/
theorem run_relabels {published : Int → Int} (hzero : seq 0 = 0) (hseq : Function.Injective seq)
    (hpublished : ∀ q, published (ρ.unit * q) = ρ.unit * published q) (calls : List BookCall)
    (h : Relabels ρ seq b c) (hnext : c.nextSequence = seq b.nextSequence)
    (hsucc : ∀ n, b.nextSequence ≤ n → seq (n + 1) = seq n + 1) :
    output (flatCall published) c (calls.map ρ.call) =
      (output (flatCall published) b calls).map (ρ.line seq) := by
  induction calls generalizing b c with
  | nil => rfl
  | cons x calls ih =>
      have hlines := call_relabels hzero hseq h hnext (x := x) (fun _ _ => hpublished _) (fun _ _ => hpublished _)
      obtain ⟨hle, hnext'⟩ := call_nextSequence h hnext (hsucc _ (Nat.le_refl _)) x
      have hrest := ih (h.afterCall hseq hnext x) hnext' (fun n hn => hsucc n (Nat.le_trans hle hn))
      rw [List.map_cons, output_cons, output_cons, List.map_append, hlines]
      exact congrArg _ hrest

end Calls

section Markets

variable {ρ : Relabelling} {m m' : Market} {cmd : Command} {b c : PriorityBook}

structure Renamed (ρ : Relabelling) (m m' : Market) : Prop where
  book : ∀ x, Option.Rel (fun b c => Relabels ρ id b c ∧ c.nextSequence = b.nextSequence) (m x) (m' (ρ.symbol x))
  symbol : ∀ y, (m' y).isSome → ∃ x, ρ.symbol x = y

theorem Renamed.isSome_iff (h : Renamed ρ m m') (x : Text) : (m' (ρ.symbol x)).isSome ↔ (m x).isSome := by
  have hx := h.book x
  cases hm : m x with
  | none =>
      rw [hm] at hx
      cases hm' : m' (ρ.symbol x) with
      | none => rfl
      | some c => rw [hm'] at hx; cases hx
  | some b =>
      rw [hm] at hx
      cases hm' : m' (ρ.symbol x) with
      | none => rw [hm'] at hx; cases hx
      | some c => exact Iff.rfl

theorem relabels_empty : Relabels ρ id {} {} where
  orders s := by cases s <;> rfl
  instances _ := rfl

theorem Renamed.bookAt (h : Renamed ρ m m') (x : Text) : Relabels ρ id (bookAt m x) (bookAt m' (ρ.symbol x)) ∧
    (Exchange.bookAt m' (ρ.symbol x)).nextSequence = (Exchange.bookAt m x).nextSequence := by
  have hx := h.book x
  rw [Exchange.bookAt, Exchange.bookAt]
  cases hm : m x with
  | none =>
      cases hm' : m' (ρ.symbol x) with
      | none => exact ⟨relabels_empty, rfl⟩
      | some c => rw [hm, hm'] at hx; cases hx
  | some b =>
      cases hm' : m' (ρ.symbol x) with
      | none => rw [hm, hm'] at hx; cases hx
      | some c =>
          rw [hm, hm'] at hx
          cases hx with
          | some hbc => exact hbc

theorem rel_map {α β γ δ : Type} {r : α → β → Prop} {t : γ → δ → Prop} {f : α → γ} {g : β → δ} {x : Option α}
    {y : Option β} (h : Option.Rel r x y) (hmap : ∀ a b, r a b → t (f a) (g b)) :
    Option.Rel t (x.map f) (y.map g) := by
  cases h with
  | none => exact .none
  | some hab => exact .some (hmap _ _ hab)

theorem renamed_after (h : Relabels ρ id b c ∧ c.nextSequence = b.nextSequence) (x : BookCall) :
    Relabels ρ id (afterCall x b) (afterCall (ρ.call x) c) ∧
      (afterCall (ρ.call x) c).nextSequence = (afterCall x b).nextSequence :=
  ⟨h.1.afterCall Function.injective_id h.2 x, (call_nextSequence h.1 h.2 rfl x).2⟩

theorem Renamed.update (h : Renamed ρ m m') (x : Text) (hbc : Relabels ρ id b c ∧ c.nextSequence = b.nextSequence) :
    Renamed ρ (Function.update m x (some b)) (Function.update m' (ρ.symbol x) (some c)) := by
  constructor
  · intro y
    by_cases hy : y = x
    · rw [hy, Function.update_self, Function.update_self]
      exact .some hbc
    · rw [Function.update_of_ne hy, Function.update_of_ne (fun he => hy (ρ.symbol_injective he))]
      exact h.book y
  · intro y hsome
    by_cases hy : y = ρ.symbol x
    · exact ⟨x, hy.symm⟩
    · rw [Function.update_of_ne hy] at hsome
      exact h.symbol y hsome

theorem bookAt_update (m : Market) (x y : Text) (b : PriorityBook) :
    bookAt (Function.update m x (some b)) y = if y = x then b else bookAt m y := by
  rw [bookAt, bookAt]
  split_ifs with hy
  · rw [hy, Function.update_self, Option.getD_some]
  · rw [Function.update_of_ne hy]

theorem exchanges_renamed {m₁ : Market} {lines : List OutputLine} (h : Renamed ρ m m')
    (hx : Exchanges m cmd m₁ lines) (hs : ∀ x, Scales int64 ρ.unit (bookAt m x))
    (hs₁ : ∀ x, Scales int64 ρ.unit (bookAt m₁ x)) :
    ∃ m₁', Exchanges m' (ρ.command cmd) m₁' (lines.map (ρ.line id)) ∧ Renamed ρ m₁ m₁' := by
  cases hx with
  | newOrder ht =>
      have hbook := h.bookAt cmd.symbol
      have hnew := hs₁ cmd.symbol
      rw [bookAt_update, if_pos rfl] at hnew
      have hlines := call_relabels rfl Function.injective_id hbook.1 hbook.2 (hs cmd.symbol) hnew
      refine ⟨_, ?_, h.update cmd.symbol (renamed_after hbook (.processNewOrder cmd))⟩
      rw [← hlines]
      exact Exchanges.newOrder ht
  | cancel ht symbols hn hall =>
      have hlines : (symbols.flatMap (fun x => (flatCall int64 (bookAt m x) (.processCancel cmd)).2)).map
          (ρ.line id) = (symbols.map ρ.symbol).flatMap
            (fun y => (flatCall int64 (bookAt m' y) (.processCancel (ρ.command cmd))).2) := by
        rw [List.map_flatMap, List.flatMap_map]
        apply List.flatMap_congr
        intro x hxm
        obtain ⟨b, hb⟩ := Option.isSome_iff_exists.mp ((hall x).mp hxm)
        have hat : bookAt m x = b := by rw [bookAt, hb, Option.getD_some]
        have hnew := hs₁ x
        rw [bookAt, hb, Option.map_some, Option.getD_some, ← hat] at hnew
        have hbook := h.bookAt x
        exact (call_relabels rfl Function.injective_id hbook.1 hbook.2 (hs x) hnew).symm
      have htype : (ρ.command cmd).type = .cancel := ht
      rw [hlines]
      refine ⟨_, Exchanges.cancel htype _ (hn.map ρ.symbol_injective) (fun y => ?_), ?_, ?_⟩
      · constructor
        · intro hy
          obtain ⟨x, hx, rfl⟩ := List.mem_map.mp hy
          exact (h.isSome_iff x).mpr ((hall x).mp hx)
        · intro hy
          obtain ⟨x, rfl⟩ := h.symbol y hy
          exact List.mem_map_of_mem ((hall x).mpr ((h.isSome_iff x).mp hy))
      · exact fun x => rel_map (h.book x) fun _ _ hbc => renamed_after hbc (.processCancel cmd)
      · exact fun y hy => h.symbol y (by rwa [Option.isSome_map] at hy)
  | flush ht => exact ⟨_, Exchanges.flush ht, ⟨fun _ => .none, fun _ hs => by cases hs⟩⟩
  | invalid ht => exact ⟨_, Exchanges.invalid ht, h⟩

end Markets

section Range

variable {ρ : Relabelling} {m m₁ : Market} {cmd : Command} {cmds : List Command} {lines : List OutputLine}

def ordersFor (symbol : Text) (cmds : List Command) : List BookCall :=
  (cmds.filter (fun cmd => cmd.type = .newOrder ∧ cmd.symbol = symbol)).map .processNewOrder

theorem exposure_ordersFor (s : Side) (price : Int) (x : Text) (cmd : Command) (cmds : List Command) :
    exposure s price (ordersFor x (cmd :: cmds)) =
      (if cmd.type = .newOrder ∧ cmd.symbol = x then broughtTo s price (.processNewOrder cmd) else 0) +
        exposure s price (ordersFor x cmds) := by
  by_cases hc : cmd.type = .newOrder ∧ cmd.symbol = x
  · simp [ordersFor, exposure, hc]
  · simp [ordersFor, exposure, hc]

theorem exposure_nonneg (s : Side) (price : Int) (calls : List BookCall) : 0 ≤ exposure s price calls := by
  apply List.sum_nonneg
  intro n hn
  obtain ⟨x, -, rfl⟩ := List.mem_map.mp hn
  exact broughtTo_nonneg s price x

/-- The books of a market, and how much more than what rests in them `cmds` may bring: in the new unit
it is an `int64_t`, if the unit changes. -/
structure InRange (ρ : Relabelling) (m : Market) (cmds : List Command) : Prop where
  books : ∀ x, ∃ r, BookInvariant r ∧ bookAt m x = flatten r
  range : ρ.unit = 1 ∨ ∀ x s price, ρ.unit * (quantityAt (ordersOf (bookAt m x) s) price +
    exposure s price (ordersFor x cmds)) ≤ Int64.maxValue.toInt

theorem quantityAt_flatten {r : ReferenceBook} (h : BookInvariant r) (s : Side) (price : Int) :
    0 ≤ quantityAt (ordersOf (flatten r) s) price := by
  apply List.sum_nonneg
  intro q hq
  obtain ⟨o, ho, rfl⟩ := List.mem_map.mp hq
  rw [ordersOf_flatten] at ho
  exact ((h.side s).positive o (List.mem_of_mem_filter ho)).le

theorem InRange.scales (h : InRange ρ m cmds) (x : Text) : Scales int64 ρ.unit (bookAt m x) := by
  intro s price
  rcases h.range with hu | hle
  · rw [hu, one_mul, one_mul]
  · obtain ⟨r, hr, hx⟩ := h.books x
    have hq := quantityAt_flatten hr s price
    have hexposure := exposure_nonneg s price (ordersFor x cmds)
    have hsum := hle x s price
    rw [← hx] at hq
    rw [mul_add] at hsum
    have hunit := ρ.unit_pos
    have hbrought := mul_nonneg hunit.le hexposure
    have hone := le_mul_of_one_le_left hq (show 1 ≤ ρ.unit from hunit)
    rw [int64_eq (mul_nonneg hunit.le hq) (by omega), int64_eq hq (by omega)]

theorem afterCall_quantityAt {r : ReferenceBook} (h : BookInvariant r) (x : BookCall) :
    ∃ r', BookInvariant r' ∧ afterCall x (flatten r) = flatten r' ∧
      ∀ s price, quantityAt (ordersOf (flatten r') s) price ≤
        quantityAt (ordersOf (flatten r) s) price + broughtTo s price x := by
  refine ⟨(refCall r x).1, refCall_invariant r x h, congrArg Prod.fst (call_flat h x), fun s price => ?_⟩
  rw [ordersOf_flatten, ordersOf_flatten]
  exact quantityAt_call h.toCoreInvariant x s price

theorem book_exchanges {m : Market} (hbooks : ∀ x, ∃ r, BookInvariant r ∧ bookAt m x = flatten r)
    (hx : Exchanges m cmd m₁ lines) (x : Text) : ∃ r, BookInvariant r ∧ bookAt m₁ x = flatten r ∧
      ∀ s price, quantityAt (ordersOf (bookAt m₁ x) s) price ≤ quantityAt (ordersOf (bookAt m x) s) price +
        if cmd.type = .newOrder ∧ cmd.symbol = x then broughtTo s price (.processNewOrder cmd) else 0 := by
  obtain ⟨r, hr, hbook⟩ := hbooks x
  cases hx with
  | newOrder ht =>
      by_cases hs : x = cmd.symbol
      · obtain ⟨r', hr', hafter, hle⟩ := afterCall_quantityAt hr (.processNewOrder cmd)
        have hnew : bookAt (Function.update m cmd.symbol
            (some (flatCall int64 (bookAt m cmd.symbol) (.processNewOrder cmd)).1)) x = flatten r' := by
          rw [bookAt_update, if_pos hs, ← hs, hbook]
          exact hafter
        refine ⟨r', hr', hnew, fun s price => ?_⟩
        rw [hnew, hbook, if_pos ⟨ht, hs.symm⟩]
        exact hle s price
      · rw [bookAt_update, if_neg hs]
        refine ⟨r, hr, hbook, fun s price => ?_⟩
        rw [if_neg fun hc => hs hc.2.symm, add_zero]
  | cancel ht symbols hn hall =>
      have hnone : ¬ (cmd.type = .newOrder ∧ cmd.symbol = x) := fun hc => by simp [ht] at hc
      simp only [if_neg hnone, add_zero]
      cases hm : m x with
      | none =>
          have hsame : bookAt (fun x => (m x).map fun b => (flatCall int64 b (.processCancel cmd)).1) x =
              bookAt m x := by
            rw [bookAt, bookAt, hm, Option.map_none]
          rw [hsame]
          exact ⟨r, hr, hbook, fun _ _ => le_rfl⟩
      | some b =>
          obtain ⟨r', hr', hafter, hle⟩ := afterCall_quantityAt hr (.processCancel cmd)
          have hb : b = flatten r := by rw [← hbook, bookAt, hm, Option.getD_some]
          have hnew : bookAt (fun x => (m x).map fun b => (flatCall int64 b (.processCancel cmd)).1) x =
              flatten r' := by
            rw [bookAt, hm, Option.map_some, Option.getD_some, hb]
            exact hafter
          refine ⟨r', hr', hnew, fun s price => ?_⟩
          rw [hnew, hbook]
          exact (hle s price).trans (add_zero _).le
  | flush ht =>
      refine ⟨deref {}, represents_empty.book, rfl, fun s price => ?_⟩
      have hnone : ¬ (cmd.type = .newOrder ∧ cmd.symbol = x) := fun hc => by simp [ht] at hc
      rw [if_neg hnone, add_zero, hbook]
      have hempty : quantityAt (ordersOf (bookAt (fun _ => none) x) s) price = 0 := by cases s <;> rfl
      rw [hempty]
      exact quantityAt_flatten hr s price
  | invalid ht =>
      refine ⟨r, hr, hbook, fun s price => ?_⟩
      rw [if_neg fun hc => by simp [ht] at hc, add_zero]

theorem InRange.exchanges (h : InRange ρ m (cmd :: cmds)) (hx : Exchanges m cmd m₁ lines) :
    InRange ρ m₁ cmds := by
  constructor
  · intro x
    obtain ⟨r, hr, hbook, -⟩ := book_exchanges h.books hx x
    exact ⟨r, hr, hbook⟩
  · refine h.range.imp_right fun hle x s price => ?_
    obtain ⟨-, -, -, hquantity⟩ := book_exchanges h.books hx x
    have hstep := hquantity s price
    have hsum := hle x s price
    rw [exposure_ordersFor] at hsum
    refine le_trans (mul_le_mul_of_nonneg_left ?_ ρ.unit_pos.le) hsum
    omega

theorem session_renamed {m' : Market} (h : Renamed ρ m m') (hrange : InRange ρ m cmds)
    (hs : Session m cmds m₁ lines) :
    ∃ m₁', Session m' (cmds.map ρ.command) m₁' (lines.map (ρ.line id)) ∧ Renamed ρ m₁ m₁' := by
  induction hs generalizing m' with
  | nil m => exact ⟨m', Session.nil m', h⟩
  | cons hx _ ih =>
      have hnext := hrange.exchanges hx
      obtain ⟨m₁', hx', h₁⟩ := exchanges_renamed h hx hrange.scales hnext.scales
      obtain ⟨m₂', hs', h₂⟩ := ih h₁ hnext
      rw [List.map_append]
      exact ⟨m₂', Session.cons hx' hs', h₂⟩

end Range

/-- Users, order ids and symbols are names to the engine, prices are positions and quantities are
amounts of a unit: it says the same about other names, and in other units as long as the positive
quantities that come to a price of a symbol add up to an `int64_t`. -/
theorem engine_neutral (ρ : Relabelling) (v : Nat → VisitOrder) (cmds : List Command)
    (h : ρ.unit = 1 ∨ ∀ symbol s price,
      ρ.unit * exposure s price (ordersFor symbol cmds) ≤ Int64.maxValue.toInt) :
    ∃ w, output (engineStep64 w) engineStart (cmds.map ρ.command) =
      (output (engineStep64 v) engineStart cmds).map (ρ.line id) := by
  have hempty : Renamed ρ (fun _ => none) (fun _ => none) := ⟨fun _ => .none, fun _ hs => by cases hs⟩
  have hrange : InRange ρ (fun _ => none) cmds := by
    constructor
    · exact fun _ => ⟨deref {}, represents_empty.book, rfl⟩
    · refine h.imp_right fun hle x s price => ?_
      have hnothing : quantityAt (ordersOf (bookAt (fun _ => none) x) s) price = 0 := by cases s <;> rfl
      rw [hnothing, zero_add]
      exact hle x s price
  obtain ⟨m, hs, -⟩ := session_renamed hempty hrange (run_session v 0 narrowSound_empty)
  obtain ⟨w, -, hw⟩ := session_run 0 narrowSound_empty hs
  exact ⟨w, hw⟩

def dozens : Relabelling where
  user u := -u
  orderId _ i := i + 100
  symbol x := 'Z' :: x
  price p := 2 * p
  unit := 12
  user_injective := neg_injective
  orderId_injective _ := add_left_injective 100
  symbol_injective := List.cons_injective
  price_lt h := by omega
  price_zero := rfl
  unit_pos := by decide

theorem engine_neutral_dozens :
    let cmds := [newOrderCommand ['X'] .buy 1 1 10 5, newOrderCommand ['X'] .sell 2 2 10 3]
    ∃ w, output (engineStep64 w) engineStart (cmds.map dozens.command) =
      (output (engineStep64 fun _ => default) engineStart cmds).map (dozens.line id) := by
  intro cmds
  apply engine_neutral
  right
  intro symbol s price
  simp only [cmds, exposure_ordersFor, newOrderCommand, broughtTo, dozens, true_and]
  change 12 * (_ + (_ + 0)) ≤ (9223372036854775807 : Int)
  split_ifs <;> decide

end Orderbook.Neutrality

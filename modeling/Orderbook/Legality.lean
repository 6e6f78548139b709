import Orderbook.Ledger
import Orderbook.Priority

namespace Orderbook.Legality

open Domain Ladder Matching Book Reference ReferenceWalk ReferenceInvariant Slots SlotReuse Observations
  Priority Ledger Library.QueueFill Library.Runs

def party : Side → Order → Order → Order
  | .buy, buy, _ => buy
  | .sell, _, sell => sell

def AtLimit : Side → Int → Int → Prop
  | .buy, price, limit => price ≤ limit
  | .sell, price, limit => limit ≤ price

/-- The resting order `o` came to the book in one of the calls, as that call submitted it. -/
def Submitted (calls : List BookCall) (o : Order) : Prop :=
  ∃ pre c post, calls = pre ++ .processNewOrder c :: post ∧ comesToRest c (bookAfter pre) ∧
    o.sequence = (bookAfter pre).nextSequence ∧ SubmittedBy c o

/-- A trade that `cmd` makes after `calls`; `before` are the lines of the command before it.
The resting party is told by its arrival, since keys may be reused. -/
structure Legal (calls : List BookCall) (cmd : Command) (before : List OutputLine) (buy sell : Order)
    (tradePrice tradeQty : Int) : Prop where
  users : buy.userId ≠ sell.userId
  positive : 0 < tradeQty
  incoming : (party cmd.side buy sell).key = cmd.key
  incoming_left : tradeQty ≤ cmd.quantity - tradeVolume before
  limit : cmd.price ≠ 0 → AtLimit cmd.side tradePrice cmd.price
  resting : ∃ o ∈ restingOrders (bookAfter calls) cmd.side.opposite,
    o.side = cmd.side.opposite ∧ Submitted calls o ∧
      (party cmd.side.opposite buy sell).sequence = o.sequence ∧
      (party cmd.side.opposite buy sell).key = o.key ∧ tradePrice = o.price ∧
      tradeQty ≤ o.quantity - restingVolume o.sequence before

def TradesLegal (calls : List BookCall) (cmd : Command) : Prop :=
  ∀ before buy sell tradePrice tradeQty after,
    (processNewOrder cmd (bookAfter calls)).2 = before ++ .trade buy sell tradePrice tradeQty :: after →
      Legal calls cmd before buy sell tradePrice tradeQty

theorem submitted_after (calls : List BookCall) :
    ∀ o ∈ allOrders (deref (bookAfter calls)), Submitted calls o := by
  induction calls using List.reverseRecOn with
  | nil => exact fun _ h => by cases h
  | append_singleton calls c ih =>
      intro o ho
      have h := represents_after calls
      have hread : (refCall (deref (bookAfter calls)) c).1 = deref (call (bookAfter calls) c).1 :=
        congrArg Prod.fst (call_reads h c)
      rw [bookAfter, final_concat] at ho
      change o ∈ allOrders (deref (call (bookAfter calls) c).1) at ho
      rw [← hread] at ho
      rcases refCall_origin h.book.toCoreInvariant c ho with ⟨p, hp, he⟩ | ⟨cmd, rfl, hr, hs, hsub⟩
      · obtain ⟨pre, d, post, hcalls, hrest, hseq, hsub⟩ := ih p hp
        rw [he]
        exact ⟨pre, d, post ++ [c], by simp [hcalls], hrest, hseq, hsub⟩
      · exact ⟨calls, cmd, [], rfl, (comesToRest_iff h cmd).mpr hr, hs, hsub⟩

section Fills

variable {s : Side} {next : Nat} {levels : List (PriceLevel Order)} {within : Int → Bool} {user q : Int}
  {pre post : List (Fill Order)} {f : Fill Order}

theorem walk_fill (h : SideInvariant s next levels) (hn : ((resting levels).map Order.sequence).Nodup)
    (hf : (walkLevels within user q levels).fills = pre ++ f :: post) :
    ∃ o ∈ resting levels, o.side = s ∧ o.userId ≠ user ∧ within o.price = true ∧
      f.item = { o with quantity := o.quantity - f.taken } ∧ 0 < f.taken ∧ f.taken ≤ o.quantity ∧
      f.taken ≤ q - takenSum pre ∧ ∀ g ∈ pre, g.item.sequence ≠ o.sequence := by
  have hlabels := walk_labels_nodup within user q hn
  rw [hf, List.map_append, List.map_cons, List.nodup_append] at hlabels
  rw [(walkLevels_flattens within user q levels).fills] at hf
  have hpos : ∀ o ∈ resting (reach within user levels), 0 < o.quantity :=
    fun o ho => h.positive o (mem_reach_resting within user ho)
  obtain ⟨o, ho, hs, hi, htaken, hle⟩ := fills_bounds (orderRule user) hpos f
    (hf ▸ List.mem_append_right pre List.mem_cons_self)
  obtain ⟨level, hl, hw, hol⟩ := reach_within within user ho
  have hm := mem_reach_resting within user ho
  refine ⟨o, hm, h.side_eq o hm, by simpa using hs, ?_, hi, htaken, hle, ?_, ?_⟩
  · rwa [(h.level level hl).price_eq o hol]
  · exact taken_le (orderRule user) hpos hf
  · intro g hg he
    apply hlabels.2.2 _ (List.mem_map_of_mem hg) _ List.mem_cons_self
    rw [he, hi]
    rfl

end Fills

section Lines

variable {cmd : Command} {b : SymbolOrderbook} {before after : List OutputLine} {buy sell : Order}
  {tradePrice tradeQty : Int}

theorem topChanges_no_trade (r new : ReferenceBook) :
    .trade buy sell tradePrice tradeQty ∉ topChanges r new := by
  intro h
  obtain ⟨s, hs⟩ := mem_topChanges h
  cases hs

theorem trade_fill (h : Represents b)
    (hl : (processNewOrder cmd b).2 = before ++ .trade buy sell tradePrice tradeQty :: after) :
    ∃ pre f post, (walk cmd (deref b)).fills = pre ++ f :: post ∧
      before = .ack cmd.userId cmd.userOrderId :: pre.map (fillLine cmd) ∧
      fillLine cmd f = .trade buy sell tradePrice tradeQty := by
  rw [newOrder_lines h, refNewOrder] at hl
  cases before with
  | nil => cases (List.cons.inj hl).1
  | cons ack before =>
      obtain ⟨rfl, htail⟩ := List.cons.inj hl
      have htops : .trade buy sell tradePrice tradeQty ∉ topChanges (deref b) (matched cmd (deref b)) :=
        topChanges_no_trade _ _
      -- the fills come before the tops, and no top is a trade
      rcases List.append_eq_append_iff.mp htail with ⟨rest, hb, ht⟩ | ⟨rest, hb, ht⟩
      · exact absurd (ht ▸ List.mem_append_right _ List.mem_cons_self) htops
      · cases rest with
        | nil =>
            rw [List.nil_append] at ht
            exact absurd (ht ▸ List.mem_cons_self) htops
        | cons line rest =>
            obtain ⟨rfl, -⟩ := List.cons.inj ht
            obtain ⟨pre, back, hfills, rfl, hback⟩ := List.map_eq_append_iff.mp hb
            obtain ⟨f, post, rfl, hf, -⟩ := List.map_eq_cons_iff.mp hback
            exact ⟨pre, f, post, hfills, rfl, hf⟩

theorem tradeVolume_before (cmd : Command) (pre : List (Fill Order)) :
    tradeVolume (.ack cmd.userId cmd.userOrderId :: pre.map (fillLine cmd)) = takenSum pre := by
  have hfills := tradeVolume_fills cmd.side (makeIncomingOrder cmd) pre
  rw [← hfills]
  simp [tradeVolume, tradeQuantity, fillLine, Function.comp_def]

theorem restingVolume_before {n : Nat} (hn : 0 < n) (cmd : Command) {pre : List (Fill Order)}
    (h : ∀ g ∈ pre, g.item.sequence ≠ n) :
    restingVolume n (.ack cmd.userId cmd.userOrderId :: pre.map (fillLine cmd)) = 0 := by
  have hfills := restingVolume_fills hn cmd pre
  rw [List.filter_eq_nil_iff.mpr (fun g hg => by simpa using h g hg), takenSum_nil] at hfills
  rw [restingVolume] at hfills
  rw [restingVolume, List.map_cons, List.sum_cons, hfills]
  rfl

theorem fillLine_parties {f : Fill Order} (h : fillLine cmd f = .trade buy sell tradePrice tradeQty) :
    party cmd.side buy sell = makeIncomingOrder cmd ∧ party cmd.side.opposite buy sell = f.item ∧
      tradePrice = f.item.price ∧ tradeQty = f.taken := by
  rw [fillLine] at h
  cases hs : cmd.side with
  | buy =>
      rw [hs] at h
      cases h
      exact ⟨rfl, rfl, rfl, rfl⟩
  | sell =>
      rw [hs] at h
      cases h
      exact ⟨rfl, rfl, rfl, rfl⟩

end Lines

theorem atLimit_of_within {cmd : Command} {price : Int} (h : within cmd.side cmd price = true)
    (hp : cmd.price ≠ 0) : AtLimit cmd.side price cmd.price := by
  simp only [within, hp, decide_false, Bool.false_or, Bool.not_eq_true'] at h
  cases hs : cmd.side with
  | buy =>
      simp only [hs, exceedsLimit, decide_eq_false_iff_not, Int.not_lt] at h
      exact h
  | sell =>
      simp only [hs, exceedsLimit, decide_eq_false_iff_not, Int.not_lt] at h
      exact h

theorem users_of_parties {s : Side} {buy sell : Order}
    (h : (party s buy sell).userId ≠ (party s.opposite buy sell).userId) : buy.userId ≠ sell.userId := by
  cases s with
  | buy => exact h
  | sell => exact h.symm

theorem sequence_pos {calls : List BookCall} {o : Order} (h : Submitted calls o) : 0 < o.sequence := by
  obtain ⟨pre, _, _, _, _, hs, _⟩ := h
  rw [hs]
  exact nextSequence_pos pre

/-- Every trade that any new order makes on any reachable book is legal. -/
theorem trades_legal (calls : List BookCall) (cmd : Command) : TradesLegal calls cmd := by
  intro before buy sell tradePrice tradeQty after hl
  have h := represents_after calls
  obtain ⟨pre, f, post, hfills, rfl, hline⟩ := trade_fill h hl
  obtain ⟨hin, hrest, rfl, rfl⟩ := fillLine_parties hline
  obtain ⟨o, ho, hside, huser, hwithin, hitem, hpos, hle, hleft, hfresh⟩ :=
    walk_fill (h.book.side cmd.side.opposite) (h.book.side_nodup cmd.side.opposite) hfills
  have hsub : Submitted calls o :=
    submitted_after calls o ((mem_allOrders cmd.side.opposite).mpr (Or.inl ho))
  constructor
  · apply users_of_parties (s := cmd.side)
    rw [hin, hrest, hitem]
    exact huser.symm
  · exact hpos
  · rw [hin]
    rfl
  · rwa [tradeVolume_before]
  · intro hp
    rw [hitem]
    exact atLimit_of_within hwithin hp
  · refine ⟨o, (restingOrders_eq _ _).symm ▸ ho, hside, hsub, ?_, ?_, ?_, ?_⟩
    · rw [hrest, hitem]
    · rw [hrest, hitem]
      rfl
    · rw [hitem]
    · rw [restingVolume_before (sequence_pos hsub) cmd hfresh]
      omega

end Orderbook.Legality

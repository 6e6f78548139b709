import Orderbook.FlatBook
import Orderbook.Legality
import Orderbook.Library.GreedyFill

namespace Orderbook.BestExecution

open Domain Matching Book Reference ReferenceInvariant SlotReuse Slots Observations FlatBook
  Library.QueueFill Library.GreedyFill

/-- Some other way to trade `cmd` against `orders`: how much with each of them. It is bound by what
binds the engine, too: no own orders, no price outside the limit, nothing behind an own level. -/
structure Allocation (cmd : Command) (orders : List Order) where
  amount : Order → Int
  nonneg : ∀ o ∈ orders, 0 ≤ amount o
  le : ∀ o ∈ orders, amount o ≤ o.quantity
  admitted : ∀ o ∈ orders, amount o ≠ 0 → o.userId ≠ cmd.userId ∧
    Reachable cmd.side.opposite (within cmd.side cmd) cmd.userId orders o

def Allocation.volume {cmd : Command} {orders : List Order} (a : Allocation cmd orders) : Int :=
  (orders.map a.amount).sum

def Allocation.value {cmd : Command} {orders : List Order} (a : Allocation cmd orders) : Int :=
  (orders.map (fun o => o.price * a.amount o)).sum

def lineValue : OutputLine → Int
  | .trade _ _ tradePrice tradeQty => tradePrice * tradeQty
  | _ => 0

def tradeValue (lines : List OutputLine) : Int := (lines.map lineValue).sum

/-- `v` is at least as good as `w` for an order of side `s`: less to pay or more to get. -/
def AtLeastAsGood : Side → Int → Int → Prop
  | .buy, v, w => v ≤ w
  | .sell, v, w => w ≤ v

def rank (s : Side) (o : Order) : Int :=
  match s with
  | .buy => o.price
  | .sell => -o.price

theorem rank_le {s : Side} {o p : Order} (h : Priority.Prior s.opposite o p) : rank s o ≤ rank s p := by
  cases s with
  | buy =>
      simp only [Priority.Prior, Side.opposite, Side.ahead, rank] at h ⊢
      omega
  | sell =>
      simp only [Priority.Prior, Side.opposite, Side.ahead, rank] at h ⊢
      omega

section Values

theorem tradeValue_refNewOrder (cmd : Command) (r : ReferenceBook) :
    tradeValue (refNewOrder cmd r).2 = ((walk cmd r).fills.map (fun f => f.item.price * f.taken)).sum := by
  have hfills (fs : List (Fill Order)) : tradeValue (fs.map (fillLine cmd)) =
      (fs.map (fun f => f.item.price * f.taken)).sum := by
    rw [tradeValue, List.map_map]
    congr 1
    apply List.map_congr_left
    intro f _
    cases hs : cmd.side with
    | buy => simp [fillLine, hs, emitFill, emitTrade, lineValue]
    | sell => simp [fillLine, hs, emitFill, emitTrade, lineValue]
  have htop (s : Side) (old new : TopOfBook) : tradeValue (topChange s old new) = 0 := by
    rcases topChange_cases s old new with h | h <;> rw [h] <;> rfl
  rw [← hfills, refNewOrder, topChanges]
  simp only [tradeValue, List.map_cons, List.map_append, List.sum_cons, List.sum_append] at htop ⊢
  rw [htop, htop]
  simp [lineValue]

end Values

section Execution

variable {cmd : Command} {orders : List Order}

def eligible (cmd : Command) (orders : List Order) : List Order :=
  reachable cmd.side.opposite (within cmd.side cmd) cmd.userId orders

theorem mem_eligible {o : Order} : o ∈ eligible cmd orders ↔
    o ∈ orders ∧ Reachable cmd.side.opposite (within cmd.side cmd) cmd.userId orders o := by
  simp [eligible, reachable]

theorem Allocation.allots (a : Allocation cmd orders) :
    ∀ o ∈ eligible cmd orders, Allots (orderRule cmd.userId) a.amount o := by
  intro o ho
  have hm := (mem_eligible.mp ho).1
  refine ⟨a.nonneg o hm, a.le o hm, fun hs => ?_⟩
  by_contra hne
  exact (a.admitted o hm hne).1 (by simpa using hs)

theorem sum_eligible {f : Order → Int} (h : ∀ o ∈ orders, f o ≠ 0 →
    Reachable cmd.side.opposite (within cmd.side cmd) cmd.userId orders o) :
    ((eligible cmd orders).map f).sum = (orders.map f).sum :=
  sum_map_filter_of_zero _ fun o ho hn => by_contra fun hf => hn (h o ho hf)

theorem Allocation.volume_eq (a : Allocation cmd orders) :
    allotted a.amount (eligible cmd orders) = a.volume :=
  sum_eligible fun o ho hne => (a.admitted o ho hne).2

theorem Allocation.value_eq (a : Allocation cmd orders) :
    cost Order.price a.amount (eligible cmd orders) = a.value :=
  sum_eligible fun o ho hne => (a.admitted o ho (right_ne_zero_of_mul hne)).2

def Allocation.ofEligible (x : Order → Int) (hx : ∀ o ∈ eligible cmd orders, Allots (orderRule cmd.userId) x o)
    (hpos : ∀ o ∈ orders, 0 ≤ o.quantity) : Allocation cmd orders where
  amount o := if Reachable cmd.side.opposite (within cmd.side cmd) cmd.userId orders o then x o else 0
  nonneg o ho := by
    split_ifs with hr
    · exact (hx o (mem_eligible.mpr ⟨ho, hr⟩)).nonneg
    · exact le_rfl
  le o ho := by
    split_ifs with hr
    · exact (hx o (mem_eligible.mpr ⟨ho, hr⟩)).le
    · exact hpos o ho
  admitted o ho hne := by
    split_ifs at hne with hr
    · exact ⟨fun hu => hne ((hx o (mem_eligible.mpr ⟨ho, hr⟩)).skipped (by simpa using hu)), hr⟩
    · exact absurd rfl hne

theorem Allocation.ofEligible_sums {x : Order → Int}
    (hx : ∀ o ∈ eligible cmd orders, Allots (orderRule cmd.userId) x o) (hpos : ∀ o ∈ orders, 0 ≤ o.quantity) :
    (ofEligible x hx hpos).volume = allotted x (eligible cmd orders) ∧
      (ofEligible x hx hpos).value = cost Order.price x (eligible cmd orders) := by
  have hamount : ∀ o ∈ eligible cmd orders, (ofEligible x hx hpos).amount o = x o :=
    fun o ho => if_pos (mem_eligible.mp ho).2
  rw [← volume_eq, ← value_eq, allotted, cost, allotted, cost]
  constructor
  · exact congrArg _ (List.map_congr_left hamount)
  · exact congrArg _ (List.map_congr_left fun o ho => by rw [hamount o ho])

end Execution

section Engine

variable (calls : List BookCall) (cmd : Command)

theorem fills_eligible : (walk cmd (deref (bookAfter calls))).fills =
    (fill (orderRule cmd.userId) cmd.quantity
      (eligible cmd (restingOrders (bookAfter calls) cmd.side.opposite))).fills := by
  have hfills := (walk_flat (represents_after calls).book.toCoreInvariant cmd).1
  rw [serve, ordersOf_flatten, ← restingOrders_eq] at hfills
  exact hfills

theorem eligible_sorted : (eligible cmd (restingOrders (bookAfter calls) cmd.side.opposite)).Pairwise
    (Priority.Prior cmd.side.opposite) := by
  have hsorted := Priority.resting_pairwise ((represents_after calls).book.side cmd.side.opposite)
  rw [← restingOrders_eq] at hsorted
  exact hsorted.filter _

theorem restingOrders_numbered :
    ((restingOrders (bookAfter calls) cmd.side.opposite).map Order.sequence).Nodup ∧
      ∀ o ∈ restingOrders (bookAfter calls) cmd.side.opposite, 0 < o.sequence := by
  rw [restingOrders_eq]
  refine ⟨(represents_after calls).book.side_nodup _, fun o ho => ?_⟩
  have hmem := (mem_allOrders cmd.side.opposite).mpr (Or.inl ho)
  exact Legality.sequence_pos (Legality.submitted_after calls o hmem)

/-- What the lines say of an order is what the fills of the eligible orders take of it. -/
theorem restingVolume_eligible {o : Order} (ho : o ∈ restingOrders (bookAfter calls) cmd.side.opposite) :
    Ledger.restingVolume o.sequence (processNewOrder cmd (bookAfter calls)).2 =
      takenOf Order.sequence (fill (orderRule cmd.userId) cmd.quantity
        (eligible cmd (restingOrders (bookAfter calls) cmd.side.opposite))).fills o := by
  rw [newOrder_lines (represents_after calls),
    Ledger.restingVolume_refNewOrder ((restingOrders_numbered calls cmd).2 o ho), fills_eligible]
  rfl

theorem takenOf_ineligible {orders : List Order} (hn : (orders.map Order.sequence).Nodup) {q : Int} {o : Order}
    (ho : o ∈ orders) (hout : o ∉ eligible cmd orders) :
    takenOf Order.sequence (fill (orderRule cmd.userId) q (eligible cmd orders)).fills o = 0 := by
  have hnone : (fill (orderRule cmd.userId) q (eligible cmd orders)).fills.filter
      (fun f => f.item.sequence = o.sequence) = [] := by
    rw [List.filter_eq_nil_iff]
    intro f hf he
    have hlabels := fills_labels (orderRule cmd.userId) Order.sequence (fun _ _ => rfl) q (eligible cmd orders)
    have hmem := hlabels.subset (List.mem_map_of_mem (f := fun f => f.item.sequence) hf)
    obtain ⟨p, hp, hpf⟩ := List.mem_map.mp hmem
    have hsame := List.inj_on_of_nodup_map hn (mem_eligible.mp hp).1 ho (hpf.trans (of_decide_eq_true he))
    exact hout (hsame ▸ hp)
  rw [takenOf, hnone]
  rfl

end Engine

/-- No way to trade the order against the same book, bound by the same rules, trades more than the
engine does, and none that trades as much has a better price. The engine's is one of them, to each
resting order what the lines say of it. -/
theorem best_execution (calls : List BookCall) (cmd : Command) :
    (∃ a : Allocation cmd (restingOrders (bookAfter calls) cmd.side.opposite),
      (∀ o ∈ restingOrders (bookAfter calls) cmd.side.opposite,
        a.amount o = Ledger.restingVolume o.sequence (processNewOrder cmd (bookAfter calls)).2) ∧
        a.volume = tradeVolume (processNewOrder cmd (bookAfter calls)).2 ∧
        a.value = tradeValue (processNewOrder cmd (bookAfter calls)).2) ∧
    ∀ a : Allocation cmd (restingOrders (bookAfter calls) cmd.side.opposite),
      (a.volume ≤ cmd.quantity → a.volume ≤ tradeVolume (processNewOrder cmd (bookAfter calls)).2) ∧
        (a.volume = tradeVolume (processNewOrder cmd (bookAfter calls)).2 →
          AtLeastAsGood cmd.side (tradeValue (processNewOrder cmd (bookAfter calls)).2) a.value) := by
  have hpos := restingOrders_positive calls cmd.side.opposite
  have hamount : ∀ o ∈ eligible cmd (restingOrders (bookAfter calls) cmd.side.opposite), 0 < o.quantity :=
    fun o ho => hpos o (mem_eligible.mp ho).1
  have hsorted := eligible_sorted calls cmd
  obtain ⟨hn, -⟩ := restingOrders_numbered calls cmd
  have hvolume (o : Order) := restingVolume_eligible (o := o) calls cmd
  rw [newOrder_lines (represents_after calls)] at hvolume ⊢
  rw [Ledger.tradeVolume_refNewOrder, tradeValue_refNewOrder, fills_eligible]
  generalize restingOrders (bookAfter calls) cmd.side.opposite = orders at *
  constructor
  · have hprice : ∀ o t, ((orderRule cmd.userId).reduce o t).price = o.price := fun _ _ => rfl
    have hne : ((eligible cmd orders).map Order.sequence).Nodup := hn.sublist (List.filter_sublist.map _)
    obtain ⟨hx, hsum, hcost⟩ :=
      fill_allots (fun _ _ => rfl) hprice cmd.quantity (eligible cmd orders) hne hamount
    obtain ⟨hv, hw⟩ := Allocation.ofEligible_sums hx (fun o ho => (hpos o ho).le)
    refine ⟨Allocation.ofEligible _ hx _, fun o ho => ?_, hv.trans hsum, hw.trans hcost⟩
    rw [hvolume o ho, Allocation.ofEligible]
    dsimp only
    split_ifs with hr
    · rfl
    · exact (takenOf_ineligible cmd hn ho fun he => hr (mem_eligible.mp he).2).symm
  · intro a
    rw [← a.volume_eq, ← a.value_eq]
    refine ⟨allotted_le_fill a.allots (fun o ho => (hamount o ho).le), fun hsame => ?_⟩
    have hrank : ∀ o t, rank cmd.side ((orderRule cmd.userId).reduce o t) = rank cmd.side o :=
      fun _ _ => by cases cmd.side <;> rfl
    have hcheapest := fill_cheapest hrank (hsorted.imp rank_le) a.allots hsame
    cases hs : cmd.side with
    | buy =>
        rw [hs] at hcheapest
        exact hcheapest
    | sell =>
        rw [hs] at hcheapest
        change fillCost (fun o : Order => -o.price) _ ≤ cost (fun o : Order => -o.price) _ _ at hcheapest
        rw [fillCost_neg, cost_neg] at hcheapest
        exact neg_le_neg_iff.mp hcheapest

end Orderbook.BestExecution

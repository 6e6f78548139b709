import Orderbook.HashOrder

namespace Orderbook.CancelFrame

open Domain SlotPool Ladder Book Slots SlotCancel SlotReuse Orderbook.Representation HashOrder

def AtBest (b : SymbolOrderbook) (it : OrderIterator) : Prop :=
  ((levels b (orderAt b it).side).head?).map PriceLevel.price = some (orderAt b it).price

instance (b : SymbolOrderbook) (it : OrderIterator) : Decidable (AtBest b it) :=
  inferInstanceAs (Decidable (_ = _))

/-- `ls'` is the ladder `ls` without the entry `it`, which had the quantity `qty`. -/
def LosesEntry (it : OrderIterator) (qty : Int) (ls ls' : List (PriceLevel OrderIterator)) : Prop :=
  ∃ pre level post xs ys, ls = pre ++ level :: post ∧ level.orders = xs ++ it :: ys ∧
    ls' =
      if xs ++ ys = [] then pre ++ post
      else pre ++ ⟨level.price, level.totalQuantity - qty, xs ++ ys⟩ :: post

/-- What a cancel does to the book and to the output when its key names the slot `it`. -/
structure Removes (cmd : Command) (it : OrderIterator) (b b' : SymbolOrderbook)
    (lines : List OutputLine) : Prop where
  key_eq : (orderAt b it).key = cmd.key
  one_order : (it :: used b').Perm (used b)
  own_side : LosesEntry it (orderAt b it).quantity (levels b (orderAt b it).side)
    (levels b' (orderAt b it).side)
  opposite_side : levels b' (orderAt b it).side.opposite = levels b (orderAt b it).side.opposite
  other_orders : ∀ jt ∈ used b', orderAt b' jt = orderAt b jt
  forgotten : b'.ordersByKey cmd.key = none
  other_keys : ∀ key, key ≠ cmd.key → b'.ordersByKey key = b.ordersByKey key
  lines_eq : lines = .cancelAck cmd.userId cmd.userOrderId ::
    if AtBest b it then [.top (orderAt b it).side (computeTop (levels b' (orderAt b it).side))] else []

structure Ignores (cmd : Command) (b b' : SymbolOrderbook) (lines : List OutputLine) : Prop where
  bids : b'.bids = b.bids
  asks : b'.asks = b.asks
  map : b'.ordersByKey = b.ordersByKey
  pool : b'.slotPool = b.slotPool
  lines_eq : lines = [.cancelAck cmd.userId cmd.userOrderId]

structure CancelsExactly (cmd : Command) (b : SymbolOrderbook) : Prop where
  known : ∀ it, b.ordersByKey cmd.key = some it →
    Removes cmd it b (processCancel cmd b).1 (processCancel cmd b).2
  unknown : b.ordersByKey cmd.key = none → Ignores cmd b (processCancel cmd b).1 (processCancel cmd b).2

section Standing

variable {b : SymbolOrderbook} {key : OrderKey} {it : OrderIterator}
  {pre post : List (PriceLevel OrderIterator)} {level : PriceLevel OrderIterator}

theorem losesEntry_without (quantity : Int) (hst : Standing b it pre level post) :
    LosesEntry it quantity (levels b (orderAt b it).side) (without it quantity pre level post) := by
  obtain ⟨xs, ys, hq⟩ := List.append_of_mem hst.mem
  have hx : it ∉ xs := by
    have hn := hst.nodup
    rw [hq, List.nodup_append] at hn
    exact fun hm => hn.2.2 it hm it List.mem_cons_self rfl
  have he : level.orders.erase it = xs ++ ys := by
    rw [hq, List.erase_append_right _ hx, List.erase_cons_head]
  refine ⟨pre, level, post, xs, ys, hst.split, hq, ?_⟩
  rw [without, eraseOrder, if_pos hst.mem, he]
  simp only [List.isEmpty_iff]

theorem atBest_iff (h : Represents b) (hst : Standing b it pre level post) : AtBest b it ↔ pre = [] := by
  have hsplit : levels b (orderAt b it).side = pre ++ level :: post := hst.split
  rw [AtBest, hsplit]
  cases pre with
  | nil =>
      have hp : level.price = (orderAt b it).price := hst.price_eq
      simp [hp]
  | cons best pre =>
      simp only [List.cons_append, List.head?_cons, Option.map_some, Option.some.injEq, reduceCtorEq,
        iff_false]
      exact best_price_ne h hst

theorem sideChange_own (h : Represents b) (hk : b.ordersByKey key = some it) (hit : it ∈ used b)
    (hst : Standing b it pre level post) :
    sideChange key b (orderAt b it).side =
      if AtBest b it then
        [.top (orderAt b it).side (computeTop (levels (cancelOrder key b) (orderAt b it).side))]
      else [] := by
  cases pre with
  | nil =>
      rw [if_pos ((atBest_iff h hst).mpr rfl)]
      have hbest := sideChange_best h hk hit hst
      rcases topChange_cases (orderAt b it).side (computeTop (levels b (orderAt b it).side))
        (computeTop (levels (cancelOrder key b) (orderAt b it).side)) with hc | hc
      · exact absurd (hbest.symm.trans hc) (List.cons_ne_nil _ _)
      · exact hc
  | cons best pre =>
      rw [if_neg (fun hb => List.cons_ne_nil best pre ((atBest_iff h hst).mp hb))]
      exact sideChange_behind h hk hit hst

end Standing

section Cancel

variable {b : SymbolOrderbook} (h : Represents b) (cmd : Command)
include h

theorem processCancel_removes {it : OrderIterator} (hk : b.ordersByKey cmd.key = some it) :
    Removes cmd it b (processCancel cmd b).1 (processCancel cmd b).2 := by
  have hc := h.book.toCoreInvariant
  obtain ⟨hit, pre, level, post, hst⟩ := standing_of_key h.toSlotInvariant hc hk
  have hlevels (s : Side) : levels (processCancel cmd b).1 s = levels (cancelOrder cmd.key b) s := by
    cases s <;> rfl
  have hused : used (processCancel cmd b).1 = used (cancelOrder cmd.key b) := rfl
  have hmap : (processCancel cmd b).1.ordersByKey = Function.update b.ordersByKey cmd.key none :=
    cancelOrder_ordersByKey hc hk hit hst
  constructor
  · exact h.key_eq hc hk
  · exact cancelOrder_used hc hk hit hst
  · rw [hlevels]
    rw [show levels (cancelOrder cmd.key b) (orderAt b it).side = _ from cancelOrder_own hc hk hit hst]
    exact losesEntry_without _ hst
  · rw [hlevels]
    exact cancelOrder_opposite hc hk hit hst
  · intro jt hj
    rw [hused] at hj
    exact cancelOrder_get hc hk hit hst (ne_of_mem_rest hc hk hit hst h.toSlotInvariant hj)
  · rw [hmap, Function.update_self]
  · intro key hne
    rw [hmap, Function.update_of_ne hne]
  · have hopp := sideChange_of_levels (cancelOrder_opposite hc hk hit hst)
    rw [processCancel_sides h, sides_eq hopp, hlevels]
    exact congrArg _ (sideChange_own h hk hit hst)

theorem processCancel_ignores (hk : b.ordersByKey cmd.key = none) :
    Ignores cmd b (processCancel cmd b).1 (processCancel cmd b).2 := by
  have hsame : cancelOrder cmd.key b = b := by
    rw [cancelOrder, hk]
  have hchange (s : Side) : sideChange cmd.key b s = [] := sideChange_of_levels (by rw [hsame])
  constructor
  · exact show (cancelOrder cmd.key b).bids = b.bids by rw [hsame]
  · exact show (cancelOrder cmd.key b).asks = b.asks by rw [hsame]
  · exact show (cancelOrder cmd.key b).ordersByKey = b.ordersByKey by rw [hsame]
  · exact show (cancelOrder cmd.key b).slotPool = b.slotPool by rw [hsame]
  · rw [processCancel_sides h, hchange, hchange]
    rfl

end Cancel

/-- On every reachable book a cancel removes the order that its key names and nothing else. -/
theorem cancel_removes_one (calls : List BookCall) (cmd : Command) : CancelsExactly cmd (bookAfter calls) :=
  ⟨fun _ hk => processCancel_removes (represents_after calls) cmd hk,
    processCancel_ignores (represents_after calls) cmd⟩

end Orderbook.CancelFrame

import Orderbook.SlotReuse

namespace Orderbook.Representation

open Domain SlotPool Ladder Book ReferenceInvariant Slots SlotReuse Library.Runs

def orderAt (b : SymbolOrderbook) (it : OrderIterator) : Order := get b.slotPool it

structure RepresentationInvariant (b : SymbolOrderbook) : Prop where
  bids_descending : (b.bids.map PriceLevel.price).Pairwise (fun p q => q < p)
  asks_ascending : (b.asks.map PriceLevel.price).Pairwise (fun p q => p < q)
  level_nonempty : ∀ s, ∀ level ∈ levels b s, level.orders ≠ []
  iterator_valid : ∀ s, ∀ level ∈ levels b s, ∀ it ∈ level.orders, it < b.slotPool.storage.length
  order_price : ∀ s, ∀ level ∈ levels b s, ∀ it ∈ level.orders, (orderAt b it).price = level.price
  order_side : ∀ s, ∀ level ∈ levels b s, ∀ it ∈ level.orders, (orderAt b it).side = s
  order_positive : ∀ s, ∀ level ∈ levels b s, ∀ it ∈ level.orders, 0 < (orderAt b it).quantity
  level_total : ∀ s, ∀ level ∈ levels b s,
    level.totalQuantity = (level.orders.map (fun it => (orderAt b it).quantity)).sum
  level_fifo : ∀ s, ∀ level ∈ levels b s,
    (level.orders.map (fun it => (orderAt b it).sequence)).Pairwise (· < ·)
  sequence_below : ∀ s, ∀ level ∈ levels b s, ∀ it ∈ level.orders,
    (orderAt b it).sequence < b.nextSequence

theorem level_invariant {b : SymbolOrderbook} (h : CoreInvariant (deref b)) (s : Side) :
    ∀ level ∈ levels b s, LevelInvariant s b.nextSequence (mapLevel (get b.slotPool) level) := by
  intro level hl
  apply (h.side s).level
  rw [sideLevels_deref]
  exact List.mem_map_of_mem hl

theorem side_sorted {b : SymbolOrderbook} (h : Represents b) (s : Side) :
    ((levels b s).map PriceLevel.price).Pairwise s.ahead := by
  have hs := (h.book.side s).sorted
  rwa [sideLevels_deref, map_price_map] at hs

theorem representation_of_represents {b : SymbolOrderbook} (h : Represents b) :
    RepresentationInvariant b := by
  have hlevel := level_invariant h.book.toCoreInvariant
  constructor
  · exact side_sorted h .buy
  · exact side_sorted h .sell
  · intro s level hl he
    exact (hlevel s level hl).nonempty (by simp [he])
  · intro s level hl it hit
    exact h.lt_length s (mem_resting.mpr ⟨level, hl, hit⟩)
  · intro s level hl it hit
    exact (hlevel s level hl).price_eq _ (List.mem_map_of_mem hit)
  · intro s level hl it hit
    exact (hlevel s level hl).side_eq _ (List.mem_map_of_mem hit)
  · intro s level hl it hit
    exact (hlevel s level hl).positive _ (List.mem_map_of_mem hit)
  · intro s level hl
    have ht := (hlevel s level hl).total_eq
    rwa [mapLevel_orders, List.map_map] at ht
  · intro s level hl
    have hf := (hlevel s level hl).fifo
    rwa [mapLevel_orders, List.map_map] at hf
  · intro s level hl it hit
    exact (hlevel s level hl).below _ (List.mem_map_of_mem hit)

/-- Whatever is called on a new book, its representation invariant holds afterwards. -/
theorem bookAfter_invariant (calls : List BookCall) : RepresentationInvariant (bookAfter calls) :=
  representation_of_represents (represents_after calls)

/-- A call hands out at most one sequence number, so the counter stays far from its type's bound. -/
theorem nextSequence_le (calls : List BookCall) : (bookAfter calls).nextSequence ≤ calls.length + 1 := by
  induction calls using List.reverseRecOn with
  | nil => exact Nat.le_refl _
  | append_singleton calls c ih =>
      have hn := (call_nextSequence (represents_after calls) c).2
      rw [bookAfter, final_concat, List.length_append, List.length_singleton]
      exact Nat.le_trans hn (Nat.succ_le_succ ih)

end Orderbook.Representation

import Orderbook.Wrapping

namespace Orderbook.NarrowFeed

open Domain Ladder Book Reference ReferenceInvariant Slots SlotReuse Observations Feed Overflow Wrapping
  Library.Runs

/-- After every command a reader of the feed holds the best price of each side with its whole
quantity, and no line of the feed repeats what the reader holds. -/
structure FeedExact (calls : List BookCall) : Prop where
  exact : ∀ pre, pre <+: calls → ∀ s,
    IsBest s (restingOrders (bookAfter64 pre) s) (readLines emptyView (output call64 {} pre) s)
  minimal : ∀ pre s tob post, output call64 {} calls = pre ++ .top s tob :: post →
    readLine (readLines emptyView pre) (.top s tob) s ≠ readLines emptyView pre s

def BestFits (b : SymbolOrderbook) (s : Side) : Prop :=
  ∀ o ∈ restingOrders b s, (∀ p ∈ restingOrders b s, ¬ s.ahead p.price o.price) →
    quantityAt (restingOrders b s) o.price ≤ Int64.maxValue.toInt

theorem read_run64 (calls : List BookCall) :
    readLines emptyView (output call64 {} calls) =
        quotes (narrowTop (computeTopBid (bookAfter calls))) (narrowTop (computeTopAsk (bookAfter calls))) ∧
      Changing emptyView (output call64 {} calls) := by
  induction calls using List.reverseRecOn with
  | nil =>
      refine ⟨?_, trivial⟩
      funext side
      cases side <;> rfl
  | append_singleton calls x ih =>
      obtain ⟨front, hfront, -, hlines⟩ := call64_after calls x
      have hread := read_changes hfront (narrowTop (computeTopBid (bookAfter calls)))
        (narrowTop (computeTopAsk (bookAfter calls))) (narrowTop (computeTopBid (bookAfter (calls ++ [x]))))
        (narrowTop (computeTopAsk (bookAfter (calls ++ [x]))))
      have hstep : (call64 (final call64 {} calls) x).2 =
          front ++ narrowChanges (bookAfter calls) (bookAfter (calls ++ [x])) := hlines
      rw [output_concat, readLines_append, changing_append, ih.1, hstep]
      exact ⟨hread.1, ih.2, hread.2⟩

section Best

variable {s : Side} {next : Nat} {levels : List (PriceLevel Order)}

theorem best_price {level : PriceLevel Order} (h : SideInvariant s next (level :: levels)) {o : Order}
    (ho : o ∈ resting (level :: levels))
    (hbest : ∀ p ∈ resting (level :: levels), ¬ s.ahead p.price o.price) : o.price = level.price := by
  have hl := h.level level List.mem_cons_self
  obtain ⟨p, hp⟩ := List.exists_mem_of_ne_nil _ hl.nonempty
  have hfront := hbest p (List.mem_append_left _ hp)
  rw [hl.price_eq p hp] at hfront
  exact ((s.ahead_trichotomy o.price level.price).resolve_left (not_ahead_front h o ho)).resolve_right hfront

theorem isBest_narrowTop (h : SideInvariant s next levels) :
    IsBest s (resting levels) (quote (narrowTop (computeTop levels))) ↔
      ∀ o ∈ resting levels, (∀ p ∈ resting levels, ¬ s.ahead p.price o.price) →
        quantityAt (resting levels) o.price ≤ Int64.maxValue.toInt := by
  cases levels with
  | nil => exact iff_of_true rfl fun _ ho => by cases ho
  | cons level rest =>
      have hl := h.level level List.mem_cons_self
      have htotal := total_eq_quantityAt h List.mem_cons_self
      obtain ⟨p, hp⟩ := List.exists_mem_of_ne_nil _ hl.nonempty
      have hmem : p ∈ resting (level :: rest) := List.mem_append_left _ hp
      constructor
      · rintro ⟨-, -, hsum⟩ o ho hbest
        change int64 level.totalQuantity = quantityAt (resting (level :: rest)) level.price at hsum
        rw [best_price h ho hbest, ← hsum]
        exact int64_le _
      · intro hfits
        have hbest : ∀ o ∈ resting (level :: rest), ¬ s.ahead o.price p.price := by
          rw [hl.price_eq p hp]
          exact not_ahead_front h
        have hle := hfits p hmem hbest
        rw [hl.price_eq p hp, ← htotal] at hle
        refine ⟨⟨p, hmem, hl.price_eq p hp⟩, not_ahead_front h, ?_⟩
        change int64 level.totalQuantity = quantityAt (resting (level :: rest)) level.price
        rw [int64_eq (Int.le_of_lt hl.total_pos) hle, htotal]

end Best

theorem restingOrders_narrowed (b : SymbolOrderbook) (s : Side) :
    restingOrders (narrowed b) s = restingOrders b s := by
  have hlevels : levels (narrowed b) s = (levels b s).map narrowLevel := by cases s <;> rfl
  rw [restingOrders, restingOrders, hlevels, resting_narrow]
  rfl

theorem read_exact_iff (calls : List BookCall) (s : Side) :
    IsBest s (restingOrders (bookAfter64 calls) s) (readLines emptyView (output call64 {} calls) s) ↔
      BestFits (bookAfter64 calls) s := by
  have htop : quotes (narrowTop (computeTopBid (bookAfter calls))) (narrowTop (computeTopAsk (bookAfter calls))) s =
      quote (narrowTop (computeTop (sideLevels (deref (bookAfter calls)) s))) := by
    rw [sideLevels_deref, computeTop_map]
    cases s <;> rfl
  rw [BestFits, bookAfter64_eq, restingOrders_narrowed, restingOrders_eq, (read_run64 calls).1, htop]
  exact isBest_narrowTop ((represents_after calls).book.side s)

/-- The feed is exact and minimal along a run exactly if, after every command of it, what rests at the
best price of each side adds up to an `int64_t`. -/
theorem feed_exact_iff (calls : List BookCall) :
    FeedExact calls ↔ ∀ pre, pre <+: calls → ∀ s, BestFits (bookAfter64 pre) s := by
  constructor
  · exact fun h pre hpre s => (read_exact_iff pre s).mp (h.exact pre hpre s)
  · intro hfits
    constructor
    · exact fun pre hpre s => (read_exact_iff pre s).mpr (hfits pre hpre s)
    · exact fun _ _ _ _ hs => changing_split (read_run64 calls).2 hs

theorem two_bids_misread : ¬ ∀ calls, Parsed calls → FeedExact calls := by
  intro h
  have hexact := (h overflowingCalls overflowingCalls_parsed).exact overflowingCalls List.prefix_rfl .buy
  have hread : readLines emptyView (output call64 {} overflowingCalls) .buy =
      some (10, -9223372036854775808) := by
    decide +kernel
  rw [hread] at hexact
  exact absurd hexact.2.2 (by decide +kernel)

end Orderbook.NarrowFeed

import Orderbook.Observations

namespace Orderbook.Priority

open Domain Ladder Book Reference ReferenceWalk ReferenceInvariant SlotReuse Observations
  Library.QueueFill

/-- On side `s` the order `o` has priority over `p`: a better price, or the same price
and an earlier arrival. -/
def Prior (s : Side) (o p : Order) : Prop :=
  s.ahead o.price p.price ∨ (o.price = p.price ∧ o.sequence < p.sequence)

def afterTrades : List (Fill Order) → Order → Option Order
  | [], o => some o
  | t :: ts, o =>
      if t.item.sequence = o.sequence then
        if t.item.quantity = 0 then none else some t.item
      else afterTrades ts o

/-- How an incoming order of `user` may trade against the orders `before` of side `s`,
when `after` is what is left of them. -/
structure Served (s : Side) (user : Int) (before after : List Order) (ts : List (Fill Order)) : Prop where
  increasing : (ts.map Fill.item).Pairwise (Prior s)
  named : ∀ t ∈ ts, ∃ o ∈ before, o.userId ≠ user ∧ 0 < t.taken ∧ t.taken ≤ o.quantity ∧
    t.item = { o with quantity := o.quantity - t.taken }
  prior_filled : ∀ pre t post, ts = pre ++ t :: post → ∀ o ∈ before, o.userId ≠ user →
    Prior s o t.item → (∃ f ∈ pre, f.item = { o with quantity := 0 } ∧ f.taken = o.quantity) ∧
      ∀ p ∈ after, p.sequence ≠ o.sequence
  exhausted : ∀ t ∈ ts.dropLast, t.item.quantity = 0
  in_place : after = before.filterMap (afterTrades ts)

theorem prior_irrefl (s : Side) (o : Order) : ¬ Prior s o o := by
  rintro (h | ⟨_, h⟩)
  · exact s.ahead_irrefl _ h
  · exact Nat.lt_irrefl _ h

theorem prior_asymm {s : Side} {o p : Order} (h : Prior s o p) : ¬ Prior s p o := by
  rcases h with h | ⟨he, h⟩
  · rintro (h' | ⟨he', _⟩)
    · exact s.ahead_asymm h h'
    · exact s.ahead_irrefl p.price (he' ▸ h)
  · rintro (h' | ⟨_, h'⟩)
    · exact s.ahead_irrefl p.price (he ▸ h')
    · exact Nat.lt_asymm h h'

theorem resting_pairwise {s : Side} {next : Nat} {levels : List (PriceLevel Order)}
    (h : SideInvariant s next levels) : (resting levels).Pairwise (Prior s) := by
  induction levels with
  | nil => exact List.Pairwise.nil
  | cons level rest ih =>
      have hl := h.level level List.mem_cons_self
      rw [resting_cons, List.pairwise_append]
      refine ⟨?_, ih h.tail, ?_⟩
      · apply (List.pairwise_map.mp hl.fifo).imp_of_mem
        intro o p ho hp hop
        exact Or.inr ⟨(hl.price_eq o ho).trans (hl.price_eq p hp).symm, hop⟩
      · intro o ho p hp
        left
        rw [hl.price_eq o ho]
        exact h.front_ahead p hp

section Walk

variable {s : Side} {next : Nat} {levels : List (PriceLevel Order)} (within : Int → Bool) (user q : Int)

theorem walk_increasing (h : SideInvariant s next levels) :
    ((walkLevels within user q levels).fills.map Fill.item).Pairwise (Prior s) := by
  rw [(walkLevels_flattens within user q levels).fills]
  have hp := resting_pairwise h
  rw [resting_reach_beyond within user levels, List.pairwise_append] at hp
  have hlabels := fills_labels (orderRule user) (fun o => (o.price, o.sequence)) (fun _ _ => rfl) q
    (resting (reach within user levels))
  have hsorted : ((resting (reach within user levels)).map (fun o => (o.price, o.sequence))).Pairwise
      (fun a b => s.ahead a.1 b.1 ∨ (a.1 = b.1 ∧ a.2 < b.2)) := List.pairwise_map.mpr hp.1
  have hf := List.pairwise_map.mp (hsorted.sublist hlabels)
  exact List.pairwise_map.mpr hf

theorem walk_named (h : SideInvariant s next levels) :
    ∀ t ∈ (walkLevels within user q levels).fills, ∃ o ∈ resting levels, o.userId ≠ user ∧
      0 < t.taken ∧ t.taken ≤ o.quantity ∧ t.item = { o with quantity := o.quantity - t.taken } := by
  rw [(walkLevels_flattens within user q levels).fills]
  intro t ht
  obtain ⟨o, ho, hs, hi, hpos, hle⟩ := fills_bounds (orderRule user)
    (fun o ho => h.positive o (mem_reach_resting within user ho)) t ht
  exact ⟨o, mem_reach_resting within user ho, by simpa using hs, hpos, hle, hi⟩

theorem walk_exhausted :
    ∀ t ∈ (walkLevels within user q levels).fills.dropLast, t.item.quantity = 0 := by
  rw [(walkLevels_flattens within user q levels).fills]
  exact dropLast_exhausted (orderRule user) q _

theorem walk_prior_whole (h : SideInvariant s next levels) {pre post : List (Fill Order)} {t : Fill Order}
    (ht : (walkLevels within user q levels).fills = pre ++ t :: post) {o : Order}
    (ho : o ∈ resting levels) (hu : o.userId ≠ user) (hp : Prior s o t.item) :
    whole (orderRule user) o ∈ pre := by
  rw [(walkLevels_flattens within user q levels).fills] at ht
  obtain ⟨xs, a, ys, hsplit, _, hitem, hpre⟩ := fills_split (orderRule user) ht
  have hprior := resting_pairwise h
  rw [resting_reach_beyond within user levels, hsplit, List.append_assoc, List.cons_append] at hprior ho
  have hoa : Prior s o a := by
    rw [hitem] at hp
    exact hp
  rw [List.pairwise_append, List.pairwise_cons] at hprior
  obtain ⟨_, ⟨hafter, _⟩, _⟩ := hprior
  have hmem : o ∈ xs := by
    rcases List.mem_append.mp ho with ho | ho
    · exact ho
    · rcases List.mem_cons.mp ho with rfl | ho
      · exact absurd hoa (prior_irrefl s o)
      · exact absurd hoa (prior_asymm (hafter o ho))
  rw [hpre]
  apply List.mem_map_of_mem
  rw [offered, List.mem_filter]
  exact ⟨hmem, by simpa using hu⟩

theorem walk_labels_nodup (hn : ((resting levels).map Order.sequence).Nodup) :
    ((walkLevels within user q levels).fills.map (fun f => f.item.sequence)).Nodup := by
  rw [(walkLevels_flattens within user q levels).fills]
  rw [resting_reach_beyond within user levels, List.map_append, List.nodup_append] at hn
  exact hn.1.sublist (fills_labels (orderRule user) Order.sequence (fun _ _ => rfl) q _)

theorem afterTrades_eq (ts : List (Fill Order)) :
    afterTrades ts = remains (orderRule user) Order.sequence ts := by
  funext o
  induction ts with
  | nil => rfl
  | cons t ts ih =>
      rw [afterTrades, ih]
      rfl

theorem walk_in_place (hn : ((resting levels).map Order.sequence).Nodup) :
    resting (walkLevels within user q levels).levels =
      (resting levels).filterMap (afterTrades (walkLevels within user q levels).fills) := by
  have hf := walkLevels_flattens within user q levels
  rw [resting_reach_beyond within user levels, List.map_append, List.nodup_append] at hn
  obtain ⟨hreach, _, hdisj⟩ := hn
  have hbeyond : (resting (beyond within user levels)).filterMap
      (remains (orderRule user) Order.sequence (walkLevels within user q levels).fills) =
      resting (beyond within user levels) := by
    apply (List.filterMap_congr _).trans List.filterMap_some
    intro o ho
    apply remains_of_not_mem
    intro hm
    rw [hf.fills] at hm
    have hs := (fills_labels (orderRule user) Order.sequence (fun _ _ => rfl) q _).subset hm
    exact hdisj _ hs _ (List.mem_map_of_mem ho) rfl
  rw [afterTrades_eq user, resting_reach_beyond within user levels, List.filterMap_append, hbeyond,
    hf.kept, hf.fills]
  rw [← kept_eq_filterMap (orderRule user) Order.sequence (fun _ _ => rfl) q _ hreach]

theorem walk_filled_gone (hn : ((resting levels).map Order.sequence).Nodup) {f : Fill Order}
    (hf : f ∈ (walkLevels within user q levels).fills) (hz : f.item.quantity = 0) :
    ∀ p ∈ resting (walkLevels within user q levels).levels, p.sequence ≠ f.item.sequence := by
  intro p hp he
  rw [walk_in_place within user q hn, afterTrades_eq user] at hp
  obtain ⟨o, _, hr⟩ := List.mem_filterMap.mp hp
  have hlabel := remains_label (orderRule user) Order.sequence hr
  have hnone := remains_of_exhausted (orderRule user) Order.sequence (walk_labels_nodup within user q hn)
    hf hz (he.symm.trans hlabel)
  rw [hnone] at hr
  cases hr

theorem walk_served (h : SideInvariant s next levels) (hn : ((resting levels).map Order.sequence).Nodup) :
    Served s user (resting levels) (resting (walkLevels within user q levels).levels)
      (walkLevels within user q levels).fills where
  increasing := walk_increasing within user q h
  named := walk_named within user q h
  exhausted := walk_exhausted within user q
  in_place := walk_in_place within user q hn
  prior_filled pre t post ht o ho hu hp := by
    have hw := walk_prior_whole within user q h ht ho hu hp
    have hmem : whole (orderRule user) o ∈ (walkLevels within user q levels).fills := by
      rw [ht]
      exact List.mem_append_left _ hw
    exact ⟨⟨_, hw, by simp [whole], rfl⟩, walk_filled_gone within user q hn hmem (Int.sub_self _)⟩

end Walk

/-- Strict price-time priority: the trades of any new order on any reachable book. -/
theorem newOrder_served (calls : List BookCall) (cmd : Command) :
    Served cmd.side.opposite cmd.userId
      (restingOrders (bookAfter calls) cmd.side.opposite)
      (restingOrders (processNewOrder cmd (bookAfter calls)).1 cmd.side.opposite)
      (restingTrades cmd.side (processNewOrder cmd (bookAfter calls)).2) := by
  have h := represents_after calls
  rw [← resting_ladder, ← resting_ladder, ladder_eq, ladder_eq, deref_newOrder h, sideLevels_refreshTops,
    matched_opposite, newOrder_lines h, restingTrades_refNewOrder]
  exact walk_served (within cmd.side cmd) cmd.userId cmd.quantity (h.book.side cmd.side.opposite)
    (h.book.side_nodup cmd.side.opposite)

end Orderbook.Priority

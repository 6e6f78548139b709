import Orderbook.ReferenceInvariant
import Orderbook.Simulation

namespace Orderbook.Slots

open Domain SlotPool Ladder Matching Book Reference ReferenceWalk ReferenceInvariant Simulation
  Library.QueueFill Library.Ownership

def used (b : SymbolOrderbook) : List OrderIterator := resting b.bids ++ resting b.asks

/-- The book with every iterator replaced by the order it points to. -/
def deref (b : SymbolOrderbook) : ReferenceBook where
  bids := b.bids.map (mapLevel (get b.slotPool))
  asks := b.asks.map (mapLevel (get b.slotPool))
  instances key := (b.ordersByKey key).map (fun it => (get b.slotPool it).sequence)
  currentTopBid := b.currentTopBid
  currentTopAsk := b.currentTopAsk
  nextSequence := b.nextSequence

/-- Queues own disjoint slots, none of them free, and the lookup map does not dangle. -/
structure SlotInvariant (b : SymbolOrderbook) : Prop where
  owned : Owned b.slotPool (used b)
  queued : ∀ key it, b.ordersByKey key = some it → it ∈ used b

@[simp] theorem sideLevels_deref (b : SymbolOrderbook) (s : Side) :
    sideLevels (deref b) s = (levels b s).map (mapLevel (get b.slotPool)) := by
  cases s <;> rfl

theorem resting_deref (b : SymbolOrderbook) (s : Side) :
    resting (sideLevels (deref b) s) = (resting (levels b s)).map (get b.slotPool) := by
  rw [sideLevels_deref, resting_map]

theorem allOrders_deref (b : SymbolOrderbook) : allOrders (deref b) = (used b).map (get b.slotPool) := by
  simp [allOrders, deref, used]

theorem used_perm (b : SymbolOrderbook) (s : Side) :
    (used b).Perm (resting (levels b s) ++ resting (levels b s.opposite)) := by
  cases s with
  | buy => exact List.Perm.refl _
  | sell => exact List.perm_append_comm

theorem mem_used {b : SymbolOrderbook} (s : Side) {it : OrderIterator} :
    it ∈ used b ↔ it ∈ resting (levels b s) ∨ it ∈ resting (levels b s.opposite) := by
  rw [(used_perm b s).mem_iff, List.mem_append]

theorem get_mem_allOrders {b : SymbolOrderbook} {it : OrderIterator} (h : it ∈ used b) :
    get b.slotPool it ∈ allOrders (deref b) := by
  rw [allOrders_deref]
  exact List.mem_map_of_mem h

theorem SlotInvariant.nodup {b : SymbolOrderbook} (h : SlotInvariant b) (s : Side) :
    (resting (levels b s) ++ resting (levels b s.opposite)).Nodup :=
  (used_perm b s).nodup_iff.mp (Owns.used_nodup h.owned)

theorem SlotInvariant.side_nodup {b : SymbolOrderbook} (h : SlotInvariant b) (s : Side) :
    (resting (levels b s)).Nodup := (List.nodup_append.mp (h.nodup s)).1

theorem SlotInvariant.one_side {b : SymbolOrderbook} (h : SlotInvariant b) {s : Side}
    {it : OrderIterator} (hit : it ∈ resting (levels b s)) : it ∉ resting (levels b s.opposite) :=
  fun hm => (List.nodup_append.mp (h.nodup s)).2.2 it hit it hm rfl

theorem SlotInvariant.lt_length {b : SymbolOrderbook} (h : SlotInvariant b) (s : Side)
    {it : OrderIterator} (hit : it ∈ resting (levels b s)) : it < b.slotPool.storage.length :=
  owned_lt h.owned ((mem_used s).mpr (Or.inl hit))

theorem slot_inj {b : SymbolOrderbook} (h : CoreInvariant (deref b)) {it jt : OrderIterator}
    (hit : it ∈ used b) (hjt : jt ∈ used b)
    (he : (get b.slotPool it).sequence = (get b.slotPool jt).sequence) : it = jt := by
  have hn := h.unique
  rw [allOrders_deref, List.map_map] at hn
  exact List.inj_on_of_nodup_map hn hit hjt he

theorem SlotInvariant.key_eq {b : SymbolOrderbook} (h : SlotInvariant b) (hc : CoreInvariant (deref b))
    {key : OrderKey} {it : OrderIterator} (hk : b.ordersByKey key = some it) :
    (get b.slotPool it).key = key := by
  obtain ⟨o, ho, hn, hok⟩ := hc.named key (get b.slotPool it).sequence (by simp [deref, hk])
  rwa [hc.sequence_inj ho (get_mem_allOrders (h.queued key it hk)) hn] at hok

theorem forget_map {ι κ : Type} (f : ι → κ) (fs : List (Fill Order)) (m : OrderKey → Option ι) :
    (fun key => (forget fs m key).map f) = forget fs (fun key => (m key).map f) := by
  funext key
  rw [forget_apply, forget_apply]
  split_ifs <;> rfl

section Trading

variable (cmd : Command) (b : SymbolOrderbook)

/-- Both kinds of loop, as the one sweep that they are. -/
def orderSweep : Sweep :=
  sweepLevels (within cmd.side cmd) cmd.side (makeIncomingOrder cmd) (levels b cmd.side.opposite)
    (startWalk cmd b)

theorem marketSweep_eq (hp : cmd.price = 0) : marketSweep cmd.side cmd b = orderSweep cmd b := by
  have hw : within cmd.side cmd = fun _ => true := by
    funext price
    simp [within, hp]
  rw [marketSweep, orderSweep, matchLevels_eq_sweep, hw]

theorem limitSweep_eq (hp : cmd.price ≠ 0) (h : SlotInvariant b) :
    limitSweep cmd.side cmd b = orderSweep cmd b := by
  have hw : within cmd.side cmd = fun price => !exceedsLimit cmd.side price cmd.price := by
    funext price
    simp [within, hp]
  rw [limitSweep, orderSweep, hw]
  apply matchLevelsLimit_eq_sweep
  · exact h.side_nodup cmd.side.opposite
  · exact fun it hit => h.lt_length cmd.side.opposite hit

theorem orderSweep_reads (h : SlotInvariant b) :
    SweepReads cmd.side (makeIncomingOrder cmd) (levels b cmd.side.opposite) (startWalk cmd b)
      (orderSweep cmd b) (walk cmd (deref b)) := by
  have hr := sweepLevels_reads (within cmd.side cmd) cmd.side (makeIncomingOrder cmd)
    (levels b cmd.side.opposite) (startWalk cmd b) (h.side_nodup cmd.side.opposite)
    (fun it hit => h.lt_length cmd.side.opposite hit)
  rw [walk, sideLevels_deref]
  exact hr

@[simp] theorem absorb_slotPool (s : Side) (sweep : Sweep) :
    (absorb s b sweep).slotPool = sweep.walk.slotPool := rfl

@[simp] theorem absorb_ordersByKey (s : Side) (sweep : Sweep) :
    (absorb s b sweep).ordersByKey = sweep.walk.ordersByKey := rfl

@[simp] theorem absorb_levels_self (s : Side) (sweep : Sweep) :
    levels (absorb s b sweep) s = sweep.levels := by
  cases s <;> rfl

@[simp] theorem absorb_levels_of_opposite (s : Side) (sweep : Sweep) :
    levels (absorb s.opposite b sweep) s = levels b s := by
  cases s <;> rfl

variable {cmd b}

theorem orderSweep_outside (h : SlotInvariant b) {it : OrderIterator}
    (hit : it ∈ resting (levels b cmd.side)) :
    get (orderSweep cmd b).walk.slotPool it = get b.slotPool it := by
  apply (orderSweep_reads cmd b h).pool.outside
  exact h.one_side hit

theorem orderSweep_sequence (h : SlotInvariant b) (it : OrderIterator) :
    (get (orderSweep cmd b).walk.slotPool it).sequence = (get b.slotPool it).sequence := by
  obtain ⟨q, hq⟩ := (orderSweep_reads cmd b h).pool.identity it
  rw [hq]
  rfl

theorem deref_absorb (h : SlotInvariant b) :
    deref (absorb cmd.side.opposite b (orderSweep cmd b)) = traded cmd (deref b) := by
  have hr := orderSweep_reads cmd b h
  apply referenceBook_ext cmd.side
  · rw [sideLevels_deref, absorb_levels_of_opposite, traded_own, sideLevels_deref]
    exact mapLevel_congr (fun it hit => orderSweep_outside h hit)
  · rw [sideLevels_deref, absorb_levels_self, traded_opposite, ← hr.levels_eq]
    rfl
  · change (fun key => ((orderSweep cmd b).walk.ordersByKey key).map _) =
      forget (walk cmd (deref b)).fills (deref b).instances
    simp only [absorb_slotPool, orderSweep_sequence h]
    rw [hr.keys]
    exact forget_map _ _ _
  all_goals
    rw [traded]
    cases cmd.side <;> rfl

theorem absorb_used : (used (absorb cmd.side.opposite b (orderSweep cmd b))).Perm
    (resting (levels b cmd.side) ++ resting (orderSweep cmd b).levels) := by
  have hp := used_perm (absorb cmd.side.opposite b (orderSweep cmd b)) cmd.side
  rwa [absorb_levels_of_opposite, absorb_levels_self] at hp

theorem absorb_owned (h : SlotInvariant b) : Owned (absorb cmd.side.opposite b (orderSweep cmd b)).slotPool
    (used (absorb cmd.side.opposite b (orderSweep cmd b))) := by
  have hr := orderSweep_reads cmd b h
  obtain ⟨gone, hgone, hfree⟩ := hr.pool.freed
  have hp : (used (absorb cmd.side.opposite b (orderSweep cmd b)) ++ gone).Perm (used b) := by
    apply (absorb_used.append_right gone).trans
    rw [List.append_assoc]
    exact (hgone.append_left _).trans (used_perm b cmd.side).symm
  have hl : (orderSweep cmd b).walk.slotPool.storage.length = b.slotPool.storage.length := hr.pool.length
  have ho := Owns.release h.owned hp hfree
  rwa [← hl] at ho

theorem orderSweep_keeps (h : SlotInvariant b) (hc : CoreInvariant (deref b)) {it : OrderIterator}
    (hit : it ∈ resting (levels b cmd.side.opposite))
    (hunfilled : ¬ ∃ f ∈ (walk cmd (deref b)).fills, f.item.quantity = 0 ∧
      f.item.key = (get b.slotPool it).key) :
    it ∈ resting (orderSweep cmd b).levels := by
  have hr := orderSweep_reads cmd b h
  obtain ⟨gone, hgone, _⟩ := hr.pool.freed
  have hm : get b.slotPool it ∈ resting (sideLevels (deref b) cmd.side.opposite) := by
    rw [resting_deref]
    exact List.mem_map_of_mem hit
  rcases walkLevels_fate (within cmd.side cmd) cmd.userId cmd.quantity _ _ hm with ⟨f, hf, he⟩ | ⟨q, hq⟩
  · exact absurd ⟨f, hf, by rw [he], by rw [he]; rfl⟩ hunfilled
  · change _ ∈ resting (walk cmd (deref b)).levels at hq
    rw [← hr.levels_eq, resting_map] at hq
    obtain ⟨jt, hjt, hje⟩ := List.mem_map.mp hq
    have hju : jt ∈ used b := by
      rw [mem_used cmd.side]
      exact Or.inr (hgone.mem_iff.mp (List.mem_append_left gone hjt))
    have hseq : (get b.slotPool jt).sequence = (get b.slotPool it).sequence := by
      rw [← orderSweep_sequence h jt, hje]
    exact slot_inj hc hju ((mem_used cmd.side).mpr (Or.inr hit)) hseq ▸ hjt

theorem absorb_slots (h : SlotInvariant b) (hc : CoreInvariant (deref b)) :
    SlotInvariant (absorb cmd.side.opposite b (orderSweep cmd b)) := by
  refine ⟨absorb_owned h, ?_⟩
  intro key it hk
  rw [absorb_ordersByKey, (orderSweep_reads cmd b h).keys, forget_apply] at hk
  split_ifs at hk with hfilled
  change b.ordersByKey key = some it at hk
  rw [absorb_used.mem_iff, List.mem_append]
  rcases (mem_used cmd.side).mp (h.queued key it hk) with hs | hs
  · exact Or.inl hs
  · -- a filled order would have lost this entry
    rw [← h.key_eq hc hk] at hfilled
    exact Or.inr (orderSweep_keeps h hc hs hfilled)

end Trading

section Resting

variable {b : SymbolOrderbook} {cmd : Command} {q : Int}

theorem restRemainder_slotPool (s : Side) : (restRemainder s cmd q b).slotPool =
    set (allocate b.slotPool).2 (allocate b.slotPool).1 (storedOrder s cmd q b.nextSequence) := rfl

theorem restRemainder_ordersByKey (s : Side) : (restRemainder s cmd q b).ordersByKey =
    Function.update b.ordersByKey cmd.key (some (allocate b.slotPool).1) := by
  cases s <;> rfl

theorem restRemainder_opposite (s : Side) :
    levels (restRemainder s cmd q b) s.opposite = levels b s.opposite := by
  cases s <;> rfl

theorem restRemainder_own (s : Side) (hc : CoreInvariant (deref b)) :
    levels (restRemainder s cmd q b) s =
      restAt s (allocate b.slotPool).1 q cmd.price (levels b s) := by
  have hs := (hc.side s).sorted
  rw [sideLevels_deref, map_price_map] at hs
  have hp : (getOrCreateLevel s (levels b s) cmd.price).1.modify
      (getOrCreateLevel s (levels b s) cmd.price).2 (pushOrder (allocate b.slotPool).1 q) =
      restAt s (allocate b.slotPool).1 q cmd.price (levels b s) := getOrCreateLevel_push hs _ q
  cases s <;> exact hp

theorem restRemainder_get (h : SlotInvariant b) (s : Side) :
    get (restRemainder s cmd q b).slotPool (allocate b.slotPool).1 =
      storedOrder s cmd q b.nextSequence := by
  rw [restRemainder_slotPool]
  apply get_set_self
  exact owned_lt (allocate_spec h.owned).1 List.mem_cons_self

theorem restRemainder_get_used (h : SlotInvariant b) (s : Side) {it : OrderIterator}
    (hit : it ∈ used b) :
    get (restRemainder s cmd q b).slotPool it = get b.slotPool it := by
  obtain ⟨_, hnew, hold⟩ := allocate_spec h.owned
  rw [restRemainder_slotPool, get_set_of_ne, hold it hit]
  rintro rfl
  exact hnew hit

theorem deref_restRemainder (h : SlotInvariant b) (hc : CoreInvariant (deref b)) :
    deref (restRemainder cmd.side cmd q b) = restOrder cmd q (deref b) := by
  have hsame (s : Side) : (levels b s).map (mapLevel (get (restRemainder cmd.side cmd q b).slotPool)) =
      (levels b s).map (mapLevel (get b.slotPool)) := by
    apply mapLevel_congr
    intro it hit
    exact restRemainder_get_used h _ ((mem_used s).mpr (Or.inl hit))
  apply referenceBook_ext cmd.side
  · rw [sideLevels_deref, restRemainder_own cmd.side hc, restAt_map, restRemainder_get h, hsame,
      restOrder_own, sideLevels_deref]
    rfl
  · rw [sideLevels_deref, restRemainder_opposite, hsame, restOrder_opposite, sideLevels_deref]
  · funext key
    change ((restRemainder cmd.side cmd q b).ordersByKey key).map _ =
      Function.update (deref b).instances cmd.key (some b.nextSequence) key
    rw [restRemainder_ordersByKey]
    by_cases hk : key = cmd.key
    · subst hk
      rw [Function.update_self, Function.update_self, Option.map_some, restRemainder_get h]
      rfl
    · rw [Function.update_of_ne hk, Function.update_of_ne hk]
      cases hm : b.ordersByKey key with
      | none => simp [deref, hm]
      | some it => simp [deref, hm, restRemainder_get_used h cmd.side (h.queued key it hm)]
  all_goals
    rw [restOrder, restRemainder]
    cases cmd.side <;> rfl

theorem restRemainder_slots (h : SlotInvariant b) (hc : CoreInvariant (deref b)) (s : Side) :
    SlotInvariant (restRemainder s cmd q b) := by
  obtain ⟨ho, _, _⟩ := allocate_spec h.owned
  have hused : (used (restRemainder s cmd q b)).Perm ((allocate b.slotPool).1 :: used b) := by
    apply (used_perm _ s).trans
    rw [restRemainder_own s hc, restRemainder_opposite]
    apply ((resting_restAt s _ q cmd.price (levels b s)).append_right _).trans
    exact (used_perm b s).symm.cons _
  constructor
  · have hp := Owns.perm ho hused.symm
    rw [Owned, restRemainder_slotPool, set_freeList, set_length]
    exact hp
  · intro key it hk
    rw [restRemainder_ordersByKey] at hk
    rw [hused.mem_iff]
    by_cases hkey : key = cmd.key
    · subst hkey
      rw [Function.update_self, Option.some.injEq] at hk
      exact hk ▸ List.mem_cons_self
    · rw [Function.update_of_ne hkey] at hk
      exact List.mem_cons_of_mem _ (h.queued key it hk)

end Resting

end Orderbook.Slots

import Orderbook.Slots

namespace Orderbook.SlotCancel

open Domain SlotPool Ladder Book Reference ReferenceInvariant Slots Library.Ownership

variable {b : SymbolOrderbook} {key : OrderKey} {it : OrderIterator}

theorem sideLevels_cancelled {r : ReferenceBook} {n : Nat} (h : r.instances key = some n) (s : Side) :
    sideLevels (cancelled key r) s = removeInstance n (sideLevels r s) := by
  simp only [cancelled, h]
  cases s <;> rfl

theorem own_side (hc : CoreInvariant (deref b)) (hit : it ∈ used b) :
    it ∈ resting (levels b (get b.slotPool it).side) := by
  rcases (mem_used (get b.slotPool it).side).mp hit with hs | hs
  · exact hs
  · have hm : get b.slotPool it ∈ resting (sideLevels (deref b) (get b.slotPool it).side.opposite) := by
      rw [resting_deref]
      exact List.mem_map_of_mem hs
    exact absurd ((hc.side _).side_eq _ hm) (Side.ne_opposite _)

/-- Where the slot of a resting order stands in its ladder. -/
structure Standing (b : SymbolOrderbook) (it : OrderIterator)
    (pre : List (PriceLevel OrderIterator)) (level : PriceLevel OrderIterator)
    (post : List (PriceLevel OrderIterator)) : Prop where
  split : levels b (get b.slotPool it).side = pre ++ level :: post
  mem : it ∈ level.orders
  price_eq : level.price = (get b.slotPool it).price
  not_pre : it ∉ resting pre
  nodup : level.orders.Nodup
  not_post : it ∉ resting post

theorem exists_standing (h : SlotInvariant b) (hc : CoreInvariant (deref b)) (hit : it ∈ used b) :
    ∃ pre level post, Standing b it pre level post := by
  have hs := own_side hc hit
  obtain ⟨level, hl, hm⟩ := mem_resting.mp hs
  obtain ⟨pre, post, hsplit⟩ := List.append_of_mem hl
  have hn := h.side_nodup (get b.slotPool it).side
  rw [hsplit, resting_append, resting_cons, List.nodup_append, List.nodup_append] at hn
  obtain ⟨_, ⟨hnl, _, hlpost⟩, hpre⟩ := hn
  refine ⟨pre, level, post, hsplit, hm, ?_, ?_, hnl, ?_⟩
  · have hi := (hc.side (get b.slotPool it).side).level (mapLevel (get b.slotPool) level)
      (by rw [sideLevels_deref]; exact List.mem_map_of_mem hl)
    exact (hi.price_eq _ (List.mem_map_of_mem hm)).symm
  · exact fun hp => hpre it hp it (List.mem_append_left _ hm) rfl
  · exact fun hp => hlpost it hm it hp rfl

theorem standing_of_key (h : SlotInvariant b) (hc : CoreInvariant (deref b)) {key : OrderKey}
    (hk : b.ordersByKey key = some it) : it ∈ used b ∧ ∃ pre level post, Standing b it pre level post :=
  ⟨h.queued key it hk, exists_standing h hc (h.queued key it hk)⟩

def without (it : OrderIterator) (quantity : Int) (pre : List (PriceLevel OrderIterator))
    (level : PriceLevel OrderIterator) (post : List (PriceLevel OrderIterator)) :
    List (PriceLevel OrderIterator) :=
  if (level.orders.erase it).isEmpty then pre ++ post
  else pre ++ eraseOrder it quantity level :: post

variable {pre post : List (PriceLevel OrderIterator)} {level : PriceLevel OrderIterator}

theorem unlink_eq (hc : CoreInvariant (deref b)) (hit : it ∈ used b) (hst : Standing b it pre level post) :
    unlink it b = setLevels b (get b.slotPool it).side
      (without it (get b.slotPool it).quantity pre level post) := by
  have hpos : 0 < (get b.slotPool it).quantity := hc.positive _ (get_mem_allOrders hit)
  have hsorted := (hc.side (get b.slotPool it).side).sorted
  rw [sideLevels_deref, map_price_map, hst.split] at hsorted
  have hfind := findLevelIndex_eq hsorted
  rw [hst.price_eq] at hfind
  have horders : (eraseOrder it (get b.slotPool it).quantity level).orders = level.orders.erase it := by
    simp [eraseOrder, hst.mem]
  simp only [unlink, if_pos hpos, hst.split, hfind, modify_split, removeEmptyLevel_split, horders,
    without]
  rw [if_pos (by simp)]

theorem resting_without (quantity : Int) (hst : Standing b it pre level post) :
    resting (without it quantity pre level post) =
      resting pre ++ (level.orders.erase it ++ resting post) := by
  rw [without]
  split_ifs with he
  · rw [List.isEmpty_iff.mp he, resting_append, List.nil_append]
  · simp [eraseOrder, hst.mem]

theorem without_perm (quantity : Int) (hst : Standing b it pre level post) :
    (it :: resting (without it quantity pre level post)).Perm
      (resting (levels b (get b.slotPool it).side)) := by
  rw [resting_without quantity hst, hst.split, resting_append, resting_cons]
  apply List.perm_middle.symm.trans
  apply List.Perm.append_left
  exact (List.perm_cons_erase hst.mem).symm.append_right _

theorem Standing.used_of_split (hst : Standing b it pre level post) {jt : OrderIterator}
    (hj : jt ∈ resting (pre ++ level :: post)) : jt ∈ used b := by
  rw [mem_used (get b.slotPool it).side, hst.split]
  exact Or.inl hj

theorem Standing.used_of_level (hst : Standing b it pre level post) {jt : OrderIterator}
    (hj : jt ∈ level.orders) : jt ∈ used b := by
  apply hst.used_of_split
  rw [resting_append, resting_cons]
  exact List.mem_append_right _ (List.mem_append_left _ hj)

section Reading

variable (hc : CoreInvariant (deref b)) (hit : it ∈ used b) (hst : Standing b it pre level post)
include hc hit hst

theorem absent_before : ∀ p ∈ resting (pre.map (mapLevel (get b.slotPool))),
    p.sequence ≠ (get b.slotPool it).sequence := by
  rw [resting_map]
  intro p hp he
  obtain ⟨jt, hjt, rfl⟩ := List.mem_map.mp hp
  have hused : jt ∈ used b := by
    apply hst.used_of_split
    rw [resting_append]
    exact List.mem_append_left _ hjt
  exact hst.not_pre (slot_inj hc hused hit he ▸ hjt)

theorem find_instance : (mapLevel (get b.slotPool) level).orders.find?
    (fun p => p.sequence = (get b.slotPool it).sequence) = some (get b.slotPool it) := by
  rw [mapLevel_orders]
  cases hf : (level.orders.map (get b.slotPool)).find?
    (fun p => p.sequence = (get b.slotPool it).sequence) with
  | none =>
      have hn := List.find?_eq_none.mp hf _ (List.mem_map_of_mem hst.mem)
      exact absurd (decide_eq_true rfl) hn
  | some o =>
      obtain ⟨jt, hjt, rfl⟩ := List.mem_map.mp (List.mem_of_find?_eq_some hf)
      have hs := List.find?_some hf
      rw [slot_inj hc (hst.used_of_level hjt) hit (by simpa using hs)]

theorem erase_reads : (level.orders.erase it).map (get b.slotPool) =
    (level.orders.map (get b.slotPool)).filter
      (fun p => p.sequence ≠ (get b.slotPool it).sequence) := by
  rw [hst.nodup.erase_eq_filter, List.filter_map]
  apply congrArg (List.map (get b.slotPool))
  apply List.filter_congr
  intro jt hjt
  by_cases hj : jt = it
  · simp [hj]
  · have hne : (get b.slotPool jt).sequence ≠ (get b.slotPool it).sequence :=
      fun he => hj (slot_inj hc (hst.used_of_level hjt) hit he)
    simp [hj, hne]

theorem without_reads : (without it (get b.slotPool it).quantity pre level post).map
      (mapLevel (get b.slotPool)) =
    removeInstance (get b.slotPool it).sequence
      ((levels b (get b.slotPool it).side).map (mapLevel (get b.slotPool))) := by
  rw [hst.split, List.map_append, List.map_cons,
    removeInstance_split (absent_before hc hit hst) (find_instance hc hit hst), mapLevel_orders,
    ← erase_reads hc hit hst, List.isEmpty_map, without]
  split_ifs
  · rw [List.map_append]
  · rw [List.map_append, List.map_cons]
    simp [eraseOrder, hst.mem, mapLevel]

end Reading

section Cancel

variable (hc : CoreInvariant (deref b)) (hk : b.ordersByKey key = some it) (hit : it ∈ used b)
  (hst : Standing b it pre level post)
include hc hk hit hst

theorem cancelOrder_eq :
    cancelOrder key b =
      { setLevels b (get b.slotPool it).side
          (without it (get b.slotPool it).quantity pre level post) with
        slotPool := release (set b.slotPool it { get b.slotPool it with quantity := 0 }) it
        ordersByKey := Function.update b.ordersByKey key none } := by
  simp only [cancelOrder, hk, retire, unlink_eq hc hit hst, setLevels_slotPool, setLevels_ordersByKey]

theorem cancelOrder_own :
    levels (cancelOrder key b) (get b.slotPool it).side =
      without it (get b.slotPool it).quantity pre level post := by
  rw [cancelOrder_eq hc hk hit hst]
  cases (get b.slotPool it).side <;> rfl

theorem cancelOrder_opposite :
    levels (cancelOrder key b) (get b.slotPool it).side.opposite =
      levels b (get b.slotPool it).side.opposite := by
  rw [cancelOrder_eq hc hk hit hst]
  cases (get b.slotPool it).side <;> rfl

theorem cancelOrder_used :
    (it :: used (cancelOrder key b)).Perm (used b) := by
  have hp := used_perm (cancelOrder key b) (get b.slotPool it).side
  rw [cancelOrder_own hc hk hit hst, cancelOrder_opposite hc hk hit hst] at hp
  apply (hp.cons it).trans
  exact ((without_perm _ hst).append_right _).trans (used_perm b _).symm

theorem cancelOrder_get {jt : OrderIterator} (hj : it ≠ jt) :
    get (cancelOrder key b).slotPool jt = get b.slotPool jt := by
  rw [cancelOrder_eq hc hk hit hst]
  exact get_set_of_ne b.slotPool hj _

theorem cancelOrder_ordersByKey :
    (cancelOrder key b).ordersByKey = Function.update b.ordersByKey key none := by
  rw [cancelOrder_eq hc hk hit hst]

theorem ne_of_mem_rest (h : SlotInvariant b) {jt : OrderIterator} (hj : jt ∈ used (cancelOrder key b)) :
    it ≠ jt := by
  have hn := (cancelOrder_used hc hk hit hst).nodup_iff.mpr (Owns.used_nodup h.owned)
  rintro rfl
  exact (List.nodup_cons.mp hn).1 hj

/-- The slot keeps its number until it is handed out again. -/
theorem cancelOrder_sequence (h : SlotInvariant b) (jt : OrderIterator) :
    (get (cancelOrder key b).slotPool jt).sequence = (get b.slotPool jt).sequence := by
  rw [cancelOrder_eq hc hk hit hst, get_release]
  by_cases hj : it = jt
  · subst hj
    rw [get_set_self (owned_lt h.owned hit)]
  · rw [get_set_of_ne b.slotPool hj]

theorem cancelOrder_instances (h : SlotInvariant b) : (deref (cancelOrder key b)).instances =
    Function.update (deref b).instances key none := by
  funext k
  change ((cancelOrder key b).ordersByKey k).map _ = _
  simp only [cancelOrder_sequence hc hk hit hst h]
  rw [cancelOrder_ordersByKey hc hk hit hst]
  by_cases hkey : k = key
  · subst hkey
    rw [Function.update_self, Function.update_self]
    rfl
  · rw [Function.update_of_ne hkey, Function.update_of_ne hkey]
    rfl

theorem cancelOrder_reads (h : SlotInvariant b) (s : Side) :
    sideLevels (deref (cancelOrder key b)) s =
      (levels (cancelOrder key b) s).map (mapLevel (get b.slotPool)) := by
  rw [sideLevels_deref]
  apply mapLevel_congr
  intro jt hj
  exact cancelOrder_get hc hk hit hst
    (ne_of_mem_rest hc hk hit hst h ((mem_used s).mpr (Or.inl hj)))

end Cancel

theorem absent_opposite (h : SlotInvariant b) (hc : CoreInvariant (deref b)) (hit : it ∈ used b) :
    ∀ o ∈ resting (sideLevels (deref b) (get b.slotPool it).side.opposite),
      o.sequence ≠ (get b.slotPool it).sequence := by
  rw [resting_deref]
  intro o ho he
  obtain ⟨jt, hjt, rfl⟩ := List.mem_map.mp ho
  have hj := slot_inj hc ((mem_used _).mpr (Or.inr hjt)) hit he
  subst hj
  exact h.one_side (own_side hc hit) hjt

theorem deref_cancelOrder (h : SlotInvariant b) (hc : CoreInvariant (deref b)) (key : OrderKey) :
    deref (cancelOrder key b) = cancelled key (deref b) := by
  cases hk : b.ordersByKey key with
  | none => simp [cancelOrder, hk, cancelled, deref]
  | some it =>
      obtain ⟨hit, pre, level, post, hst⟩ := standing_of_key h hc hk
      have hi : (deref b).instances key = some (get b.slotPool it).sequence := by simp [deref, hk]
      apply referenceBook_ext (get b.slotPool it).side
      · rw [cancelOrder_reads hc hk hit hst h, cancelOrder_own hc hk hit hst, sideLevels_cancelled hi,
          sideLevels_deref]
        exact without_reads hc hit hst
      · rw [cancelOrder_reads hc hk hit hst h, cancelOrder_opposite hc hk hit hst, sideLevels_cancelled hi,
          removeInstance_absent (absent_opposite h hc hit), sideLevels_deref]
      · rw [cancelOrder_instances hc hk hit hst h, cancelled, hi]
      all_goals
        rw [cancelOrder_eq hc hk hit hst]
        simp only [cancelled, hi]
        cases (get b.slotPool it).side <;> rfl

theorem cancelOrder_slots (h : SlotInvariant b) (hc : CoreInvariant (deref b)) (key : OrderKey) :
    SlotInvariant (cancelOrder key b) := by
  cases hk : b.ordersByKey key with
  | none => rwa [cancelOrder, hk]
  | some it =>
      obtain ⟨hit, pre, level, post, hst⟩ := standing_of_key h hc hk
      have hused := cancelOrder_used hc hk hit hst
      constructor
      · have ho : Owns (used (cancelOrder key b)) (it :: b.slotPool.freeList)
            b.slotPool.storage.length :=
          Owns.release h.owned ((List.perm_append_singleton it _).trans hused) (List.Perm.refl _)
        rw [Owned, cancelOrder_eq hc hk hit hst, release_freeList, release_storage, set_freeList,
          set_length, ← cancelOrder_eq hc hk hit hst]
        exact ho
      · intro k jt hkj
        rw [cancelOrder_ordersByKey hc hk hit hst] at hkj
        by_cases hkey : k = key
        · subst hkey
          rw [Function.update_self] at hkj
          cases hkj
        · rw [Function.update_of_ne hkey] at hkj
          have hjt := h.queued k jt hkj
          rcases List.mem_cons.mp (hused.mem_iff.mpr hjt) with rfl | hj
          · -- one instance has one key
            exfalso
            exact hkey ((h.key_eq hc hkj).symm.trans (h.key_eq hc hk))
          · exact hj

end Orderbook.SlotCancel

import Orderbook.Reference

namespace Orderbook.Simulation

open Domain SlotPool Ladder Matching Reference Library.QueueFill

section Settle

variable (w : Walk) (it : OrderIterator)

theorem settle_get_of_ne {jt : OrderIterator} (h : it ≠ jt) :
    get (settle w it).slotPool jt = get w.slotPool jt := by
  rw [settle]
  split_ifs <;> simp [get_set_of_ne w.slotPool h]

theorem settle_get_self (h : it < w.slotPool.storage.length) :
    get (settle w it).slotPool it = reduced w it := by
  rw [settle]
  split_ifs <;> simp [get_set_self h]

@[simp] theorem settle_length :
    (settle w it).slotPool.storage.length = w.slotPool.storage.length := by
  rw [settle]
  split_ifs <;> simp

theorem settle_freeList : (settle w it).slotPool.freeList =
    if (reduced w it).quantity = 0 then it :: w.slotPool.freeList else w.slotPool.freeList := by
  rw [settle]
  split_ifs <;> rfl

theorem settle_ordersByKey : (settle w it).ordersByKey =
    if (reduced w it).quantity = 0 then
      Function.update w.ordersByKey (reduced w it).key none else w.ordersByKey := by
  rw [settle]
  split_ifs <;> rfl

end Settle

/-- What a loop over the slots `dq` may do to the pool when it leaves the slots `dq'`:
it changes quantities in `dq` only, and what left the queue went to the free list. -/
structure Consumed (p : OrderSlotPool) (dq : List OrderIterator) (p' : OrderSlotPool)
    (dq' : List OrderIterator) : Prop where
  length : p'.storage.length = p.storage.length
  outside : ∀ it, it ∉ dq → get p' it = get p it
  identity : ∀ it, ∃ q, get p' it = { get p it with quantity := q }
  freed : ∃ gone, (dq' ++ gone).Perm dq ∧ p'.freeList.Perm (gone ++ p.freeList)

theorem Consumed.refl (p : OrderSlotPool) (dq : List OrderIterator) : Consumed p dq p dq where
  length := rfl
  outside _ _ := rfl
  identity it := ⟨(get p it).quantity, rfl⟩
  freed := ⟨[], by simp, by simp⟩

theorem Consumed.lt_length {p p' : OrderSlotPool} {dq dq' its : List OrderIterator}
    (h : Consumed p dq p' dq') (hlt : ∀ it ∈ its, it < p.storage.length) :
    ∀ it ∈ its, it < p'.storage.length := by
  rw [h.length]
  exact hlt

theorem Consumed.append {p p₁ p₂ : OrderSlotPool} {dq₁ dq₂ dq₁' dq₂' : List OrderIterator}
    (h₁ : Consumed p dq₁ p₁ dq₁') (h₂ : Consumed p₁ dq₂ p₂ dq₂') :
    Consumed p (dq₁ ++ dq₂) p₂ (dq₁' ++ dq₂') where
  length := h₂.length.trans h₁.length
  outside it hit := by
    rw [List.mem_append, not_or] at hit
    exact (h₂.outside it hit.2).trans (h₁.outside it hit.1)
  identity it := by
    obtain ⟨q₁, hq₁⟩ := h₁.identity it
    obtain ⟨q₂, hq₂⟩ := h₂.identity it
    exact ⟨q₂, by rw [hq₂, hq₁]⟩
  freed := by
    obtain ⟨g₁, hg₁, hf₁⟩ := h₁.freed
    obtain ⟨g₂, hg₂, hf₂⟩ := h₂.freed
    refine ⟨g₂ ++ g₁, ?_, ?_⟩
    · have hm : (dq₁' ++ dq₂' ++ (g₂ ++ g₁)).Perm (dq₁' ++ g₁ ++ (dq₂' ++ g₂)) := by
        rw [List.append_assoc, List.append_assoc]
        apply List.Perm.append_left
        rw [← List.append_assoc]
        exact List.perm_append_comm
      exact hm.trans (hg₁.append hg₂)
    · rw [List.append_assoc]
      exact hf₂.trans (hf₁.append_left g₂)

theorem Consumed.of_settle (w : Walk) {it : OrderIterator} (h : it < w.slotPool.storage.length) :
    Consumed w.slotPool [it] (settle w it).slotPool
      (if (reduced w it).quantity = 0 then [] else [it]) where
  length := settle_length w it
  outside jt hjt := settle_get_of_ne w it (fun he => hjt (List.mem_singleton.mpr he.symm))
  identity jt := by
    by_cases hj : it = jt
    · subst hj
      exact ⟨_, settle_get_self w it h⟩
    · exact ⟨_, settle_get_of_ne w it hj⟩
  freed := by
    rw [settle_freeList]
    by_cases hr : (reduced w it).quantity = 0
    · exact ⟨[it], by simp [hr], by simp [hr]⟩
    · exact ⟨[], by simp [hr], by simp [hr]⟩

/-- The scan of a queue of slots, read through the pool, is the service of the queue of
orders: `served` is what the reference loop computes. -/
structure ScanReads (side : Side) (incoming : Order) (dq : List OrderIterator) (total : Int) (w : Walk)
    (scan : Scan) (served : Filled Order) : Prop where
  queue : scan.queue.map (get scan.walk.slotPool) = served.kept
  left : scan.walk.incomingQty = served.left
  total_eq : scan.totalQuantity = total - takenSum served.fills
  lines : scan.lines = served.fills.map (fun f => emitFill side incoming f.item f.taken)
  keys : scan.walk.ordersByKey = forget served.fills w.ordersByKey
  pool : Consumed w.slotPool dq scan.walk.slotPool scan.queue

theorem fill_take_reads {user : Int} (w : Walk) (it : OrderIterator) (dq : List OrderIterator)
    (hq : 0 < w.incomingQty) (hu : (get w.slotPool it).userId ≠ user) :
    fill (orderRule user) w.incomingQty ((it :: dq).map (get w.slotPool)) =
      ⟨if (reduced w it).quantity = 0 then
          (fill (orderRule user) (w.incomingQty - tradeQty w it) (dq.map (get w.slotPool))).kept
        else reduced w it ::
          (fill (orderRule user) (w.incomingQty - tradeQty w it) (dq.map (get w.slotPool))).kept,
        (fill (orderRule user) (w.incomingQty - tradeQty w it) (dq.map (get w.slotPool))).left,
        ⟨reduced w it, tradeQty w it⟩ ::
          (fill (orderRule user) (w.incomingQty - tradeQty w it) (dq.map (get w.slotPool))).fills⟩ := by
  rw [List.map_cons, fill, if_pos hq, if_neg (by simpa using hu)]
  rfl

section QueueStep

variable (side : Side) (incoming : Order) {it : OrderIterator} {dq : List OrderIterator} {total : Int} {w : Walk}

theorem matchQueue_reads_skip (hd : it ∉ dq) (hq : 0 < w.incomingQty)
    (hu : (get w.slotPool it).userId = incoming.userId)
    (hi : ScanReads side incoming dq total w (matchQueue side incoming dq total w)
      (fill (orderRule incoming.userId) w.incomingQty (dq.map (get w.slotPool)))) :
    ScanReads side incoming (it :: dq) total w (matchQueue side incoming (it :: dq) total w)
      (fill (orderRule incoming.userId) w.incomingQty ((it :: dq).map (get w.slotPool))) := by
  rw [matchQueue_skip side incoming it dq total hq hu, List.map_cons,
    fill_skip _ hq (by simpa using hu)]
  refine ⟨?_, hi.left, hi.total_eq, hi.lines, hi.keys, ?_⟩
  · rw [List.map_cons, hi.queue, hi.pool.outside it hd]
  · exact (Consumed.refl w.slotPool [it]).append hi.pool

theorem settle_reads (hd : it ∉ dq) :
    dq.map (get (settle w it).slotPool) = dq.map (get w.slotPool) := by
  apply List.map_congr_left
  intro jt hjt
  exact settle_get_of_ne w it (fun he => hd (he ▸ hjt))

theorem matchQueue_reads_trade (hd : it ∉ dq) (hit : it < w.slotPool.storage.length)
    (hq : 0 < w.incomingQty) (hu : (get w.slotPool it).userId ≠ incoming.userId)
    (hi : ScanReads side incoming dq (total - tradeQty w it) (settle w it)
      (matchQueue side incoming dq (total - tradeQty w it) (settle w it))
      (fill (orderRule incoming.userId) (settle w it).incomingQty (dq.map (get (settle w it).slotPool)))) :
    ScanReads side incoming (it :: dq) total w (matchQueue side incoming (it :: dq) total w)
      (fill (orderRule incoming.userId) w.incomingQty ((it :: dq).map (get w.slotPool))) := by
  rw [settle_reads hd, settle_incomingQty] at hi
  have hself : get (matchQueue side incoming dq (total - tradeQty w it)
      (settle w it)).walk.slotPool it = reduced w it := by
    rw [hi.pool.outside it hd, settle_get_self w it hit]
  have hpool := (Consumed.of_settle w hit).append hi.pool
  rw [matchQueue_trade side incoming it dq total hq hu, fill_take_reads w it dq hq hu]
  refine ⟨?_, hi.left, ?_, ?_, ?_, ?_⟩
  · by_cases hr : (reduced w it).quantity = 0
    · simp only [if_pos hr, hi.queue]
    · simp only [if_neg hr, List.map_cons, hself, hi.queue]
  · simp only [takenSum_cons, hi.total_eq]
    omega
  · simp only [List.map_cons, hi.lines]
  · simp only [hi.keys, settle_ordersByKey, forget]
  · by_cases hr : (reduced w it).quantity = 0
    · simpa only [if_pos hr, List.singleton_append, List.nil_append] using hpool
    · simpa only [if_neg hr, List.singleton_append] using hpool

end QueueStep

theorem matchQueue_reads (side : Side) (incoming : Order) (dq : List OrderIterator) (total : Int)
    (w : Walk) (hd : dq.Nodup) (hlt : ∀ it ∈ dq, it < w.slotPool.storage.length) :
    ScanReads side incoming dq total w (matchQueue side incoming dq total w)
      (fill (orderRule incoming.userId) w.incomingQty (dq.map (get w.slotPool))) := by
  induction dq generalizing total w with
  | nil => exact ⟨rfl, rfl, by simp [matchQueue], rfl, rfl, Consumed.refl _ _⟩
  | cons it dq ih =>
      rw [List.nodup_cons] at hd
      have hit : it < w.slotPool.storage.length := hlt it List.mem_cons_self
      have htail : ∀ jt ∈ dq, jt < w.slotPool.storage.length :=
        fun jt hjt => hlt jt (List.mem_cons_of_mem it hjt)
      by_cases hq : 0 < w.incomingQty
      · by_cases hu : (get w.slotPool it).userId = incoming.userId
        · exact matchQueue_reads_skip side incoming hd.1 hq hu (ih total w hd.2 htail)
        · apply matchQueue_reads_trade side incoming hd.1 hit hq hu
          exact ih _ (settle w it) hd.2 (fun jt hjt => by rw [settle_length]; exact htail jt hjt)
      · rw [matchQueue_done side incoming _ total (by omega), fill_done _ (by omega)]
        exact ⟨rfl, rfl, by simp, rfl, rfl, Consumed.refl _ _⟩

/-- The outer loops with the levels they admit as a parameter. -/
def sweepLevels (within : Int → Bool) (side : Side) (incoming : Order) :
    List (PriceLevel OrderIterator) → Walk → Sweep
  | [], w => ⟨[], w, []⟩
  | level :: rest, w =>
      if 0 < w.incomingQty ∧ within level.price = true then
        let scan := matchQueue side incoming level.orders level.totalQuantity w
        if scan.queue.isEmpty then
          let sweep := sweepLevels within side incoming rest scan.walk
          { sweep with lines := scan.lines ++ sweep.lines }
        else ⟨scanned level scan :: rest, scan.walk, scan.lines⟩
      else ⟨level :: rest, w, []⟩

section User

variable (side : Side) {incoming incoming' : Order} (hu : incoming.userId = incoming'.userId)
include hu

/-- Of the incoming order itself a loop looks at the user only. -/
theorem matchQueue_user (dq : List OrderIterator) (total : Int) (w : Walk) :
    (matchQueue side incoming dq total w).queue = (matchQueue side incoming' dq total w).queue ∧
      (matchQueue side incoming dq total w).totalQuantity =
        (matchQueue side incoming' dq total w).totalQuantity ∧
      (matchQueue side incoming dq total w).walk = (matchQueue side incoming' dq total w).walk := by
  induction dq generalizing total w with
  | nil => exact ⟨rfl, rfl, rfl⟩
  | cons it dq ih =>
      by_cases hq : 0 < w.incomingQty
      · by_cases hown : (get w.slotPool it).userId = incoming.userId
        · obtain ⟨hqueue, hrest⟩ := ih total w
          rw [matchQueue_skip side incoming it dq total hq hown,
            matchQueue_skip side incoming' it dq total hq (hown.trans hu)]
          exact ⟨congrArg (List.cons it) hqueue, hrest⟩
        · obtain ⟨hqueue, hrest⟩ := ih (total - tradeQty w it) (settle w it)
          rw [matchQueue_trade side incoming it dq total hq hown,
            matchQueue_trade side incoming' it dq total hq (hu ▸ hown)]
          refine ⟨?_, hrest⟩
          simp only [hqueue]
      · rw [matchQueue_done side incoming _ total (Int.not_lt.mp hq),
          matchQueue_done side incoming' _ total (Int.not_lt.mp hq)]
        exact ⟨rfl, rfl, rfl⟩

theorem sweepLevels_user (within : Int → Bool) (levels : List (PriceLevel OrderIterator)) (w : Walk) :
    (sweepLevels within side incoming levels w).levels = (sweepLevels within side incoming' levels w).levels ∧
      (sweepLevels within side incoming levels w).walk =
        (sweepLevels within side incoming' levels w).walk := by
  induction levels generalizing w with
  | nil => exact ⟨rfl, rfl⟩
  | cons level rest ih =>
      by_cases hgo : 0 < w.incomingQty ∧ within level.price = true
      · obtain ⟨hqueue, htotal, hwalk⟩ := matchQueue_user side hu level.orders level.totalQuantity w
        simp only [sweepLevels, if_pos hgo, hqueue, hwalk, scanned, htotal]
        split_ifs
        · exact ih _
        · exact ⟨rfl, rfl⟩
      · rw [sweepLevels, if_neg hgo, sweepLevels, if_neg hgo]
        exact ⟨rfl, rfl⟩

end User

theorem matchLevels_eq_sweep (side : Side) (incoming : Order) (levels : List (PriceLevel OrderIterator))
    (w : Walk) :
    matchLevels side incoming levels w = sweepLevels (fun _ => true) side incoming levels w := by
  induction levels generalizing w with
  | nil => rfl
  | cons level rest ih => simp only [matchLevels, sweepLevels, ih, and_true]

theorem matchQueue_own (side : Side) (incoming : Order) (dq : List OrderIterator) (total : Int) (w : Walk)
    (h : ∀ it ∈ dq, (get w.slotPool it).userId = incoming.userId) :
    matchQueue side incoming dq total w = ⟨dq, total, w, []⟩ := by
  induction dq with
  | nil => rfl
  | cons it dq ih =>
      by_cases hq : 0 < w.incomingQty
      · rw [matchQueue_skip side incoming it dq total hq (h it List.mem_cons_self),
          ih (fun jt hjt => h jt (List.mem_cons_of_mem it hjt))]
      · exact matchQueue_done side incoming _ total (by omega)

theorem matchLevelsLimit_own (side : Side) (incoming : Order) {limit : Int}
    {level : PriceLevel OrderIterator} {w : Walk} (hp : exceedsLimit side level.price limit = false)
    (hne : ¬ level.orders.isEmpty = true)
    (hown : ∀ it ∈ level.orders, (get w.slotPool it).userId = incoming.userId)
    (rest : List (PriceLevel OrderIterator)) :
    matchLevelsLimit side incoming limit (level :: rest) w = ⟨level :: rest, w, []⟩ := by
  have hscan := matchQueueLimit_eq side incoming level.orders level.totalQuantity false w
  rw [Bool.not_false, matchQueue_own side incoming level.orders _ _ hown] at hscan
  rw [matchLevelsLimit]
  by_cases hw : 0 < w.incomingQty
  · simp [hw, hp, hscan, hne, scanned]
  · rw [if_neg hw]

theorem ScanReads.own {side : Side} {incoming : Order} {dq ds : List OrderIterator} {total : Int} {w : Walk}
    {scan : Scan} {q : Int} {p : OrderSlotPool}
    (h : ScanReads side incoming dq total w scan (fill (orderRule incoming.userId) q (ds.map (get p))))
    (hq : 0 < scan.walk.incomingQty) :
    ∀ it ∈ scan.queue, (get scan.walk.slotPool it).userId = incoming.userId := by
  intro it hit
  have hk := (kept_of_left_pos (orderRule incoming.userId) (h.left ▸ hq)).1
  have hm : get scan.walk.slotPool it ∈ scan.queue.map (get scan.walk.slotPool) :=
    List.mem_map_of_mem hit
  rw [h.queue, hk] at hm
  simpa using List.of_mem_filter hm

/-- The first visit of the limit loop to a level decides everything: a second visit finds
own orders only. -/
theorem matchLevelsLimit_cons (side : Side) (incoming : Order) (limit : Int)
    (level : PriceLevel OrderIterator) (rest : List (PriceLevel OrderIterator)) (w : Walk)
    (hw : 0 < w.incomingQty) (hp : exceedsLimit side level.price limit = false)
    (hd : level.orders.Nodup) (hlt : ∀ it ∈ level.orders, it < w.slotPool.storage.length) :
    matchLevelsLimit side incoming limit (level :: rest) w =
      let scan := matchQueue side incoming level.orders level.totalQuantity w
      if scan.queue.isEmpty then
        { matchLevelsLimit side incoming limit rest scan.walk with
          lines := scan.lines ++ (matchLevelsLimit side incoming limit rest scan.walk).lines }
      else ⟨scanned level scan :: rest, scan.walk, scan.lines⟩ := by
  have hscan := matchQueueLimit_eq side incoming level.orders level.totalQuantity false w
  have hreads := matchQueue_reads side incoming level.orders level.totalQuantity w hd hlt
  simp only [Bool.not_false, Bool.false_or, Bool.true_and] at hscan
  rw [matchLevelsLimit]
  simp only [hw, if_true, hp, hscan, Bool.false_eq_true, if_false]
  generalize matchQueue side incoming level.orders level.totalQuantity w = scan at hreads ⊢
  by_cases he : scan.queue.isEmpty = true
  · simp only [he, if_true]
  · -- orders are left: without a trade the loop ends here, after one it scans again
    by_cases hl : scan.lines.isEmpty = true
    · simp [he, hl]
    · have hagain : matchLevelsLimit side incoming limit (scanned level scan :: rest) scan.walk =
          ⟨scanned level scan :: rest, scan.walk, []⟩ := by
        have hprice : exceedsLimit side (scanned level scan).price limit = false := hp
        by_cases hq : 0 < scan.walk.incomingQty
        · exact matchLevelsLimit_own side incoming hprice he (hreads.own hq) rest
        · rw [matchLevelsLimit, if_neg hq]
      simp only [he, hl, Bool.not_false, Bool.false_eq_true, if_false, hagain, List.append_nil,
        Bool.true_eq_false]

theorem sweepLevels_cons (within : Int → Bool) (side : Side) (incoming : Order)
    (level : PriceLevel OrderIterator) (rest : List (PriceLevel OrderIterator)) (w : Walk)
    (hw : 0 < w.incomingQty) (hp : within level.price = true) :
    sweepLevels within side incoming (level :: rest) w =
      let scan := matchQueue side incoming level.orders level.totalQuantity w
      if scan.queue.isEmpty then
        { sweepLevels within side incoming rest scan.walk with
          lines := scan.lines ++ (sweepLevels within side incoming rest scan.walk).lines }
      else ⟨scanned level scan :: rest, scan.walk, scan.lines⟩ := by
  rw [sweepLevels, if_pos ⟨hw, hp⟩]

theorem matchLevelsLimit_eq_sweep (side : Side) (incoming : Order) (limit : Int)
    (levels : List (PriceLevel OrderIterator)) (w : Walk) (hd : (resting levels).Nodup)
    (hlt : ∀ it ∈ resting levels, it < w.slotPool.storage.length) :
    matchLevelsLimit side incoming limit levels w =
      sweepLevels (fun p => !exceedsLimit side p limit) side incoming levels w := by
  induction levels generalizing w with
  | nil => rw [matchLevelsLimit, sweepLevels]
  | cons level rest ih =>
      rw [resting_cons, List.nodup_append] at hd
      obtain ⟨hlevel, hrest⟩ := forall_resting_cons.mp hlt
      by_cases hw : 0 < w.incomingQty
      · cases hp : exceedsLimit side level.price limit with
        | true =>
            rw [matchLevelsLimit, sweepLevels]
            simp [hp]
        | false =>
            have hpool := (matchQueue_reads side incoming level.orders level.totalQuantity w
              hd.1 hlevel).pool
            have hi := ih (matchQueue side incoming level.orders level.totalQuantity w).walk hd.2.1
              (hpool.lt_length hrest)
            rw [matchLevelsLimit_cons side incoming limit level rest w hw hp hd.1 hlevel,
              sweepLevels_cons _ side incoming level rest w hw (by simp [hp])]
            simp only [hi]
      · rw [matchLevelsLimit, sweepLevels]
        simp [hw]

structure SweepReads (side : Side) (incoming : Order) (levels : List (PriceLevel OrderIterator)) (w : Walk)
    (sweep : Sweep) (walked : Walked) : Prop where
  levels_eq : sweep.levels.map (mapLevel (get sweep.walk.slotPool)) = walked.levels
  left : sweep.walk.incomingQty = walked.left
  lines : sweep.lines = walked.fills.map (fun f => emitFill side incoming f.item f.taken)
  keys : sweep.walk.ordersByKey = forget walked.fills w.ordersByKey
  pool : Consumed w.slotPool (resting levels) sweep.walk.slotPool (resting sweep.levels)

theorem ScanReads.rest_reads {side : Side} {incoming : Order} {dq : List OrderIterator} {total : Int}
    {w : Walk} {scan : Scan} {served : Filled Order} (h : ScanReads side incoming dq total w scan served)
    {rest : List (PriceLevel OrderIterator)} (hdisj : ∀ it ∈ resting rest, it ∉ dq) :
    rest.map (mapLevel (get scan.walk.slotPool)) = rest.map (mapLevel (get w.slotPool)) := by
  apply mapLevel_congr
  intro it hit
  exact h.pool.outside it (hdisj it hit)

theorem ScanReads.isEmpty_iff {side : Side} {incoming : Order} {dq : List OrderIterator} {total : Int}
    {w : Walk} {scan : Scan} {served : Filled Order} (h : ScanReads side incoming dq total w scan served) :
    scan.queue.isEmpty = true ↔ served.kept.isEmpty = true := by
  rw [← h.queue, List.isEmpty_map]

/-- The sweep of slot levels, read through the pool, is the walk over order levels. -/
theorem sweepLevels_reads (within : Int → Bool) (side : Side) (incoming : Order)
    (levels : List (PriceLevel OrderIterator)) (w : Walk) (hd : (resting levels).Nodup)
    (hlt : ∀ it ∈ resting levels, it < w.slotPool.storage.length) :
    SweepReads side incoming levels w (sweepLevels within side incoming levels w)
      (walkLevels within incoming.userId w.incomingQty (levels.map (mapLevel (get w.slotPool)))) := by
  induction levels generalizing w with
  | nil => exact ⟨rfl, rfl, rfl, rfl, Consumed.refl _ _⟩
  | cons level rest ih =>
      rw [resting_cons, List.nodup_append] at hd
      obtain ⟨hdl, hdr, hdisj⟩ := hd
      obtain ⟨hlevel, hbelow⟩ := forall_resting_cons.mp hlt
      by_cases hgo : 0 < w.incomingQty ∧ within level.price = true
      · have hreads := matchQueue_reads side incoming level.orders level.totalQuantity w hdl hlevel
        rw [sweepLevels_cons within side incoming level rest w hgo.1 hgo.2, List.map_cons, walkLevels,
          mapLevel_price, if_pos hgo, mapLevel_orders]
        generalize matchQueue side incoming level.orders level.totalQuantity w = scan at hreads ⊢
        have hrest := hreads.rest_reads (fun it hit hm => hdisj it hm it hit rfl)
        by_cases he : scan.queue.isEmpty = true
        · have hi := ih scan.walk hdr (hreads.pool.lt_length hbelow)
          rw [hrest, hreads.left] at hi
          simp only [if_pos he, if_pos (hreads.isEmpty_iff.mp he)]
          refine ⟨hi.levels_eq, hi.left, ?_, ?_, ?_⟩
          · simp only [hi.lines, hreads.lines, List.map_append]
          · simp only [hi.keys, hreads.keys, forget_append]
          · have hpool := hreads.pool.append hi.pool
            rwa [List.isEmpty_iff.mp he, List.nil_append] at hpool
        · simp only [if_neg he, if_neg (fun h => he (hreads.isEmpty_iff.mpr h))]
          refine ⟨?_, hreads.left, hreads.lines, hreads.keys, ?_⟩
          · simp only [List.map_cons, hrest, scanned, mapLevel, hreads.queue, hreads.total_eq]
          · exact hreads.pool.append (Consumed.refl _ _)
      · rw [sweepLevels, if_neg hgo, List.map_cons, walkLevels, mapLevel_price, if_neg hgo]
        exact ⟨rfl, rfl, rfl, rfl, Consumed.refl _ _⟩

end Orderbook.Simulation

import Orderbook.ReferenceWalk

namespace Orderbook.ReferenceInvariant

open Domain Ladder Book Reference ReferenceWalk Library.QueueFill Library.SortedSearch

structure LevelInvariant (s : Side) (next : Nat) (level : PriceLevel Order) : Prop where
  nonempty : level.orders ≠ []
  price_eq : ∀ o ∈ level.orders, o.price = level.price
  side_eq : ∀ o ∈ level.orders, o.side = s
  positive : ∀ o ∈ level.orders, 0 < o.quantity
  total_eq : level.totalQuantity = (level.orders.map Order.quantity).sum
  fifo : (level.orders.map Order.sequence).Pairwise (· < ·)
  below : ∀ o ∈ level.orders, o.sequence < next

structure SideInvariant (s : Side) (next : Nat) (levels : List (PriceLevel Order)) : Prop where
  sorted : (levels.map PriceLevel.price).Pairwise s.ahead
  level : ∀ level ∈ levels, LevelInvariant s next level

def allOrders (b : ReferenceBook) : List Order := resting b.bids ++ resting b.asks

/-- What holds of the reference book at any point of a call. -/
structure CoreInvariant (b : ReferenceBook) : Prop where
  side : ∀ s, SideInvariant s b.nextSequence (sideLevels b s)
  unique : ((allOrders b).map Order.sequence).Nodup
  named : ∀ k n, b.instances k = some n → ∃ o ∈ allOrders b, o.sequence = n ∧ o.key = k

/-- Between two calls the cached tops are those of the book, too. -/
structure BookInvariant (b : ReferenceBook) : Prop extends CoreInvariant b where
  topBid : b.currentTopBid = computeTop b.bids
  topAsk : b.currentTopAsk = computeTop b.asks

theorem LevelInvariant.mono {s : Side} {next next' : Nat} {level : PriceLevel Order}
    (h : LevelInvariant s next level) (hn : next ≤ next') : LevelInvariant s next' level :=
  { h with below := fun o ho => Nat.lt_of_lt_of_le (h.below o ho) hn }

theorem LevelInvariant.total_pos {s : Side} {next : Nat} {level : PriceLevel Order}
    (h : LevelInvariant s next level) : 0 < level.totalQuantity := by
  rw [h.total_eq]
  apply List.sum_pos
  · intro q hq
    obtain ⟨o, ho, rfl⟩ := List.mem_map.mp hq
    exact h.positive o ho
  · simpa using h.nonempty

theorem SideInvariant.mono {s : Side} {next next' : Nat} {levels : List (PriceLevel Order)}
    (h : SideInvariant s next levels) (hn : next ≤ next') : SideInvariant s next' levels :=
  ⟨h.sorted, fun level hl => (h.level level hl).mono hn⟩

section Side

variable {s : Side} {next : Nat} {levels : List (PriceLevel Order)}

theorem SideInvariant.nil : SideInvariant s next [] := ⟨List.Pairwise.nil, by simp⟩

theorem SideInvariant.tail {level : PriceLevel Order} (h : SideInvariant s next (level :: levels)) :
    SideInvariant s next levels :=
  ⟨h.sorted.of_cons, fun m hm => h.level m (List.mem_cons_of_mem level hm)⟩

theorem SideInvariant.front_ahead {level : PriceLevel Order} (h : SideInvariant s next (level :: levels)) :
    ∀ o ∈ resting levels, s.ahead level.price o.price := by
  have hs := h.sorted
  rw [List.map_cons, List.pairwise_cons] at hs
  intro o ho
  obtain ⟨m, hm, hom⟩ := mem_resting.mp ho
  rw [(h.level m (List.mem_cons_of_mem level hm)).price_eq o hom]
  exact hs.1 m.price (List.mem_map_of_mem hm)

theorem SideInvariant.positive (h : SideInvariant s next levels) :
    ∀ o ∈ resting levels, 0 < o.quantity := by
  intro o ho
  obtain ⟨level, hl, hol⟩ := mem_resting.mp ho
  exact (h.level level hl).positive o hol

theorem SideInvariant.side_eq (h : SideInvariant s next levels) :
    ∀ o ∈ resting levels, o.side = s := by
  intro o ho
  obtain ⟨level, hl, hol⟩ := mem_resting.mp ho
  exact (h.level level hl).side_eq o hol

theorem SideInvariant.below (h : SideInvariant s next levels) :
    ∀ o ∈ resting levels, o.sequence < next := by
  intro o ho
  obtain ⟨level, hl, hol⟩ := mem_resting.mp ho
  exact (h.level level hl).below o hol

theorem LevelInvariant.served {level : PriceLevel Order} (h : LevelInvariant s next level) (user q : Int)
    (hk : (fill (orderRule user) q level.orders).kept ≠ []) :
    LevelInvariant s next
      { level with
        totalQuantity := level.totalQuantity - takenSum (fill (orderRule user) q level.orders).fills
        orders := (fill (orderRule user) q level.orders).kept } := by
  have hkept : ∀ p ∈ (fill (orderRule user) q level.orders).kept,
      0 < p.quantity ∧ ∃ o ∈ level.orders, p = { o with quantity := p.quantity } := by
    intro p hp
    rcases mem_kept (orderRule user) h.positive p hp with hp | ⟨o, ho, t, rfl, hq⟩
    · exact ⟨h.positive p hp, p, hp, rfl⟩
    · exact ⟨hq, o, ho, rfl⟩
  constructor
  · exact hk
  · intro p hp
    obtain ⟨_, o, ho, he⟩ := hkept p hp
    rw [he]
    exact h.price_eq o ho
  · intro p hp
    obtain ⟨_, o, ho, he⟩ := hkept p hp
    rw [he]
    exact h.side_eq o ho
  · exact fun p hp => (hkept p hp).1
  · have hsum := amountSum_kept (orderRule user) q level.orders
    have htotal := h.total_eq
    change level.totalQuantity = amountSum (orderRule user) level.orders at htotal
    change level.totalQuantity - takenSum (fill (orderRule user) q level.orders).fills =
      amountSum (orderRule user) (fill (orderRule user) q level.orders).kept
    omega
  · exact h.fifo.sublist (kept_labels (orderRule user) Order.sequence (fun _ _ => rfl) q level.orders)
  · intro p hp
    obtain ⟨_, o, ho, he⟩ := hkept p hp
    rw [he]
    exact h.below o ho

theorem walkLevels_prices (within : Int → Bool) (user q : Int) (levels : List (PriceLevel Order)) :
    ((walkLevels within user q levels).levels.map PriceLevel.price).Sublist
      (levels.map PriceLevel.price) := by
  induction levels generalizing q with
  | nil => exact List.Sublist.refl _
  | cons level rest ih =>
      rw [walkLevels]
      by_cases hgo : 0 < q ∧ within level.price = true
      · by_cases hk : (fill (orderRule user) q level.orders).kept.isEmpty = true
        · simp only [if_pos hgo, if_pos hk]
          exact (ih _).cons _
        · simp only [if_pos hgo, if_neg hk]
          exact List.Sublist.refl _
      · rw [if_neg hgo]

theorem SideInvariant.walked (h : SideInvariant s next levels) (within : Int → Bool) (user q : Int) :
    SideInvariant s next (walkLevels within user q levels).levels := by
  refine ⟨h.sorted.sublist (walkLevels_prices within user q levels), ?_⟩
  induction levels generalizing q with
  | nil => simp [walkLevels]
  | cons level rest ih =>
      rw [walkLevels]
      by_cases hgo : 0 < q ∧ within level.price = true
      · by_cases hk : (fill (orderRule user) q level.orders).kept.isEmpty = true
        · simp only [if_pos hgo, if_pos hk]
          exact ih h.tail _
        · simp only [if_pos hgo, if_neg hk]
          intro m hm
          rcases List.mem_cons.mp hm with rfl | hm
          · exact (h.level level List.mem_cons_self).served user q (by simpa using hk)
          · exact h.level m (List.mem_cons_of_mem level hm)
      · rw [if_neg hgo]
        exact h.level

theorem LevelInvariant.push {level : PriceLevel Order} (h : LevelInvariant s next level) {o : Order}
    (hprice : o.price = level.price) (hside : o.side = s) (hpos : 0 < o.quantity)
    (hseq : o.sequence = next) : LevelInvariant s (next + 1) (pushOrder o o.quantity level) := by
  have hmem : ∀ p ∈ (pushOrder o o.quantity level).orders, p ∈ level.orders ∨ p = o := by
    intro p hp
    simpa [pushOrder] using hp
  constructor
  · simp [pushOrder]
  · intro p hp
    rcases hmem p hp with hp | rfl
    · exact h.price_eq p hp
    · exact hprice
  · intro p hp
    rcases hmem p hp with hp | rfl
    · exact h.side_eq p hp
    · exact hside
  · intro p hp
    rcases hmem p hp with hp | rfl
    · exact h.positive p hp
    · exact hpos
  · simp [pushOrder, h.total_eq]
  · simp only [pushOrder, List.map_append, List.map_cons, List.map_nil, List.pairwise_append]
    refine ⟨h.fifo, by simp, ?_⟩
    intro n hn m hm
    obtain ⟨p, hp, rfl⟩ := List.mem_map.mp hn
    obtain rfl := List.mem_singleton.mp hm
    exact hseq ▸ h.below p hp
  · intro p hp
    rcases hmem p hp with hp | rfl
    · exact Nat.lt_succ_of_lt (h.below p hp)
    · exact hseq ▸ Nat.lt_succ_self _

theorem levelInvariant_new {o : Order} (hside : o.side = s) (hpos : 0 < o.quantity)
    (hseq : o.sequence = next) :
    LevelInvariant s (next + 1) (pushOrder o o.quantity { price := o.price }) := by
  constructor <;> simp [pushOrder, hside, hpos, hseq]

theorem SideInvariant.rested (h : SideInvariant s next levels) {o : Order} (hside : o.side = s)
    (hpos : 0 < o.quantity) (hseq : o.sequence = next) :
    SideInvariant s (next + 1) (restAt s o o.quantity o.price levels) := by
  constructor
  · exact upsert_pairwise h.sorted rfl (fun level hl => hl)
  · intro m hm
    rcases mem_upsert hm with hm | rfl | ⟨level, hl, hp, rfl⟩
    · exact (h.level m hm).mono (Nat.le_succ next)
    · exact levelInvariant_new hside hpos hseq
    · exact (h.level level hl).push hp.symm hside hpos hseq

theorem mem_resting_restAt {o p : Order} :
    p ∈ resting (restAt s o o.quantity o.price levels) ↔ p = o ∨ p ∈ resting levels := by
  rw [(resting_restAt s o o.quantity o.price levels).mem_iff, List.mem_cons]

end Side

section Remove

variable {s : Side} {next n : Nat} {levels : List (PriceLevel Order)}

theorem sum_filter_ne {orders : List Order} {o : Order} (hn : (orders.map Order.sequence).Nodup)
    (ho : o ∈ orders) :
    ((orders.filter (fun p => p.sequence ≠ o.sequence)).map Order.quantity).sum =
      (orders.map Order.quantity).sum - o.quantity := by
  induction orders with
  | nil => cases ho
  | cons p ps ih =>
      rw [List.map_cons, List.nodup_cons] at hn
      rcases List.mem_cons.mp ho with rfl | ho
      · have hf : ps.filter (fun p => p.sequence ≠ o.sequence) = ps := by
          rw [List.filter_eq_self]
          intro p hp
          simpa using fun he => hn.1 (List.mem_map.mpr ⟨p, hp, he⟩)
        rw [List.filter_cons_of_neg (by simp), hf]
        simp
      · have hne : p.sequence ≠ o.sequence :=
          fun he => hn.1 (List.mem_map.mpr ⟨o, ho, he.symm⟩)
        rw [List.filter_cons_of_pos (by simpa using hne)]
        simp only [List.map_cons, List.sum_cons, ih hn.2 ho]
        omega

theorem LevelInvariant.removed {level : PriceLevel Order} (h : LevelInvariant s next level) {o : Order}
    (ho : o ∈ level.orders) (hk : level.orders.filter (fun p => p.sequence ≠ o.sequence) ≠ []) :
    LevelInvariant s next
      { level with
        totalQuantity := level.totalQuantity - o.quantity
        orders := level.orders.filter (fun p => p.sequence ≠ o.sequence) } where
  nonempty := hk
  price_eq p hp := h.price_eq p (List.mem_of_mem_filter hp)
  side_eq p hp := h.side_eq p (List.mem_of_mem_filter hp)
  positive p hp := h.positive p (List.mem_of_mem_filter hp)
  total_eq := by rw [sum_filter_ne (h.fifo.imp Nat.ne_of_lt) ho, ← h.total_eq]
  fifo := h.fifo.sublist (List.filter_sublist.map _)
  below p hp := h.below p (List.mem_of_mem_filter hp)

theorem removeInstance_prices (n : Nat) (levels : List (PriceLevel Order)) :
    ((removeInstance n levels).map PriceLevel.price).Sublist (levels.map PriceLevel.price) := by
  induction levels with
  | nil => exact List.Sublist.refl _
  | cons level rest ih =>
      rw [removeInstance]
      cases level.orders.find? (fun o => o.sequence = n) with
      | none => exact ih.cons_cons _
      | some o =>
          simp only
          split_ifs
          · exact List.sublist_cons_self _ _
          · exact List.Sublist.refl _

theorem SideInvariant.removed (h : SideInvariant s next levels) (n : Nat) :
    SideInvariant s next (removeInstance n levels) := by
  refine ⟨h.sorted.sublist (removeInstance_prices n levels), ?_⟩
  induction levels with
  | nil => simp [removeInstance]
  | cons level rest ih =>
      rw [removeInstance]
      have hrest : ∀ m ∈ rest, LevelInvariant s next m :=
        fun m hm => h.level m (List.mem_cons_of_mem level hm)
      cases hf : level.orders.find? (fun o => o.sequence = n) with
      | none =>
          intro m hm
          rcases List.mem_cons.mp hm with rfl | hm
          · exact h.level m List.mem_cons_self
          · exact ih h.tail m hm
      | some o =>
          have hn : o.sequence = n := by simpa using List.find?_some hf
          subst hn
          simp only
          split_ifs with hk
          · exact hrest
          · intro m hm
            rcases List.mem_cons.mp hm with rfl | hm
            · exact (h.level level List.mem_cons_self).removed (List.mem_of_find?_eq_some hf)
                (by simpa using hk)
            · exact hrest m hm

theorem removeInstance_absent (h : ∀ o ∈ resting levels, o.sequence ≠ n) :
    removeInstance n levels = levels := by
  induction levels with
  | nil => rfl
  | cons level rest ih =>
      have hf : level.orders.find? (fun o => o.sequence = n) = none := by
        rw [List.find?_eq_none]
        intro o ho
        simpa using h o (List.mem_append_left _ ho)
      rw [removeInstance, hf, ih (fun o ho => h o (List.mem_append_right _ ho))]

theorem removeInstance_split {pre post : List (PriceLevel Order)} {level : PriceLevel Order} {o : Order}
    (hpre : ∀ p ∈ resting pre, p.sequence ≠ n)
    (hf : level.orders.find? (fun p => p.sequence = n) = some o) :
    removeInstance n (pre ++ level :: post) =
      if (level.orders.filter (fun p => p.sequence ≠ n)).isEmpty then pre ++ post
      else pre ++
        { level with
          totalQuantity := level.totalQuantity - o.quantity
          orders := level.orders.filter (fun p => p.sequence ≠ n) } :: post := by
  induction pre with
  | nil => rw [List.nil_append, removeInstance, hf]; rfl
  | cons m pre ih =>
      have hm : m.orders.find? (fun p => p.sequence = n) = none := by
        rw [List.find?_eq_none]
        intro p hp
        simpa using hpre p (List.mem_append_left _ hp)
      rw [List.cons_append, removeInstance, hm, ih (fun p hp => hpre p (List.mem_append_right _ hp))]
      split_ifs <;> rfl

theorem resting_removeInstance (hn : ((resting levels).map Order.sequence).Nodup) :
    resting (removeInstance n levels) = (resting levels).filter (fun o => o.sequence ≠ n) := by
  induction levels with
  | nil => rfl
  | cons level rest ih =>
      rw [resting_cons, List.map_append, List.nodup_append] at hn
      obtain ⟨_, hr, hdisj⟩ := hn
      rw [removeInstance, resting_cons, List.filter_append]
      cases hf : level.orders.find? (fun o => o.sequence = n) with
      | none =>
          have hl : level.orders.filter (fun o => o.sequence ≠ n) = level.orders := by
            rw [List.filter_eq_self]
            intro o ho
            simpa using List.find?_eq_none.mp hf o ho
          rw [hl, resting_cons, ih hr]
      | some o =>
          have ho := List.mem_of_find?_eq_some hf
          have hs : o.sequence = n := by simpa using List.find?_some hf
          have hfr : (resting rest).filter (fun o => o.sequence ≠ n) = resting rest := by
            rw [List.filter_eq_self]
            intro p hp
            have hne := hdisj o.sequence (List.mem_map_of_mem ho) p.sequence (List.mem_map_of_mem hp)
            simpa [← hs] using Ne.symm hne
          rw [hfr]
          simp only
          split_ifs with hk
          · rw [List.isEmpty_iff.mp hk, List.nil_append]
          · rw [resting_cons]

end Remove

theorem forall_side {P : Side → Prop} (s : Side) (h : P s) (ho : P s.opposite) : ∀ s, P s := by
  intro t
  cases s <;> cases t <;> first | exact h | exact ho

theorem allOrders_perm (b : ReferenceBook) (s : Side) :
    (allOrders b).Perm (resting (sideLevels b s) ++ resting (sideLevels b s.opposite)) := by
  cases s with
  | buy => exact List.Perm.refl _
  | sell => exact List.perm_append_comm

theorem mem_allOrders {b : ReferenceBook} (s : Side) {o : Order} :
    o ∈ allOrders b ↔ o ∈ resting (sideLevels b s) ∨ o ∈ resting (sideLevels b s.opposite) := by
  rw [(allOrders_perm b s).mem_iff, List.mem_append]

theorem CoreInvariant.side_nodup {b : ReferenceBook} (h : CoreInvariant b) (s : Side) :
    ((resting (sideLevels b s)).map Order.sequence).Nodup := by
  have hn := ((allOrders_perm b s).map Order.sequence).nodup_iff.mp h.unique
  rw [List.map_append] at hn
  exact (List.nodup_append.mp hn).1

theorem CoreInvariant.one_side {b : ReferenceBook} (h : CoreInvariant b) {s : Side} {o p : Order}
    (ho : o ∈ resting (sideLevels b s)) (hp : p ∈ resting (sideLevels b s.opposite)) :
    o.sequence ≠ p.sequence := by
  have hn := ((allOrders_perm b s).map Order.sequence).nodup_iff.mp h.unique
  rw [List.map_append, List.nodup_append] at hn
  exact hn.2.2 _ (List.mem_map_of_mem ho) _ (List.mem_map_of_mem hp)

theorem CoreInvariant.sequence_inj {b : ReferenceBook} (h : CoreInvariant b) {o p : Order}
    (ho : o ∈ allOrders b) (hp : p ∈ allOrders b) (he : o.sequence = p.sequence) : o = p :=
  List.inj_on_of_nodup_map h.unique ho hp he

theorem CoreInvariant.below {b : ReferenceBook} (h : CoreInvariant b) :
    ∀ o ∈ allOrders b, o.sequence < b.nextSequence := by
  intro o ho
  rcases (mem_allOrders .buy).mp ho with ho | ho
  · exact (h.side .buy).below o ho
  · exact (h.side .sell).below o ho

theorem CoreInvariant.positive {b : ReferenceBook} (h : CoreInvariant b) :
    ∀ o ∈ allOrders b, 0 < o.quantity := by
  intro o ho
  rcases (mem_allOrders .buy).mp ho with ho | ho
  · exact (h.side .buy).positive o ho
  · exact (h.side .sell).positive o ho

@[simp] theorem traded_own (cmd : Command) (b : ReferenceBook) :
    sideLevels (traded cmd b) cmd.side = sideLevels b cmd.side := by
  rw [traded]
  cases cmd.side <;> rfl

@[simp] theorem traded_opposite (cmd : Command) (b : ReferenceBook) :
    sideLevels (traded cmd b) cmd.side.opposite = (walk cmd b).levels := by
  rw [traded]
  cases cmd.side <;> rfl

@[simp] theorem traded_nextSequence (cmd : Command) (b : ReferenceBook) :
    (traded cmd b).nextSequence = b.nextSequence := by
  rw [traded]
  cases cmd.side <;> rfl

@[simp] theorem restOrder_own (cmd : Command) (q : Int) (b : ReferenceBook) :
    sideLevels (restOrder cmd q b) cmd.side =
      restAt cmd.side (storedOrder cmd.side cmd q b.nextSequence) q cmd.price (sideLevels b cmd.side) := by
  rw [restOrder]
  cases cmd.side <;> rfl

@[simp] theorem restOrder_opposite (cmd : Command) (q : Int) (b : ReferenceBook) :
    sideLevels (restOrder cmd q b) cmd.side.opposite = sideLevels b cmd.side.opposite := by
  rw [restOrder]
  cases cmd.side <;> rfl

@[simp] theorem matched_opposite (cmd : Command) (b : ReferenceBook) :
    sideLevels (matched cmd b) cmd.side.opposite = (walk cmd b).levels := by
  rw [matched]
  split_ifs
  · rw [restOrder_opposite, traded_opposite]
  · exact traded_opposite cmd b

@[simp] theorem sideLevels_refreshTops (b : ReferenceBook) (s : Side) :
    sideLevels (refreshTops b) s = sideLevels b s := by
  cases s <;> rfl

@[simp] theorem allOrders_refreshTops (b : ReferenceBook) : allOrders (refreshTops b) = allOrders b := rfl

@[simp] theorem matched_own (cmd : Command) (b : ReferenceBook) :
    sideLevels (matched cmd b) cmd.side =
      if rests cmd b then
        restAt cmd.side (storedOrder cmd.side cmd (walk cmd b).left b.nextSequence) (walk cmd b).left
          cmd.price (sideLevels b cmd.side)
      else sideLevels b cmd.side := by
  rw [matched]
  split_ifs
  · rw [restOrder_own, traded_own, traded_nextSequence]
  · exact traded_own cmd b

/-- The orders after a new order: the order itself if it rests, and those from before. -/
theorem mem_matched {b : ReferenceBook} (h : CoreInvariant b) {cmd : Command} {o : Order}
    (ho : o ∈ allOrders (matched cmd b)) :
    rests cmd b ∧ o = storedOrder cmd.side cmd (walk cmd b).left b.nextSequence ∨
    o ∈ resting (sideLevels b cmd.side) ∨
    o ∈ resting (walk cmd b).levels ∧
      ∃ p ∈ resting (sideLevels b cmd.side.opposite), o = { p with quantity := o.quantity } := by
  rw [mem_allOrders cmd.side, matched_own, matched_opposite] at ho
  rcases ho with ho | ho
  · split_ifs at ho with hr
    · rcases mem_resting_restAt.mp ho with he | ho
      · exact Or.inl ⟨hr, he⟩
      · exact Or.inr (Or.inl ho)
    · exact Or.inr (Or.inl ho)
  · have hpos := (h.side cmd.side.opposite).positive
    exact Or.inr (Or.inr ⟨ho, (mem_walkLevels (within cmd.side cmd) cmd.userId hpos ho).2⟩)

theorem matched_nextSequence (cmd : Command) (b : ReferenceBook) :
    (matched cmd b).nextSequence = if rests cmd b then b.nextSequence + 1 else b.nextSequence := by
  rw [matched]
  split_ifs
  · exact congrArg (· + 1) (traded_nextSequence cmd b)
  · exact traded_nextSequence cmd b

theorem cancelled_nextSequence (key : OrderKey) (b : ReferenceBook) :
    (cancelled key b).nextSequence = b.nextSequence := by
  rw [cancelled]
  cases b.instances key <;> rfl

theorem refCall_nextSequence (b : ReferenceBook) (c : BookCall) :
    b.nextSequence ≤ (refCall b c).1.nextSequence ∧
      (refCall b c).1.nextSequence ≤ b.nextSequence + 1 := by
  cases c with
  | processNewOrder cmd =>
      change b.nextSequence ≤ (matched cmd b).nextSequence ∧ (matched cmd b).nextSequence ≤ _
      rw [matched_nextSequence]
      split_ifs <;> omega
  | processCancel cmd =>
      change b.nextSequence ≤ (cancelled cmd.key b).nextSequence ∧ (cancelled cmd.key b).nextSequence ≤ _
      rw [cancelled_nextSequence]
      omega

theorem traded_core {b : ReferenceBook} (h : CoreInvariant b) (cmd : Command) :
    CoreInvariant (traded cmd b) := by
  have hopp := h.side cmd.side.opposite
  constructor
  · refine forall_side cmd.side ?_ ?_
    · simpa using h.side cmd.side
    · rw [traded_opposite, traded_nextSequence]
      exact hopp.walked (within cmd.side cmd) cmd.userId cmd.quantity
  · rw [((allOrders_perm _ cmd.side).map Order.sequence).nodup_iff, traded_own, traded_opposite]
    apply List.Nodup.sublist _ (((allOrders_perm b cmd.side).map Order.sequence).nodup_iff.mp h.unique)
    rw [List.map_append, List.map_append]
    exact (List.Sublist.refl _).append
      (walkLevels_labels _ _ Order.sequence (fun _ _ => rfl) cmd.quantity _)
  · intro k n hk
    change forget (walk cmd b).fills b.instances k = some n at hk
    rw [forget_apply] at hk
    split_ifs at hk with hfilled
    obtain ⟨o, ho, hn, hkey⟩ := h.named k n hk
    rcases (mem_allOrders cmd.side).mp ho with ho | ho
    · exact ⟨o, (mem_allOrders cmd.side).mpr (Or.inl (by simpa using ho)), hn, hkey⟩
    · rcases walkLevels_fate (within cmd.side cmd) cmd.userId cmd.quantity _ o ho with
        ⟨f, hf, he⟩ | ⟨q, hq⟩
      · exact absurd ⟨f, hf, by rw [he], by rw [he]; exact hkey⟩ hfilled
      · refine ⟨{ o with quantity := q }, (mem_allOrders cmd.side).mpr (Or.inr ?_), hn, hkey⟩
        rw [traded_opposite]
        exact hq

theorem restOrder_core {b : ReferenceBook} (h : CoreInvariant b) (cmd : Command) {q : Int}
    (hq : 0 < q) : CoreInvariant (restOrder cmd q b) := by
  have hmem (p : Order) : p ∈ allOrders (restOrder cmd q b) ↔
      p = storedOrder cmd.side cmd q b.nextSequence ∨ p ∈ allOrders b := by
    rw [mem_allOrders cmd.side, restOrder_own, restOrder_opposite, mem_allOrders cmd.side, ← or_assoc]
    exact or_congr_left (mem_resting_restAt (o := storedOrder cmd.side cmd q b.nextSequence))
  constructor
  · refine forall_side cmd.side ?_ ?_
    · rw [restOrder_own]
      exact (h.side cmd.side).rested (o := storedOrder cmd.side cmd q b.nextSequence) rfl hq rfl
    · rw [restOrder_opposite]
      exact (h.side cmd.side.opposite).mono (Nat.le_succ _)
  · have hp : ((allOrders (restOrder cmd q b)).map Order.sequence).Perm
        (b.nextSequence :: (allOrders b).map Order.sequence) := by
      apply (((allOrders_perm _ cmd.side).map Order.sequence)).trans
      rw [restOrder_own, restOrder_opposite]
      have hr := (resting_restAt cmd.side (storedOrder cmd.side cmd q b.nextSequence) q cmd.price
        (sideLevels b cmd.side)).append_right (resting (sideLevels b cmd.side.opposite))
      apply (hr.map Order.sequence).trans
      exact ((allOrders_perm b cmd.side).map Order.sequence).symm.cons _
    rw [hp.nodup_iff, List.nodup_cons]
    refine ⟨?_, h.unique⟩
    intro hm
    obtain ⟨p, hp, he⟩ := List.mem_map.mp hm
    exact Nat.lt_irrefl _ (he ▸ h.below p hp)
  · intro k n hk
    change Function.update b.instances _ (some b.nextSequence) k = some n at hk
    by_cases hkey : k = (storedOrder cmd.side cmd q b.nextSequence).key
    · subst hkey
      rw [Function.update_self, Option.some.injEq] at hk
      exact ⟨_, (hmem _).mpr (Or.inl rfl), hk, rfl⟩
    · rw [Function.update_of_ne hkey] at hk
      obtain ⟨o, ho, hn, hok⟩ := h.named k n hk
      exact ⟨o, (hmem o).mpr (Or.inr ho), hn, hok⟩

theorem matched_core {b : ReferenceBook} (h : CoreInvariant b) (cmd : Command) :
    CoreInvariant (matched cmd b) := by
  rw [matched]
  split_ifs with hr
  · exact restOrder_core (traded_core h cmd) cmd hr.2
  · exact traded_core h cmd

theorem allOrders_cancelled {b : ReferenceBook} (h : CoreInvariant b) {key : OrderKey} {n : Nat}
    (hk : b.instances key = some n) :
    allOrders (cancelled key b) = (allOrders b).filter (fun o => o.sequence ≠ n) := by
  have hbids := resting_removeInstance (n := n) (h.side_nodup .buy)
  have hasks := resting_removeInstance (n := n) (h.side_nodup .sell)
  simp only [allOrders, cancelled, hk, List.filter_append]
  exact congrArg₂ _ hbids hasks

theorem mem_cancelled {b : ReferenceBook} (h : CoreInvariant b) {key : OrderKey} {o : Order}
    (ho : o ∈ allOrders (cancelled key b)) : o ∈ allOrders b := by
  cases hk : b.instances key with
  | none => rwa [cancelled, hk] at ho
  | some n =>
      rw [allOrders_cancelled h hk] at ho
      exact List.mem_of_mem_filter ho

theorem cancelled_core {b : ReferenceBook} (h : CoreInvariant b) (key : OrderKey) :
    CoreInvariant (cancelled key b) := by
  cases hk : b.instances key with
  | none => rwa [cancelled, hk]
  | some n =>
      have hall := allOrders_cancelled h hk
      simp only [cancelled, hk] at hall ⊢
      constructor
      · refine forall_side .buy ?_ ?_
        · exact (h.side .buy).removed n
        · exact (h.side .sell).removed n
      · rw [hall]
        exact h.unique.sublist (List.filter_sublist.map _)
      · intro k m hm
        by_cases hkey : k = key
        · subst hkey
          simp at hm
        · simp only [Function.update_of_ne hkey] at hm
          obtain ⟨o, ho, hom, hok⟩ := h.named k m hm
          refine ⟨o, ?_, hom, hok⟩
          rw [hall, List.mem_filter]
          refine ⟨ho, ?_⟩
          obtain ⟨p, hp, hpn, hpk⟩ := h.named key n hk
          have hne : o.sequence ≠ n := by
            intro he
            rw [h.sequence_inj ho hp (he.trans hpn.symm), hpk] at hok
            exact hkey hok.symm
          simpa using hne

theorem refreshTops_invariant {b : ReferenceBook} (h : CoreInvariant b) :
    BookInvariant (refreshTops b) where
  side := forall_side .buy (h.side .buy) (h.side .sell)
  unique := h.unique
  named := h.named
  topBid := rfl
  topAsk := rfl

theorem refCall_invariant (b : ReferenceBook) (c : BookCall) (h : BookInvariant b) :
    BookInvariant (refCall b c).1 := by
  cases c with
  | processNewOrder cmd => exact refreshTops_invariant (matched_core h.toCoreInvariant cmd)
  | processCancel cmd => exact refreshTops_invariant (cancelled_core h.toCoreInvariant cmd.key)

theorem invariant_empty : BookInvariant {} where
  side := forall_side .buy SideInvariant.nil SideInvariant.nil
  unique := List.nodup_nil
  named k n h := by cases h
  topBid := rfl
  topAsk := rfl

end Orderbook.ReferenceInvariant

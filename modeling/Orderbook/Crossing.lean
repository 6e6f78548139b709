import Orderbook.SelfBlocking

namespace Orderbook.Crossing

open Domain Ladder Matching Book Reference ReferenceWalk ReferenceInvariant Slots SlotReuse
  Observations SelfBlocking Library.Runs

def Uncrossed (bids asks : List Order) : Prop :=
  ∀ bid ∈ bids, ∀ ask ∈ asks, bid.userId ≠ ask.userId → bid.price < ask.price

instance (bids asks : List Order) : Decidable (Uncrossed bids asks) :=
  inferInstanceAs (Decidable (∀ bid ∈ bids, _))

def BookUncrossed (b : SymbolOrderbook) : Prop :=
  Uncrossed (restingOrders b .buy) (restingOrders b .sell)

instance (b : SymbolOrderbook) : Decidable (BookUncrossed b) :=
  inferInstanceAs (Decidable (Uncrossed _ _))

/-- A limit order is not stopped short by an own order: the levels inside its limit, up to
the first one that holds an order of its user, serve it, or no level behind that one holds
another user's order inside the limit. -/
def LimitUnblocked (cmd : Command) (ladder : List (PriceLevel Order)) : Prop :=
  cmd.quantity ≤ foreignQuantity cmd.userId (resting (reach (within cmd.side cmd) cmd.userId ladder)) ∨
    ∀ o ∈ resting (beyond (within cmd.side cmd) cmd.userId ladder), o.userId ≠ cmd.userId →
      exceedsLimit cmd.side o.price cmd.price = true

/-- The calls that cannot leave the book crossed: all but a limit order that is stopped short. -/
def Admitted (b : SymbolOrderbook) : BookCall → Prop
  | .processNewOrder cmd => cmd.price ≠ 0 → LimitUnblocked cmd (ladder b cmd.side.opposite)
  | .processCancel _ => True

section Step

theorem uncrossed_iff (r : ReferenceBook) (s : Side) :
    Uncrossed (resting r.bids) (resting r.asks) ↔
      ∀ o ∈ resting (sideLevels r s), ∀ p ∈ resting (sideLevels r s.opposite), p.userId ≠ o.userId →
        exceedsLimit s p.price o.price = true := by
  cases s with
  | buy =>
      simp only [Uncrossed, exceedsLimit, decide_eq_true_eq]
      constructor
      · exact fun h o ho p hp hu => h o ho p hp (Ne.symm hu)
      · exact fun h o ho p hp hu => h o ho p hp (Ne.symm hu)
  | sell =>
      simp only [Uncrossed, exceedsLimit, decide_eq_true_eq]
      constructor
      · exact fun h o ho p hp hu => h p hp o ho hu
      · exact fun h o ho p hp hu => h p hp o ho hu

variable {r : ReferenceBook}

theorem traded_uncrossed (cmd : Command) (h : CoreInvariant r)
    (hx : Uncrossed (resting r.bids) (resting r.asks)) :
    Uncrossed (resting (traded cmd r).bids) (resting (traded cmd r).asks) := by
  rw [uncrossed_iff _ cmd.side] at hx ⊢
  rw [traded_own, traded_opposite]
  intro o ho p hp hu
  obtain ⟨_, q, hq, he⟩ := mem_walkLevels (within cmd.side cmd) cmd.userId
    (h.side cmd.side.opposite).positive hp
  rw [he] at hu ⊢
  exact hx o ho q hq hu

theorem rested_uncrossed_iff {cmd : Command} (h : CoreInvariant r)
    (hx : Uncrossed (resting r.bids) (resting r.asks)) (hr : rests cmd r) :
    Uncrossed (resting (restOrder cmd (walk cmd r).left (traded cmd r)).bids)
        (resting (restOrder cmd (walk cmd r).left (traded cmd r)).asks) ↔
      ∀ o ∈ resting (beyond (within cmd.side cmd) cmd.userId (sideLevels r cmd.side.opposite)),
        o.userId ≠ cmd.userId → exceedsLimit cmd.side o.price cmd.price = true := by
  have hrest (p : Order) := @walk_rest (within cmd.side cmd) cmd.userId
    (sideLevels r cmd.side.opposite) cmd.quantity hr.2 p
  have ht := traded_uncrossed cmd h hx
  rw [uncrossed_iff _ cmd.side, traded_own, traded_opposite] at ht
  rw [uncrossed_iff _ cmd.side, restOrder_own, restOrder_opposite, traded_own, traded_opposite]
  constructor
  · intro ha p hp hu
    obtain ⟨hp', _⟩ := (hrest p).mpr ⟨hp, hu⟩
    exact ha (storedOrder cmd.side cmd (walk cmd r).left (traded cmd r).nextSequence)
      (mem_resting_restAt.mpr (Or.inl rfl)) p hp' hu
  · intro hb o ho p hp hu
    rcases mem_resting_restAt.mp ho with rfl | ho
    · exact hb p ((hrest p).mp ⟨hp, hu⟩).1 hu
    · exact ht o ho p hp hu

theorem cancelled_uncrossed (h : CoreInvariant r) (hx : Uncrossed (resting r.bids) (resting r.asks))
    (key : OrderKey) :
    Uncrossed (resting (cancelled key r).bids) (resting (cancelled key r).asks) := by
  rw [cancelled]
  cases r.instances key with
  | none => exact hx
  | some n =>
      have hbids : resting (removeInstance n r.bids) = _ := resting_removeInstance (h.side_nodup .buy)
      have hasks : resting (removeInstance n r.asks) = _ := resting_removeInstance (h.side_nodup .sell)
      simp only
      rw [hbids, hasks]
      exact fun bid hbid ask hask =>
        hx bid (List.mem_of_mem_filter hbid) ask (List.mem_of_mem_filter hask)

theorem matched_uncrossed_iff (cmd : Command) (h : CoreInvariant r)
    (hx : Uncrossed (resting r.bids) (resting r.asks)) :
    Uncrossed (resting (matched cmd r).bids) (resting (matched cmd r).asks) ↔
      (cmd.price ≠ 0 → LimitUnblocked cmd (sideLevels r cmd.side.opposite)) := by
  have hleft := walk_left_pos (within cmd.side cmd) cmd.userId cmd.quantity
    (h.side cmd.side.opposite).positive
  rw [matched]
  split_ifs with hr
  · rw [rested_uncrossed_iff h hx hr]
    have hl := hleft.mp hr.2
    constructor
    · exact fun hb _ => Or.inr hb
    · intro hu
      rcases hu hr.1 with hq | hb
      · omega
      · exact hb
  · refine ⟨fun _ hp => Or.inl ?_, fun _ => traded_uncrossed cmd h hx⟩
    by_contra hq
    exact hr ⟨hp, hleft.mpr (Int.not_le.mp hq)⟩

end Step

theorem bookUncrossed_iff (b : SymbolOrderbook) :
    BookUncrossed b ↔ Uncrossed (resting (deref b).bids) (resting (deref b).asks) := by
  have hb : restingOrders b .buy = resting (deref b).bids := (resting_map _ _).symm
  have ha : restingOrders b .sell = resting (deref b).asks := (resting_map _ _).symm
  rw [BookUncrossed, hb, ha]

theorem call_uncrossed_iff {b : SymbolOrderbook} (h : Represents b) (hx : BookUncrossed b) (c : BookCall) :
    BookUncrossed (call b c).1 ↔ Admitted b c := by
  have hr : deref (call b c).1 = (refCall (deref b) c).1 := by rw [call_reads h]
  rw [bookUncrossed_iff] at hx ⊢
  rw [hr]
  cases c with
  | processNewOrder cmd =>
      rw [Admitted, ladder_eq]
      exact matched_uncrossed_iff cmd h.book.toCoreInvariant hx
  | processCancel cmd =>
      exact iff_of_true (cancelled_uncrossed h.book.toCoreInvariant hx cmd.key) trivial

/-- No state of a run is crossed between different users exactly when no limit order of
the run is stopped short by an own order. -/
theorem uncrossed_run_iff (calls : List BookCall) :
    (∀ pre, pre <+: calls → BookUncrossed (bookAfter pre)) ↔
      ∀ pre c post, calls = pre ++ c :: post → Admitted (bookAfter pre) c := by
  have hstep (pre : List BookCall) (c : BookCall) : bookAfter (pre ++ [c]) = (call (bookAfter pre) c).1 :=
    final_concat call {} pre c
  constructor
  · intro hall pre c post hc
    have hpre := hall pre ⟨c :: post, hc.symm⟩
    have hnext := hall (pre ++ [c]) ⟨post, by rw [hc, List.append_assoc]; rfl⟩
    rw [hstep] at hnext
    exact (call_uncrossed_iff (represents_after pre) hpre c).mp hnext
  · rintro hadm pre ⟨post, rfl⟩
    refine (final_preserves_of call (fun b => Represents b ∧ BookUncrossed b) Admitted ?_ pre {}
      ⟨represents_empty, ?_⟩ ?_).2
    · rintro b c ⟨h, hx⟩ hc
      exact ⟨call_represents b c h, (call_uncrossed_iff h hx c).mpr hc⟩
    · exact fun _ hbid => by cases hbid
    · rintro front c back rfl
      exact hadm front c (back ++ post) (by simp)

theorem limit_stops_at_own_level :
    ¬ BookUncrossed (bookAfter
      [.processNewOrder (newOrderCommand [] .sell 1 1 100 5),
        .processNewOrder (newOrderCommand [] .sell 2 2 101 5),
        .processNewOrder (newOrderCommand [] .buy 1 3 102 5)]) := by
  decide +kernel

end Orderbook.Crossing

import Orderbook.Observations
import Orderbook.SlotCancel

namespace Orderbook.Ledger

open Domain SlotPool Ladder Matching Book Reference ReferenceWalk ReferenceInvariant Slots SlotReuse
  Orderbook.Representation Observations Library.QueueFill Library.Runs

/-- The quantity a line takes from the resting order that arrived as number `n`. An
incoming order carries the number 0, which no resting order has. -/
def takenFrom (n : Nat) : OutputLine → Int
  | .trade buy sell _ tradeQty => if buy.sequence = n ∨ sell.sequence = n then tradeQty else 0
  | _ => 0

def restingVolume (n : Nat) (lines : List OutputLine) : Int := (lines.map (takenFrom n)).sum

def numbered (n : Nat) (orders : List Order) : Int :=
  ((orders.filter (fun o => o.sequence = n)).map Order.quantity).sum

def remaining (n : Nat) (b : SymbolOrderbook) : Int := numbered n (allResting b)

/-- What a call cancels of number `n`: all that is left of it, if the call is a cancel
and the lookup map has `n` under its key. -/
def cancelledBy (n : Nat) (b : SymbolOrderbook) : BookCall → Int
  | .processNewOrder _ => 0
  | .processCancel cmd =>
      match b.ordersByKey cmd.key with
      | some it => if (orderAt b it).sequence = n then (orderAt b it).quantity else 0
      | none => 0

def cancelledQuantity (n : Nat) : SymbolOrderbook → List BookCall → Int
  | _, [] => 0
  | b, c :: cs => cancelledBy n b c + cancelledQuantity n (call b c).1 cs

def dropped (cmd : Command) (b : SymbolOrderbook) : Int :=
  if cmd.price = 0 then (marketSweep cmd.side cmd b).walk.incomingQty else 0

/-- The order of `cmd` comes to rest: it has the next number in the book. -/
def comesToRest (cmd : Command) (b : SymbolOrderbook) : Prop :=
  ∃ o ∈ restingOrders (processNewOrder cmd b).1 cmd.side, o.sequence = b.nextSequence

instance (cmd : Command) (b : SymbolOrderbook) : Decidable (comesToRest cmd b) :=
  inferInstanceAs (Decidable (∃ o ∈ _, _))

/-- The account of one submission: `b` is the book it comes to, `post` the calls after it. -/
structure Account where
  incoming : Int
  resting : Int
  remaining : Int
  cancelled : Int
  dropped : Int

def account (cmd : Command) (b : SymbolOrderbook) (post : List BookCall) : Account :=
  let b' := (processNewOrder cmd b).1
  let rested := comesToRest cmd b
  { incoming := tradeVolume (processNewOrder cmd b).2
    resting := if rested then restingVolume b.nextSequence (output call b' post) else 0
    remaining := if rested then remaining b.nextSequence (final call b' post) else 0
    cancelled := if rested then cancelledQuantity b.nextSequence b' post else 0
    dropped := dropped cmd b }

section Numbered

variable (n : Nat)

@[simp] theorem numbered_append (xs ys : List Order) :
    numbered n (xs ++ ys) = numbered n xs + numbered n ys := by
  simp [numbered]

theorem numbered_perm {xs ys : List Order} (h : xs.Perm ys) : numbered n xs = numbered n ys :=
  ((h.filter _).map _).sum_eq

variable {n}

theorem numbered_eq_zero {orders : List Order} (h : ∀ o ∈ orders, o.sequence ≠ n) :
    numbered n orders = 0 := by
  have hf : orders.filter (fun o => o.sequence = n) = [] := by
    rw [List.filter_eq_nil_iff]
    intro o ho
    simpa using h o ho
  rw [numbered, hf]
  rfl

theorem numbered_cons_self (o : Order) (orders : List Order) :
    numbered o.sequence (o :: orders) = o.quantity + numbered o.sequence orders := by
  simp [numbered]

theorem numbered_cons_of_ne {o : Order} (h : o.sequence ≠ n) (orders : List Order) :
    numbered n (o :: orders) = numbered n orders := by
  simp [numbered, h]

theorem numbered_filter_of_ne {m : Nat} (h : m ≠ n) (orders : List Order) :
    numbered n (orders.filter (fun o => o.sequence ≠ m)) = numbered n orders := by
  have hf : (orders.filter (fun o => o.sequence ≠ m)).filter (fun o => o.sequence = n) =
      orders.filter (fun o => o.sequence = n) := by
    rw [List.filter_filter]
    apply List.filter_congr
    intro o _
    by_cases ho : o.sequence = n
    · simp [ho, Ne.symm h]
    · simp [ho]
  rw [numbered, hf, numbered]

theorem numbered_eq_quantity {orders : List Order} (hn : (orders.map Order.sequence).Nodup) {o : Order}
    (ho : o ∈ orders) : numbered o.sequence orders = o.quantity := by
  induction orders with
  | nil => cases ho
  | cons p ps ih =>
      rw [List.map_cons, List.nodup_cons] at hn
      rcases List.mem_cons.mp ho with rfl | ho
      · rw [numbered_cons_self, numbered_eq_zero]
        · omega
        · intro p hp he
          exact hn.1 (List.mem_map.mpr ⟨p, hp, he⟩)
      · have hne : p.sequence ≠ o.sequence :=
          fun he => hn.1 (List.mem_map.mpr ⟨o, ho, he.symm⟩)
        rw [numbered_cons_of_ne hne]
        exact ih hn.2 ho

theorem numbered_nonneg {orders : List Order} (h : ∀ o ∈ orders, 0 < o.quantity) :
    0 ≤ numbered n orders := by
  apply List.sum_nonneg
  intro q hq
  obtain ⟨o, ho, rfl⟩ := List.mem_map.mp hq
  exact Int.le_of_lt (h o (List.mem_of_mem_filter ho))

theorem numbered_walk (within : Int → Bool) (user q : Int) (levels : List (PriceLevel Order)) :
    numbered n (resting (walkLevels within user q levels).levels) +
        takenSum ((walkLevels within user q levels).fills.filter (fun f => f.item.sequence = n)) =
      numbered n (resting levels) := by
  have hf := walkLevels_flattens within user q levels
  have hk := amountSum_kept_filter (orderRule user) (fun o => decide (o.sequence = n)) (fun _ _ => rfl) q
    (resting (reach within user levels))
  rw [hf.kept, hf.fills, resting_reach_beyond within user levels, numbered_append, numbered_append]
  change numbered n _ + _ = numbered n _ at hk
  omega

end Numbered

section Volumes

variable {n : Nat} (hn : 0 < n)

@[simp] theorem restingVolume_append (xs ys : List OutputLine) :
    restingVolume n (xs ++ ys) = restingVolume n xs + restingVolume n ys := by
  simp [restingVolume]

theorem restingVolume_topChange (s : Side) (old new : TopOfBook) :
    restingVolume n (topChange s old new) = 0 := by
  rcases topChange_cases s old new with h | h <;> rw [h] <;> rfl

theorem tradeVolume_topChange (s : Side) (old new : TopOfBook) :
    tradeVolume (topChange s old new) = 0 := by
  rcases topChange_cases s old new with h | h <;> rw [h] <;> rfl

theorem restingVolume_refCancel (cmd : Command) (r : ReferenceBook) :
    restingVolume n (refCancel cmd r).2 = 0 := by
  have hack : restingVolume n (refCancel cmd r).2 =
      restingVolume n (topChanges r (cancelled cmd.key r)) := by
    simp [restingVolume, refCancel, takenFrom]
  rw [hack, topChanges, restingVolume_append, restingVolume_topChange, restingVolume_topChange]
  rfl

include hn

theorem takenFrom_fillLine (cmd : Command) (f : Fill Order) :
    takenFrom n (fillLine cmd f) = if f.item.sequence = n then f.taken else 0 := by
  have hz : (makeIncomingOrder cmd).sequence ≠ n := Nat.ne_of_lt hn
  rw [fillLine]
  cases cmd.side <;> simp [emitFill, emitTrade, takenFrom, hz]

theorem restingVolume_fills (cmd : Command) (fs : List (Fill Order)) :
    restingVolume n (fs.map (fillLine cmd)) =
      takenSum (fs.filter (fun f => f.item.sequence = n)) := by
  induction fs with
  | nil => rfl
  | cons f fs ih =>
      have hc : restingVolume n ((f :: fs).map (fillLine cmd)) =
          takenFrom n (fillLine cmd f) + restingVolume n (fs.map (fillLine cmd)) := by
        simp [restingVolume]
      rw [hc, ih, takenFrom_fillLine hn]
      by_cases hf : f.item.sequence = n
      · simp [hf]
      · simp [hf]

theorem restingVolume_refNewOrder (cmd : Command) (r : ReferenceBook) :
    restingVolume n (refNewOrder cmd r).2 =
      takenSum ((walk cmd r).fills.filter (fun f => f.item.sequence = n)) := by
  have hack : restingVolume n (refNewOrder cmd r).2 =
      restingVolume n ((walk cmd r).fills.map (fillLine cmd) ++ topChanges r (matched cmd r)) := by
    simp [restingVolume, refNewOrder, takenFrom]
  rw [hack, restingVolume_append, restingVolume_fills hn, topChanges, restingVolume_append,
    restingVolume_topChange, restingVolume_topChange]
  omega

end Volumes

theorem tradeVolume_refNewOrder (cmd : Command) (r : ReferenceBook) :
    tradeVolume (refNewOrder cmd r).2 = takenSum (walk cmd r).fills := by
  have hfills := tradeVolume_fills cmd.side (makeIncomingOrder cmd) (walk cmd r).fills
  have hbid := tradeVolume_topChange .buy r.currentTopBid (computeTop (matched cmd r).bids)
  have hask := tradeVolume_topChange .sell r.currentTopAsk (computeTop (matched cmd r).asks)
  rw [← hfills]
  simp only [tradeVolume] at hbid hask ⊢
  simp [refNewOrder, topChanges, tradeQuantity, hbid, hask, fillLine, Function.comp_def]

section Reference

variable {r : ReferenceBook} {n : Nat}

theorem numbered_allOrders (n : Nat) (r : ReferenceBook) (s : Side) :
    numbered n (allOrders r) =
      numbered n (resting (sideLevels r s)) + numbered n (resting (sideLevels r s.opposite)) := by
  rw [numbered_perm n (allOrders_perm r s), numbered_append]

theorem numbered_matched (cmd : Command) :
    numbered n (allOrders (matched cmd r)) +
        takenSum ((walk cmd r).fills.filter (fun f => f.item.sequence = n)) =
      numbered n (allOrders r) +
        if rests cmd r ∧ r.nextSequence = n then (walk cmd r).left else 0 := by
  have hw := @numbered_walk n (within cmd.side cmd) cmd.userId cmd.quantity
    (sideLevels r cmd.side.opposite)
  change numbered n (resting (walk cmd r).levels) + takenSum ((walk cmd r).fills.filter _) = _ at hw
  rw [numbered_allOrders n _ cmd.side, numbered_allOrders n r cmd.side, matched_own, matched_opposite]
  by_cases hr : rests cmd r
  · rw [if_pos hr, numbered_perm n (resting_restAt ..)]
    by_cases hs : r.nextSequence = n
    · subst hs
      have hself := numbered_cons_self
        (storedOrder cmd.side cmd (walk cmd r).left r.nextSequence) (resting (sideLevels r cmd.side))
      change numbered r.nextSequence _ = (walk cmd r).left + numbered r.nextSequence _ at hself
      rw [if_pos ⟨hr, rfl⟩, hself]
      omega
    · rw [if_neg (fun h => hs h.2),
        numbered_cons_of_ne (o := storedOrder cmd.side cmd (walk cmd r).left r.nextSequence) hs]
      omega
  · rw [if_neg hr, if_neg (fun h => hr h.1)]
    omega

theorem numbered_cancelled (h : CoreInvariant r) {key : OrderKey} {o : Order} (ho : o ∈ allOrders r)
    (hk : r.instances key = some o.sequence) :
    numbered n (allOrders (cancelled key r)) + (if o.sequence = n then o.quantity else 0) =
      numbered n (allOrders r) := by
  rw [allOrders_cancelled h hk]
  by_cases hs : o.sequence = n
  · subst hs
    rw [if_pos rfl, numbered_eq_quantity h.unique ho, numbered_eq_zero]
    · omega
    · intro p hp
      simpa using List.of_mem_filter hp
  · rw [if_neg hs, numbered_filter_of_ne hs, Int.add_zero]

end Reference

section Book

variable {b : SymbolOrderbook} {n : Nat}

theorem remaining_eq (n : Nat) (b : SymbolOrderbook) : remaining n b = numbered n (allOrders (deref b)) := by
  rw [remaining, allResting_eq]

theorem cancel_balance (h : Represents b) (n : Nat) (cmd : Command) :
    numbered n (allOrders (cancelled cmd.key (deref b))) + cancelledBy n b (.processCancel cmd) =
      numbered n (allOrders (deref b)) := by
  rw [cancelledBy]
  cases hk : b.ordersByKey cmd.key with
  | none =>
      have hi : (deref b).instances cmd.key = none := by simp [deref, hk]
      rw [cancelled, hi]
      exact Int.add_zero _
  | some it =>
      have hi : (deref b).instances cmd.key = some (get b.slotPool it).sequence := by simp [deref, hk]
      exact numbered_cancelled h.book.toCoreInvariant (get_mem_allOrders (h.queued _ it hk)) hi

theorem call_balance (h : Represents b) (hn : 0 < n) (hlt : n < b.nextSequence) (c : BookCall) :
    remaining n b = restingVolume n (call b c).2 + cancelledBy n b c + remaining n (call b c).1 := by
  rw [remaining_eq, remaining_eq]
  cases c with
  | processNewOrder cmd =>
      have hm := @numbered_matched (deref b) n cmd
      rw [if_neg (fun hr => Nat.ne_of_gt hlt hr.2)] at hm
      have hv := restingVolume_refNewOrder hn cmd (deref b)
      rw [call, deref_newOrder h, newOrder_lines h, allOrders_refreshTops, hv, cancelledBy]
      omega
  | processCancel cmd =>
      have hc := cancel_balance h n cmd
      have hv := @restingVolume_refCancel n cmd (deref b)
      rw [call, deref_cancel h, cancel_lines h, allOrders_refreshTops, hv]
      omega

/-- A whole run, seen from an order that arrived before it. -/
theorem run_balance (h : Represents b) (hn : 0 < n) (hlt : n < b.nextSequence) (post : List BookCall) :
    remaining n b =
      restingVolume n (output call b post) + cancelledQuantity n b post + remaining n (final call b post) := by
  induction post generalizing b with
  | nil => simp [restingVolume, cancelledQuantity]
  | cons c cs ih =>
      have hstep := call_balance h hn hlt c
      have hi := ih (call_represents b c h) (Nat.lt_of_lt_of_le hlt (call_nextSequence h c).1)
      rw [output_cons, restingVolume_append, cancelledQuantity, final_cons]
      omega

end Book

section Submission

variable {b : SymbolOrderbook} (h : Represents b) (cmd : Command)

include h

theorem comesToRest_iff : comesToRest cmd b ↔ rests cmd (deref b) := by
  have hown : restingOrders (processNewOrder cmd b).1 cmd.side =
      resting (sideLevels (matched cmd (deref b)) cmd.side) := by
    rw [← resting_ladder, ladder_eq, deref_newOrder h, sideLevels_refreshTops]
  rw [comesToRest, hown, matched_own]
  constructor
  · rintro ⟨o, ho, hs⟩
    by_contra hr
    rw [if_neg hr] at ho
    exact Nat.ne_of_lt ((h.book.side cmd.side).below o ho) hs
  · intro hr
    rw [if_pos hr]
    exact ⟨storedOrder cmd.side cmd (walk cmd (deref b)).left (deref b).nextSequence,
      mem_resting_restAt.mpr (Or.inl rfl), rfl⟩

theorem dropped_eq : dropped cmd b = if cmd.price = 0 then (walk cmd (deref b)).left else 0 := by
  rw [dropped]
  split_ifs with hp
  · rw [marketSweep_eq cmd b hp]
    exact (orderSweep_reads cmd b h.toSlotInvariant).left
  · rfl

theorem nextSequence_submission (hr : comesToRest cmd b) :
    (processNewOrder cmd b).1.nextSequence = b.nextSequence + 1 := by
  have hm := matched_nextSequence cmd (deref b)
  rw [if_pos ((comesToRest_iff h cmd).mp hr)] at hm
  have hn := congrArg ReferenceBook.nextSequence (deref_newOrder h cmd)
  exact hn.trans hm

theorem remaining_submission (hr : comesToRest cmd b) :
    remaining b.nextSequence (processNewOrder cmd b).1 = (walk cmd (deref b)).left := by
  have hrests := (comesToRest_iff h cmd).mp hr
  have hold : numbered b.nextSequence (resting (sideLevels (deref b) cmd.side)) = 0 :=
    numbered_eq_zero (fun o ho => Nat.ne_of_lt ((h.book.side cmd.side).below o ho))
  have hopp : numbered b.nextSequence (resting (walk cmd (deref b)).levels) = 0 := by
    have hw := (h.book.side cmd.side.opposite).walked (within cmd.side cmd) cmd.userId cmd.quantity
    exact numbered_eq_zero (fun o ho => Nat.ne_of_lt (hw.below o ho))
  have hself := numbered_cons_self (storedOrder cmd.side cmd (walk cmd (deref b)).left b.nextSequence)
    (resting (sideLevels (deref b) cmd.side))
  rw [remaining_eq, deref_newOrder h, numbered_allOrders _ _ cmd.side, sideLevels_refreshTops,
    sideLevels_refreshTops, matched_own, matched_opposite, if_pos hrests, hopp,
    numbered_perm _ (resting_restAt ..), Int.add_zero]
  exact hself.trans (by rw [storedOrder, hold, Int.add_zero])

theorem submission_balance (hq : 0 < cmd.quantity) :
    cmd.quantity = tradeVolume (processNewOrder cmd b).2 +
      (if comesToRest cmd b then remaining b.nextSequence (processNewOrder cmd b).1 else 0) +
        dropped cmd b := by
  have ht := walkLevels_takenSum (within cmd.side cmd) cmd.userId cmd.quantity
    (sideLevels (deref b) cmd.side.opposite)
  have hnonneg : 0 ≤ (walk cmd (deref b)).left :=
    walkLevels_left_nonneg (within cmd.side cmd) cmd.userId (Int.le_of_lt hq) _
  rw [newOrder_lines h, tradeVolume_refNewOrder, dropped_eq h]
  change takenSum (walk cmd (deref b)).fills = cmd.quantity - (walk cmd (deref b)).left at ht
  by_cases hr : comesToRest cmd b
  · have hp := ((comesToRest_iff h cmd).mp hr).1
    rw [if_pos hr, if_neg hp, remaining_submission h cmd hr]
    omega
  · have hn := fun hc => hr ((comesToRest_iff h cmd).mpr hc)
    rw [if_neg hr]
    by_cases hp : cmd.price = 0
    · rw [if_pos hp]
      omega
    · have hle : (walk cmd (deref b)).left ≤ 0 := by
        by_contra hl
        exact hn ⟨hp, Int.not_le.mp hl⟩
      rw [if_neg hp]
      omega

theorem submission_inert (hq : cmd.quantity ≤ 0) :
    restingTrades cmd.side (processNewOrder cmd b).2 = [] ∧ ¬ comesToRest cmd b := by
  have hw : walk cmd (deref b) = ⟨sideLevels (deref b) cmd.side.opposite, cmd.quantity, []⟩ :=
    walkLevels_done (within cmd.side cmd) cmd.userId hq _
  constructor
  · rw [newOrder_lines h, restingTrades_refNewOrder, hw]
  · rw [comesToRest_iff h, rests, hw]
    exact fun hr => Int.not_lt.mpr hq hr.2

end Submission

def SubmittedBy (cmd : Command) (o : Order) : Prop :=
  o.key = cmd.key ∧ o.side = cmd.side ∧ o.price = cmd.price

section Identity

variable {r : ReferenceBook} {n : Nat} {P : Order → Prop}

theorem refCall_origin (h : CoreInvariant r) (c : BookCall) {o : Order} (ho : o ∈ allOrders (refCall r c).1) :
    (∃ p ∈ allOrders r, o = { p with quantity := o.quantity }) ∨
      ∃ cmd, c = .processNewOrder cmd ∧ rests cmd r ∧ o.sequence = r.nextSequence ∧ SubmittedBy cmd o := by
  cases c with
  | processNewOrder cmd =>
      change o ∈ allOrders (matched cmd r) at ho
      rcases mem_matched h ho with ⟨hr, rfl⟩ | ho | ⟨_, p, hp, he⟩
      · exact Or.inr ⟨cmd, rfl, hr, rfl, rfl, rfl, rfl⟩
      · exact Or.inl ⟨o, (mem_allOrders cmd.side).mpr (Or.inl ho), rfl⟩
      · exact Or.inl ⟨p, (mem_allOrders cmd.side).mpr (Or.inr hp), he⟩
  | processCancel cmd => exact Or.inl ⟨o, mem_cancelled h ho, rfl⟩

theorem refCall_identity (h : CoreInvariant r) (hP : ∀ (o : Order) q, P o → P { o with quantity := q })
    (hlt : n < r.nextSequence) (hn : ∀ o ∈ allOrders r, o.sequence = n → P o) (c : BookCall) :
    ∀ o ∈ allOrders (refCall r c).1, o.sequence = n → P o := by
  intro o ho hs
  rcases refCall_origin h c ho with ⟨p, hp, he⟩ | ⟨_, _, _, hnew, _⟩
  · rw [he] at hs ⊢
    exact hP p _ (hn p hp hs)
  · exact absurd (hs.symm.trans hnew) (Nat.ne_of_lt hlt)

theorem matched_identity (h : CoreInvariant r) (cmd : Command) :
    ∀ o ∈ allOrders (matched cmd r), o.sequence = r.nextSequence → SubmittedBy cmd o := by
  intro o ho hs
  rcases refCall_origin h (.processNewOrder cmd) ho with ⟨p, hp, he⟩ | ⟨_, hcmd, _, _, hsub⟩
  · rw [he] at hs
    exact absurd hs (Nat.ne_of_lt (h.below p hp))
  · cases hcmd
    exact hsub

theorem run_identity {b : SymbolOrderbook} (h : Represents b)
    (hP : ∀ (o : Order) q, P o → P { o with quantity := q }) (hlt : n < b.nextSequence)
    (hn : ∀ o ∈ allOrders (deref b), o.sequence = n → P o) (post : List BookCall) :
    ∀ o ∈ allOrders (deref (final call b post)), o.sequence = n → P o := by
  induction post generalizing b with
  | nil => exact hn
  | cons c cs ih =>
      apply ih (call_represents b c h) (Nat.lt_of_lt_of_le hlt (call_nextSequence h c).1)
      have hstep := refCall_identity h.book.toCoreInvariant hP hlt hn c
      rwa [call_reads h] at hstep

end Identity

/-- The number of a submission names its order and no other, as long as the run goes on. -/
theorem number_identifies (pre post : List BookCall) (cmd : Command) (hr : comesToRest cmd (bookAfter pre)) :
    ∀ s, ∀ o ∈ restingOrders (final call (processNewOrder cmd (bookAfter pre)).1 post) s,
      o.sequence = (bookAfter pre).nextSequence → SubmittedBy cmd o := by
  have h := represents_after pre
  have hlt : (bookAfter pre).nextSequence < (processNewOrder cmd (bookAfter pre)).1.nextSequence := by
    rw [nextSequence_submission h cmd hr]
    exact Nat.lt_succ_self _
  have hfirst : ∀ o ∈ allOrders (deref (processNewOrder cmd (bookAfter pre)).1),
      o.sequence = (bookAfter pre).nextSequence → SubmittedBy cmd o := by
    rw [deref_newOrder h]
    exact matched_identity h.book.toCoreInvariant cmd
  have hall := @run_identity (bookAfter pre).nextSequence (SubmittedBy cmd) _
    (call_represents (bookAfter pre) (.processNewOrder cmd) h) (fun _ _ hp => hp) hlt
    hfirst post
  intro s o ho
  apply hall
  rw [mem_allOrders s, ← ladder_eq, resting_ladder]
  exact Or.inl ho

theorem nextSequence_pos (calls : List BookCall) : 0 < (bookAfter calls).nextSequence := by
  induction calls using List.reverseRecOn with
  | nil => exact Nat.one_pos
  | append_singleton calls c ih =>
      rw [bookAfter, final_concat]
      exact Nat.lt_of_lt_of_le ih (call_nextSequence (represents_after calls) c).1

theorem remaining_nonneg {b : SymbolOrderbook} (h : Represents b) (n : Nat) : 0 ≤ remaining n b := by
  rw [remaining_eq]
  exact numbered_nonneg h.book.positive

theorem cancelledQuantity_nonneg (n : Nat) {b : SymbolOrderbook} (h : Represents b) (post : List BookCall) :
    0 ≤ cancelledQuantity n b post := by
  induction post generalizing b with
  | nil => exact Int.le_refl _
  | cons c cs ih =>
      have hi := ih (call_represents b c h)
      have hc : 0 ≤ cancelledBy n b c := by
        cases c with
        | processNewOrder cmd => exact Int.le_refl _
        | processCancel cmd =>
            rw [cancelledBy]
            cases hk : b.ordersByKey cmd.key with
            | none => exact Int.le_refl 0
            | some it =>
                have hp := h.book.positive _ (get_mem_allOrders (h.queued _ it hk))
                simp only [orderAt]
                split_ifs <;> omega
      rw [cancelledQuantity]
      omega

theorem dropped_nonneg {b : SymbolOrderbook} (h : Represents b) (cmd : Command) (hq : 0 ≤ cmd.quantity) :
    0 ≤ dropped cmd b := by
  rw [dropped_eq h]
  split_ifs
  · exact walkLevels_left_nonneg (within cmd.side cmd) cmd.userId hq _
  · exact Int.le_refl _

/-- The account of every submission of every run is balanced: its quantity is what it traded
on arrival and while resting, what still rests, what was cancelled and what was dropped. -/
theorem account_balanced (pre post : List BookCall) (cmd : Command) :
    (0 < cmd.quantity →
      cmd.quantity = (account cmd (bookAfter pre) post).incoming + (account cmd (bookAfter pre) post).resting +
          (account cmd (bookAfter pre) post).remaining + (account cmd (bookAfter pre) post).cancelled +
          (account cmd (bookAfter pre) post).dropped ∧
        (account cmd (bookAfter pre) post).incoming + (account cmd (bookAfter pre) post).resting ≤
          cmd.quantity) ∧
    (cmd.quantity ≤ 0 →
      restingTrades cmd.side (processNewOrder cmd (bookAfter pre)).2 = [] ∧
        ¬ comesToRest cmd (bookAfter pre)) := by
  have h := represents_after pre
  have h' : Represents (processNewOrder cmd (bookAfter pre)).1 :=
    call_represents (bookAfter pre) (.processNewOrder cmd) h
  have hfinal : Represents (final call (processNewOrder cmd (bookAfter pre)).1 post) :=
    final_preserves call Represents call_represents post _ h'
  refine ⟨fun hq => ?_, submission_inert h cmd⟩
  have hsub := submission_balance h cmd hq
  have hdrop := dropped_nonneg h cmd (Int.le_of_lt hq)
  have hrem := remaining_nonneg hfinal (bookAfter pre).nextSequence
  have hcan := cancelledQuantity_nonneg (bookAfter pre).nextSequence h' post
  simp only [account]
  by_cases hr : comesToRest cmd (bookAfter pre)
  · have hlt : (bookAfter pre).nextSequence < (processNewOrder cmd (bookAfter pre)).1.nextSequence := by
      rw [nextSequence_submission h cmd hr]
      exact Nat.lt_succ_self _
    have hrun := run_balance h' (nextSequence_pos pre) hlt post
    simp only [if_pos hr] at hsub ⊢
    omega
  · simp only [if_neg hr] at hsub ⊢
    omega

end Orderbook.Ledger

import Orderbook.Crossing
import Orderbook.Legality
import Orderbook.Neutrality

namespace Orderbook.Resubmission

open Domain Ladder Matching Book Reference ReferenceInvariant Slots SlotReuse Orderbook.Representation
  Observations Crossing Priority Ledger Legality FlatBook Neutrality Library.QueueFill Library.Runs

def resubmit (symbol : Text) (o : Order) : Command :=
  newOrderCommand symbol o.side o.userId o.userOrderId o.price o.quantity

def resubmission (symbol : Text) (o : Order) : BookCall := .processNewOrder (resubmit symbol o)

def byArrival (orders : List Order) : List Order := orders.mergeSort (fun o p => o.sequence ≤ p.sequence)

def resubmissions (symbol : Text) (orders : List Order) : List BookCall :=
  (byArrival orders).map (resubmission symbol)

def Indexed (b : SymbolOrderbook) : Prop := ∀ it ∈ used b, b.ordersByKey (orderAt b it).key = some it

instance (b : SymbolOrderbook) : Decidable (Indexed b) := inferInstanceAs (Decidable (∀ it ∈ used b, _))

/-- The book as it would be if only the arrivals before `n` had come. -/
def upTo (n : Nat) (b : PriorityBook) : PriorityBook where
  bids := b.bids.filter (fun o => o.sequence < n)
  asks := b.asks.filter (fun o => o.sequence < n)
  instances k := (b.instances k).filter (· < n)
  nextSequence := n

/-- What makes a book one that can be rebuilt from its orders. -/
structure Rebuildable (b : PriorityBook) : Prop where
  sorted : ∀ s, (ordersOf b s).Pairwise (Prior s)
  side : ∀ s, ∀ o ∈ ordersOf b s, o.side = s
  positive : ∀ s, ∀ o ∈ ordersOf b s, 0 < o.quantity
  priced : ∀ s, ∀ o ∈ ordersOf b s, o.price ≠ 0
  arrived : ∀ s, ∀ o ∈ ordersOf b s, 0 < o.sequence ∧ o.sequence < b.nextSequence
  started : 0 < b.nextSequence
  unique : ((b.bids ++ b.asks).map Order.sequence).Nodup
  named : ∀ k n, b.instances k = some n → ∃ s, ∃ o ∈ ordersOf b s, o.sequence = n ∧ o.key = k
  indexed : ∀ s, ∀ o ∈ ordersOf b s, b.instances o.key = some o.sequence
  uncrossed : Uncrossed b.bids b.asks

@[simp] theorem ordersOf_upTo (n : Nat) (b : PriorityBook) (s : Side) :
    ordersOf (upTo n b) s = (ordersOf b s).filter (fun o => o.sequence < n) := by
  cases s <;> rfl

@[simp] theorem upTo_instances (n : Nat) (b : PriorityBook) (k : OrderKey) :
    (upTo n b).instances k = (b.instances k).filter (· < n) := rfl

@[simp] theorem upTo_nextSequence (n : Nat) (b : PriorityBook) : (upTo n b).nextSequence = n := rfl

theorem mem_all_iff {b : PriorityBook} {o : Order} : o ∈ b.bids ++ b.asks ↔ ∃ s, o ∈ ordersOf b s := by
  rw [List.mem_append]
  constructor
  · rintro (h | h)
    · exact ⟨.buy, h⟩
    · exact ⟨.sell, h⟩
  · rintro ⟨s, h⟩
    cases s with
    | buy => exact Or.inl h
    | sell => exact Or.inr h

theorem putOrders_self (b : PriorityBook) (s : Side) : putOrders b s (ordersOf b s) = b := by
  cases s <;> rfl

theorem filter_append_filter_not {P : Order → Prop} [DecidablePred P] {os : List Order}
    (h : os.Pairwise (fun o p => P p → P o)) :
    os.filter (fun o => P o) ++ os.filter (fun o => ¬ P o) = os := by
  induction os with
  | nil => rfl
  | cons o os ih =>
      obtain ⟨hfirst, hrest⟩ := List.pairwise_cons.mp h
      by_cases ho : P o
      · rw [List.filter_cons_of_pos (by simpa using ho), List.filter_cons_of_neg (by simpa using ho),
          List.cons_append, ih hrest]
      · have hnone : ∀ p ∈ o :: os, ¬ P p := by
          rw [List.forall_mem_cons]
          exact ⟨ho, fun p hp hP => ho (hfirst p hp hP)⟩
        rw [(filter_none hnone).1, (filter_none hnone).2, List.nil_append]

section Untouched

variable {b : PriorityBook} {cmd : Command}

theorem prior_not_ahead {s : Side} {o p : Order} (h : Prior s o p) : ¬ s.ahead p.price o.price := by
  rcases h with h | ⟨h, -⟩
  · exact s.ahead_asymm h
  · rw [h]
    exact s.ahead_irrefl _

theorem reachable_front (hs : (ordersOf b cmd.side.opposite).Pairwise (Prior cmd.side.opposite)) :
    (ordersOf b cmd.side.opposite).Pairwise (fun o p =>
      Reachable cmd.side.opposite (within cmd.side cmd) cmd.userId (ordersOf b cmd.side.opposite) p →
        Reachable cmd.side.opposite (within cmd.side cmd) cmd.userId (ordersOf b cmd.side.opposite) o) := by
  apply hs.imp
  rintro o p hop ⟨hp, hown⟩
  rcases hop with hahead | ⟨hsame, -⟩
  · refine ⟨within_of_ahead cmd _ _ hahead hp, fun q hq hu hqo => hown q hq hu ?_⟩
    exact cmd.side.opposite.ahead_trans hqo hahead
  · rw [Reachable, hsame]
    exact ⟨hp, hown⟩

theorem serve_untouched (hs : (ordersOf b cmd.side.opposite).Pairwise (Prior cmd.side.opposite))
    (hq : 0 < cmd.quantity)
    (hown : ∀ o ∈ ordersOf b cmd.side.opposite, within cmd.side cmd o.price = true →
      o.userId = cmd.userId) :
    served cmd b = b ∧ (serve cmd b).left = cmd.quantity := by
  have hserve : serve cmd b = ⟨reachable cmd.side.opposite (within cmd.side cmd) cmd.userId
      (ordersOf b cmd.side.opposite), cmd.quantity, []⟩ := by
    apply fill_skipped _ hq
    intro o ho
    obtain ⟨hm, hr⟩ := List.mem_filter.mp ho
    simpa using hown o hm (of_decide_eq_true hr).1
  refine ⟨?_, by rw [hserve]⟩
  have horders : reachable cmd.side.opposite (within cmd.side cmd) cmd.userId (ordersOf b cmd.side.opposite) ++
      unreachable cmd.side.opposite (within cmd.side cmd) cmd.userId (ordersOf b cmd.side.opposite) =
        ordersOf b cmd.side.opposite := filter_append_filter_not (reachable_front hs)
  rw [served, hserve]
  simp only [horders, putOrders_self]
  rfl

end Untouched

section Replay

variable {b : PriorityBook} {o : Order} {s : Side}

theorem eq_of_sequence (h : Rebuildable b) {p : Order} {t : Side} (ho : o ∈ ordersOf b s)
    (hp : p ∈ ordersOf b t) (he : o.sequence = p.sequence) : o = p :=
  List.inj_on_of_nodup_map h.unique (mem_all_iff.mpr ⟨s, ho⟩) (mem_all_iff.mpr ⟨t, hp⟩) he

theorem filter_arrived {orders : List Order} {n : Nat} (h : ∀ p ∈ orders, p.sequence ≠ n) :
    orders.filter (fun p => p.sequence < n + 1) = orders.filter (fun p => p.sequence < n) := by
  apply List.filter_congr
  intro p hp
  have hne := h p hp
  rw [decide_eq_decide]
  omega

theorem enqueue_upTo (h : Rebuildable b) (ho : o ∈ ordersOf b s) :
    enqueue s o ((ordersOf b s).filter (fun p => p.sequence < o.sequence)) =
      (ordersOf b s).filter (fun p => p.sequence < o.sequence + 1) := by
  obtain ⟨pre, post, hsplit⟩ := List.append_of_mem ho
  have hsorted := h.sorted s
  rw [hsplit, List.pairwise_append, List.pairwise_cons] at hsorted
  obtain ⟨-, ⟨hpost, -⟩, hpre⟩ := hsorted
  have hfront : ∀ p ∈ pre, p.sequence ≠ o.sequence := by
    intro p hp he
    have hprior := hpre p hp o List.mem_cons_self
    rw [eq_of_sequence h (hsplit ▸ List.mem_append_left _ hp) ho he] at hprior
    exact prior_irrefl s o hprior
  have hback : ∀ p ∈ post, p.sequence ≠ o.sequence := by
    intro p hp he
    have hprior := hpost p hp
    rw [eq_of_sequence h (hsplit ▸ List.mem_append_right _ (List.mem_cons_of_mem o hp)) ho he] at hprior
    exact prior_irrefl s o hprior
  rw [hsplit, List.filter_append, List.filter_cons_of_neg (by simp), List.filter_append,
    List.filter_cons_of_pos (by simp), filter_arrived hfront, filter_arrived hback, enqueue_front,
    enqueue_behind]
  · -- an order of the same price behind this one has not arrived
    intro p hp
    obtain ⟨hm, hlt⟩ := List.mem_filter.mp hp
    rcases hpost p hm with hahead | ⟨-, hgt⟩
    · exact hahead
    · exact absurd (of_decide_eq_true hlt) (Nat.lt_asymm hgt)
  · intro p hp
    exact prior_not_ahead (hpre p (List.mem_of_mem_filter hp) o List.mem_cons_self)

theorem instances_upTo (h : Rebuildable b) (ho : o ∈ ordersOf b s) :
    Function.update (upTo o.sequence b).instances o.key (some o.sequence) =
      (upTo (o.sequence + 1) b).instances := by
  funext k
  by_cases hk : k = o.key
  · rw [hk, Function.update_self, upTo_instances, h.indexed s o ho]
    exact (if_pos (decide_eq_true (Nat.lt_succ_self o.sequence))).symm
  · rw [Function.update_of_ne hk, upTo_instances, upTo_instances]
    cases hn : b.instances k with
    | none => rfl
    | some n =>
        obtain ⟨t, p, hp, rfl, hpk⟩ := h.named k n hn
        have hne : p.sequence ≠ o.sequence := by
          intro he
          rw [eq_of_sequence h hp ho he] at hpk
          exact hk hpk.symm
        have hiff : (p.sequence < o.sequence) = (p.sequence < o.sequence + 1) := propext (by omega)
        simp only [Option.filter_some, hiff]

theorem exceeds_of_uncrossed (h : Uncrossed b.bids b.asks) {p : Order} (ho : o ∈ ordersOf b s)
    (hp : p ∈ ordersOf b s.opposite) (hu : p.userId ≠ o.userId) :
    exceedsLimit s p.price o.price = true := by
  cases s with
  | buy => exact decide_eq_true (h o ho p hp (Ne.symm hu))
  | sell => exact decide_eq_true (h p hp o ho hu)

theorem resubmit_untouched (h : Rebuildable b) (symbol : Text) (ho : o ∈ ordersOf b s) (n : Nat) :
    served (resubmit symbol o) (upTo n b) = upTo n b ∧
      (serve (resubmit symbol o) (upTo n b)).left = o.quantity := by
  have hside := h.side s o ho
  apply serve_untouched
  · rw [ordersOf_upTo]
    exact (h.sorted _).filter _
  · exact h.positive s o ho
  · intro p hp hwithin
    rw [ordersOf_upTo] at hp
    have hm := List.mem_of_mem_filter hp
    have hprice := h.priced s o ho
    by_contra hu
    have hpm : p ∈ ordersOf b s.opposite := hside ▸ hm
    have hcross := exceeds_of_uncrossed h.uncrossed ho hpm hu
    simp [resubmit, newOrderCommand, within, hprice, hside, hcross] at hwithin

theorem submitted_upTo (h : Rebuildable b) (symbol : Text) (ho : o ∈ ordersOf b s) :
    submitted (resubmit symbol o) (upTo o.sequence b) = upTo (o.sequence + 1) b := by
  obtain ⟨hserved, hleft⟩ := resubmit_untouched h symbol ho o.sequence
  have hrests : (resubmit symbol o).price ≠ 0 ∧ 0 < (serve (resubmit symbol o) (upTo o.sequence b)).left :=
    ⟨h.priced s o ho, by rw [hleft]; exact h.positive s o ho⟩
  rw [submitted, if_pos hrests, hserved, hleft]
  obtain rfl : o.side = s := h.side s o ho
  have henqueue := enqueue_upTo h ho
  have hinstances := instances_upTo h ho
  have horders (t : Side) : ordersOf (rested (resubmit symbol o) o.quantity (upTo o.sequence b)) t =
      ordersOf (upTo (o.sequence + 1) b) t := by
    rw [ordersOf_rested, ordersOf_upTo o.sequence, ordersOf_upTo o.sequence b t, ordersOf_upTo (o.sequence + 1)]
    by_cases ht : t = o.side
    · rw [ht]
      exact (if_pos rfl).trans henqueue
    · have hother : ∀ p ∈ ordersOf b t, p.sequence ≠ o.sequence := by
        intro p hp he
        rw [eq_of_sequence h hp ho he] at hp
        exact ht (h.side t o hp).symm
      exact (if_neg ht).trans (filter_arrived hother).symm
  ext1
  · exact horders .buy
  · exact horders .sell
  · exact hinstances
  · rfl

theorem upTo_all (h : Rebuildable b) : upTo b.nextSequence b = b := by
  have horders (s : Side) : (ordersOf b s).filter (fun o => o.sequence < b.nextSequence) = ordersOf b s := by
    rw [List.filter_eq_self]
    exact fun o ho => decide_eq_true (h.arrived s o ho).2
  ext1
  · exact horders .buy
  · exact horders .sell
  · funext k
    rw [upTo_instances]
    cases hn : b.instances k with
    | none => rfl
    | some n =>
        obtain ⟨s, o, ho, rfl, -⟩ := h.named k n hn
        exact if_pos (decide_eq_true (h.arrived s o ho).2)
  · rfl

end Replay

/-- The relabelling that changes no name, no price and no quantity: only arrival numbers differ. -/
def same : Relabelling where
  user := id
  orderId _ := id
  symbol := id
  price := id
  unit := 1
  user_injective := Function.injective_id
  orderId_injective _ := Function.injective_id
  symbol_injective := Function.injective_id
  price_lt h := h
  price_zero := rfl
  unit_pos := Int.one_pos

theorem same_command (cmd : Command) : same.command cmd = cmd := by
  simp [same, Relabelling.command]

theorem same_call (c : BookCall) : same.call c = c := by
  cases c with
  | processNewOrder cmd => exact congrArg _ (same_command cmd)
  | processCancel cmd => exact congrArg _ (same_command cmd)

theorem map_same_call (calls : List BookCall) : calls.map same.call = calls :=
  (List.map_congr_left fun c _ => same_call c).trans (List.map_id calls)

theorem serve_same {seq : Nat → Nat} {b c : PriorityBook} (h : Relabels same seq b c) (cmd : Command) :
    (serve cmd c).left = (serve cmd b).left := by
  have hserve := congrArg Filled.left (serve_relabels h cmd)
  rw [same_command] at hserve
  exact hserve.trans (Int.one_mul _)

/-- No line shows an arrival number. -/
theorem render_same (seq : Nat → Nat) (l : OutputLine) : render (same.line seq l) = render l := by
  cases l with
  | ack => rfl
  | cancelAck => rfl
  | trade buy sell tradePrice tradeQty => simp [render, Relabelling.line, Relabelling.order, same]
  | top side tob => simp [render, Relabelling.line, Relabelling.top, same]

/-- What the arrivals `1, 2, ..` of the rebuilt book are numbered in the book it is built from; 0 is
the number of no arrival. -/
def numbering (orders : List Order) (next : Nat) : Nat → Nat
  | 0 => 0
  | j + 1 => ((orders[j]?).map Order.sequence).getD (next + (j - orders.length))

section Numbering

variable {orders : List Order} {next j : Nat}

theorem numbering_of_lt (h : j < orders.length) : numbering orders next (j + 1) = orders[j].sequence := by
  rw [numbering, List.getElem?_eq_getElem h]
  rfl

theorem numbering_of_ge (h : orders.length ≤ j) :
    numbering orders next (j + 1) = next + (j - orders.length) := by
  rw [numbering, List.getElem?_eq_none h]
  rfl

theorem numbering_succ {n : Nat} (h : orders.length < n) :
    numbering orders next (n + 1) = numbering orders next n + 1 := by
  obtain ⟨j, rfl⟩ := Nat.exists_eq_add_of_lt h
  rw [numbering_of_ge (by omega), numbering_of_ge (by omega)]
  omega

theorem numbering_injective (hinc : orders.Pairwise (fun o p => o.sequence < p.sequence))
    (harrived : ∀ o ∈ orders, 0 < o.sequence ∧ o.sequence < next) (hstarted : 0 < next) :
    Function.Injective (numbering orders next) := by
  apply StrictMono.injective
  apply strictMono_nat_of_lt_succ
  intro n
  cases n with
  | zero =>
      by_cases h : 0 < orders.length
      · rw [numbering_of_lt h]
        exact (harrived _ (List.getElem_mem h)).1
      · rw [numbering_of_ge (Nat.not_lt.mp h)]
        exact Nat.lt_add_right _ hstarted
  | succ j =>
      by_cases h : j + 1 < orders.length
      · have hj : j < orders.length := Nat.lt_of_succ_lt h
        rw [numbering_of_lt h, numbering_of_lt hj]
        exact List.pairwise_iff_getElem.mp hinc j (j + 1) hj h (Nat.lt_succ_self j)
      · rw [numbering_of_ge (Nat.not_lt.mp h)]
        by_cases hj : j < orders.length
        · rw [numbering_of_lt hj]
          exact Nat.lt_add_right _ (harrived _ (List.getElem_mem hj)).2
        · rw [numbering_of_ge (Nat.not_lt.mp hj)]
          omega

end Numbering

section Rebuilt

variable {b c : PriorityBook} {orders pre suf : List Order} {o : Order}

theorem byArrival_perm (orders : List Order) : (byArrival orders).Perm orders := List.mergeSort_perm _ _

theorem byArrival_increasing (h : (orders.map Order.sequence).Nodup) :
    (byArrival orders).Pairwise (fun o p => o.sequence < p.sequence) := by
  have hsorted : (byArrival orders).Pairwise (fun o p => decide (o.sequence ≤ p.sequence) = true) := by
    apply List.pairwise_mergeSort
    · intro o p q
      simpa using Nat.le_trans
    · intro o p
      simpa using Nat.le_total o.sequence p.sequence
  have hne := List.pairwise_map.mp (((byArrival_perm orders).map Order.sequence).nodup_iff.mpr h)
  apply (hsorted.and hne).imp
  rintro o p ⟨hle, hne⟩
  exact Nat.lt_of_le_of_ne (of_decide_eq_true hle) hne

section Split

variable (hinc : (pre ++ o :: suf).Pairwise (fun o p => o.sequence < p.sequence)) {p : Order}
  (hp : p ∈ pre ++ o :: suf)
include hinc hp

theorem before_iff : p.sequence < o.sequence ↔ p ∈ pre := by
  rw [List.pairwise_append, List.pairwise_cons] at hinc
  obtain ⟨-, ⟨hsuf, -⟩, hpre⟩ := hinc
  constructor
  · intro hlt
    rcases List.mem_append.mp hp with hmem | hmem
    · exact hmem
    · rcases List.mem_cons.mp hmem with rfl | hmem
      · exact absurd hlt (Nat.lt_irrefl _)
      · exact absurd hlt (Nat.lt_asymm (hsuf p hmem))
  · exact fun hmem => hpre p hmem o List.mem_cons_self

theorem through_iff : p.sequence < o.sequence + 1 ↔ p ∈ pre ++ [o] := by
  rw [List.append_cons] at hinc hp
  rw [List.pairwise_append] at hinc
  obtain ⟨hfront, -, hsuf⟩ := hinc
  constructor
  · intro hlt
    rcases List.mem_append.mp hp with hmem | hmem
    · exact hmem
    · have hgt := hsuf o (List.mem_append_right pre List.mem_cons_self) p hmem
      exact absurd (Nat.le_of_lt_succ hlt) (Nat.not_le_of_gt hgt)
  · intro hmem
    rw [List.pairwise_append] at hfront
    rcases List.mem_append.mp hmem with hmem | hmem
    · exact Nat.lt_succ_of_lt (hfront.2.2 p hmem o List.mem_cons_self)
    · rw [List.mem_singleton.mp hmem]
      exact Nat.lt_succ_self _

end Split

theorem relabels_upTo {ρ : Relabelling} {seq : Nat → Nat} (h : Rebuildable b) {m n : Nat}
    (hmn : ∀ o ∈ b.bids ++ b.asks, o.sequence < m ↔ o.sequence < n) (hr : Relabels ρ seq c (upTo m b)) :
    Relabels ρ seq c (upTo n b) := by
  constructor
  · intro s
    rw [← hr.orders, ordersOf_upTo, ordersOf_upTo]
    apply List.filter_congr
    intro o ho
    rw [decide_eq_decide]
    exact (hmn o (mem_all_iff.mpr ⟨s, ho⟩)).symm
  · intro k
    rw [← hr.instances, upTo_instances, upTo_instances]
    cases hn : b.instances (ρ.key k) with
    | none => rfl
    | some i =>
        obtain ⟨s, o, ho, rfl, -⟩ := h.named _ i hn
        have hiff : (o.sequence < n) = (o.sequence < m) := propext (hmn o (mem_all_iff.mpr ⟨s, ho⟩)).symm
        simp only [Option.filter_some, hiff]

theorem upTo_none (h : Rebuildable b) {ρ : Relabelling} {seq : Nat → Nat} {m : Nat}
    (hm : ∀ o ∈ b.bids ++ b.asks, ¬ o.sequence < m) : Relabels ρ seq {} (upTo m b) := by
  constructor
  · intro s
    have hnone : (ordersOf b s).filter (fun o => o.sequence < m) = [] :=
      (filter_none fun o ho => hm o (mem_all_iff.mpr ⟨s, ho⟩)).1
    rw [ordersOf_upTo, hnone]
    cases s <;> rfl
  · intro k
    rw [upTo_instances]
    cases hn : b.instances (ρ.key k) with
    | none => rfl
    | some i =>
        obtain ⟨s, o, ho, rfl, -⟩ := h.named _ i hn
        exact if_neg (by simpa using hm o (mem_all_iff.mpr ⟨s, ho⟩))

/-- The orders that came back so far make the part of the book that had arrived by then. -/
theorem replayed (h : Rebuildable b) (symbol : Text) (hperm : orders.Perm (b.bids ++ b.asks))
    (hinc : orders.Pairwise (fun o p => o.sequence < p.sequence)) (hsplit : orders = pre ++ suf) {m : Nat}
    (hm : ∀ o ∈ orders, o.sequence < m ↔ o ∈ pre) :
    Relabels same (numbering orders b.nextSequence) (final (flatCall id) {} (pre.map (resubmission symbol)))
        (upTo m b) ∧
      (final (flatCall id) {} (pre.map (resubmission symbol))).nextSequence = pre.length + 1 := by
  induction pre using List.reverseRecOn generalizing suf m with
  | nil =>
      refine ⟨upTo_none h fun o ho => ?_, rfl⟩
      rw [hm o (hperm.mem_iff.mpr ho)]
      exact List.not_mem_nil
  | append_singleton pre o ih =>
      have hcons : orders = pre ++ o :: suf := by rw [hsplit, ← List.append_cons]
      have ho : o ∈ orders := hcons ▸ List.mem_append_right pre List.mem_cons_self
      obtain ⟨s, hos⟩ := mem_all_iff.mp (hperm.mem_iff.mp ho)
      obtain ⟨hr, hnext⟩ := ih hcons (fun p hp => before_iff (hcons ▸ hinc) (hcons ▸ hp))
      have hlt : pre.length < orders.length := by
        rw [hcons, List.length_append, List.length_cons]
        omega
      have hget : orders[pre.length] = o := by
        simp [hcons]
      have hnumber : (upTo o.sequence b).nextSequence =
          numbering orders b.nextSequence (final (flatCall id) {} (pre.map (resubmission symbol))).nextSequence := by
        rw [hnext, numbering_of_lt hlt, hget]
        rfl
      have hafter := hr.submitted hnumber (resubmit symbol o)
      rw [same_command, submitted_upTo h symbol hos] at hafter
      rw [List.map_append, List.map_singleton, final_concat]
      constructor
      · apply relabels_upTo h _ hafter
        intro p hp
        have hpm := hperm.mem_iff.mpr hp
        rw [hm p hpm, through_iff (hcons ▸ hinc) (hcons ▸ hpm)]
      · have hleft :
            0 < (serve (resubmit symbol o) (final (flatCall id) {} (pre.map (resubmission symbol)))).left := by
          rw [← serve_same hr, (resubmit_untouched h symbol hos o.sequence).2]
          exact h.positive s o hos
        have hrests := (submitted_nextSequence _ _).trans (if_pos ⟨h.priced s o hos, hleft⟩)
        rw [hnext] at hrests
        rw [List.length_append]
        exact hrests

theorem rebuilt_flat (h : Rebuildable b) (symbol : Text) (later : List BookCall) :
    (output (flatCall id) (final (flatCall id) {} (resubmissions symbol (b.bids ++ b.asks))) later).map render =
      (output (flatCall id) b later).map render := by
  have hperm := byArrival_perm (b.bids ++ b.asks)
  have hinc := byArrival_increasing h.unique
  have harrived : ∀ o ∈ byArrival (b.bids ++ b.asks), 0 < o.sequence ∧ o.sequence < b.nextSequence := by
    intro o ho
    obtain ⟨s, hs⟩ := mem_all_iff.mp (hperm.mem_iff.mp ho)
    exact h.arrived s o hs
  have hall : ∀ o ∈ byArrival (b.bids ++ b.asks),
      o.sequence < b.nextSequence ↔ o ∈ byArrival (b.bids ++ b.asks) :=
    fun o ho => iff_of_true (harrived o ho).2 ho
  obtain ⟨hr, hcount⟩ := replayed h symbol hperm hinc (List.append_nil _).symm hall
  have hinjective := numbering_injective hinc harrived h.started
  rw [upTo_all h] at hr
  rw [resubmissions]
  generalize final (flatCall id) {} ((byArrival (b.bids ++ b.asks)).map (resubmission symbol)) = c at hr hcount ⊢
  have hnumber : b.nextSequence = numbering (byArrival (b.bids ++ b.asks)) b.nextSequence c.nextSequence := by
    rw [hcount, numbering_of_ge (Nat.le_refl _), Nat.sub_self, Nat.add_zero]
  have hsucc : ∀ n, c.nextSequence ≤ n → numbering (byArrival (b.bids ++ b.asks)) b.nextSequence (n + 1) =
      numbering (byArrival (b.bids ++ b.asks)) b.nextSequence n + 1 := by
    intro n hn
    exact numbering_succ (by omega)
  have hexact : ∀ q : Int, id (same.unit * q) = same.unit * id q := fun _ => rfl
  have hlines := run_relabels rfl hinjective hexact later hr hnumber hsucc
  rw [map_same_call] at hlines
  rw [hlines, List.map_map]
  exact List.map_congr_left fun l _ => (render_same _ l).symm

end Rebuilt

theorem rebuildable_after (calls : List BookCall) (hx : BookUncrossed (bookAfter calls))
    (hi : Indexed (bookAfter calls)) : Rebuildable (flatten (deref (bookAfter calls))) := by
  have h := represents_after calls
  have hall {s : Side} {o : Order} (ho : o ∈ ordersOf (flatten (deref (bookAfter calls))) s) :
      o ∈ allOrders (deref (bookAfter calls)) := by
    rw [ordersOf_flatten] at ho
    exact (mem_allOrders s).mpr (Or.inl ho)
  constructor
  case sorted =>
    intro s
    rw [ordersOf_flatten]
    exact resting_pairwise (h.book.side s)
  case side =>
    intro s
    rw [ordersOf_flatten]
    exact (h.book.side s).side_eq
  case positive => exact fun s o ho => h.book.positive o (hall ho)
  case priced =>
    intro s o ho
    obtain ⟨pre, cmd, -, -, hrests, -, -, -, hprice⟩ := submitted_after calls o (hall ho)
    rw [hprice]
    exact ((comesToRest_iff (represents_after pre) cmd).mp hrests).1
  case arrived =>
    exact fun s o ho => ⟨sequence_pos (submitted_after calls o (hall ho)), h.book.below o (hall ho)⟩
  case started => exact nextSequence_pos calls
  case unique => exact h.book.unique
  case named =>
    intro k n hn
    obtain ⟨o, ho, hon⟩ := h.book.named k n hn
    obtain ⟨s, hs⟩ := (mem_all_iff (b := flatten (deref (bookAfter calls)))).mp ho
    exact ⟨s, o, hs, hon⟩
  case indexed =>
    intro s o ho
    have hm := hall ho
    rw [allOrders_deref] at hm
    obtain ⟨it, hit, rfl⟩ := List.mem_map.mp hm
    exact congrArg (Option.map _) (hi it hit)
  case uncrossed => exact (bookUncrossed_iff _).mp hx

/-- The resting orders, in the order of their arrival, are all that a book goes by: submitted again to
a new book, each with what is left of it, they make one that answers the same to every later run. -/
theorem rebuilt_agrees (symbol : Text) (calls later : List BookCall) (hx : BookUncrossed (bookAfter calls))
    (hi : Indexed (bookAfter calls)) :
    (output call (bookAfter (resubmissions symbol (allResting (bookAfter calls)))) later).map render =
      (output call (bookAfter calls) later).map render := by
  have hflat := rebuilt_flat (rebuildable_after calls hx hi) symbol later
  have horders : (flatten (deref (bookAfter calls))).bids ++ (flatten (deref (bookAfter calls))).asks =
      allResting (bookAfter calls) := (allResting_eq _).symm
  rw [horders] at hflat
  generalize resubmissions symbol (allResting (bookAfter calls)) = again at hflat ⊢
  have hagain : final (flatCall id) {} again = flatten (deref (bookAfter again)) := (flat_run represents_empty again).1
  rw [hagain, (flat_run (represents_after _) later).2, (flat_run (represents_after _) later).2] at hflat
  exact hflat

def partlyFilled : List BookCall :=
  [.processNewOrder (newOrderCommand [] .sell 1 1 101 5), .processNewOrder (newOrderCommand [] .buy 2 2 100 4),
    .processNewOrder (newOrderCommand [] .buy 3 3 100 2), .processNewOrder (newOrderCommand [] .sell 4 4 100 1)]

theorem rebuilt_partlyFilled : BookUncrossed (bookAfter partlyFilled) ∧ Indexed (bookAfter partlyFilled) ∧
    (output call (bookAfter (resubmissions [] (allResting (bookAfter partlyFilled))))
        [.processCancel (cancelCommand 2 2)]).map render =
      (output call (bookAfter partlyFilled) [.processCancel (cancelCommand 2 2)]).map render := by
  have hx : BookUncrossed (bookAfter partlyFilled) := by decide +kernel
  have hi : Indexed (bookAfter partlyFilled) := by decide +kernel
  exact ⟨hx, hi, rebuilt_agrees [] partlyFilled _ hx hi⟩

end Orderbook.Resubmission

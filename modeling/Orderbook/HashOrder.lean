import Orderbook.Broadcast
import Mathlib.Data.List.Rotate

namespace Orderbook.HashOrder

open Domain SlotPool Ladder Book Slots SlotCancel SlotReuse Orderbook.Representation Engine CancelEffect
  Rendering Library.Runs

/-- What a cancel of `key` does to the best levels of a book: nothing, unless the order
stands in the best level of its side; then that level loses it. -/
def cancelTop (key : OrderKey) (b : SymbolOrderbook) : Option (Side × TopOfBook) :=
  match b.ordersByKey key with
  | none => none
  | some it =>
      match levels b (orderAt b it).side with
      | [] => none
      | best :: rest =>
          if best.price = (orderAt b it).price then
            some ((orderAt b it).side,
              if best.orders = [it] then computeTop rest
              else ⟨true, best.price, best.totalQuantity - (orderAt b it).quantity⟩)
          else none

/-- All books agree on what a cancel of `key` does to their best levels. -/
def Unanimous (key : OrderKey) (e : MatchingEngine) : Prop :=
  ∀ x ∈ e.books, ∀ y ∈ e.books, cancelTop key x.2 = cancelTop key y.2

def published (v : Nat → VisitOrder) (cmds : List Command) : List Text :=
  (output (engineStep v) engineStart cmds).map render

def OrderFree (cmds : List Command) : Prop :=
  ∀ v w : Nat → VisitOrder, published v cmds = published w cmds

def topLine : Side × TopOfBook → OutputLine := fun t => .top t.1 t.2

section Book

variable {b : SymbolOrderbook} {key : OrderKey}

theorem topEqual_refl (t : TopOfBook) : topEqual t t = true := by
  rw [topEqual_iff]
  exact ⟨rfl, fun _ => ⟨rfl, rfl⟩⟩

theorem topChange_same (s : Side) (t : TopOfBook) : topChange s t t = [] := by
  rw [topChange, if_pos (topEqual_refl t)]

theorem topChange_differs {s : Side} {old new : TopOfBook} (h : topEqual old new = false) :
    topChange s old new = [.top s new] := by
  rw [topChange, if_neg]
  simp [h]

theorem computeTop_differs {s : Side} {level : PriceLevel OrderIterator}
    {rest : List (PriceLevel OrderIterator)}
    (hs : ((level :: rest).map PriceLevel.price).Pairwise s.ahead) :
    topEqual (computeTop (level :: rest)) (computeTop rest) = false := by
  rw [Bool.eq_false_iff]
  intro he
  obtain ⟨hv, hp⟩ := (topEqual_iff _ _).mp he
  cases rest with
  | nil => cases hv
  | cons next rest =>
      rw [List.map_cons, List.pairwise_cons] at hs
      have hahead := hs.1 next.price List.mem_cons_self
      exact s.ne_of_ahead hahead (hp rfl).1

theorem quantity_differs {price total q : Int} (hq : 0 < q) :
    topEqual ⟨true, price, total⟩ ⟨true, price, total - q⟩ = false := by
  rw [Bool.eq_false_iff]
  intro he
  have ht : total = total - q := (((topEqual_iff _ _).mp he).2 rfl).2
  omega

def sideChange (key : OrderKey) (b : SymbolOrderbook) (s : Side) : List OutputLine :=
  topChange s (computeTop (levels b s)) (computeTop (levels (cancelOrder key b) s))

theorem sideChange_of_levels {s : Side} (h : levels (cancelOrder key b) s = levels b s) :
    sideChange key b s = [] := by
  rw [sideChange, h]
  exact topChange_same s _

theorem processCancel_sides (h : Represents b) (cmd : Command) :
    (processCancel cmd b).2 = .cancelAck cmd.userId cmd.userOrderId ::
      (sideChange cmd.key b .buy ++ sideChange cmd.key b .sell) := by
  have hbid : b.currentTopBid = computeTop b.bids := h.book.topBid.trans (computeTop_map _ _)
  have hask : b.currentTopAsk = computeTop b.asks := h.book.topAsk.trans (computeTop_map _ _)
  rw [processCancel, hbid, hask]
  rfl

theorem sides_eq {f : Side → List OutputLine} {s : Side} (h : f s.opposite = []) :
    f .buy ++ f .sell = f s := by
  cases s with
  | buy => exact (congrArg (f .buy ++ ·) h).trans (List.append_nil _)
  | sell => exact congrArg (· ++ f .sell) h

variable {it : OrderIterator} {pre post : List (PriceLevel OrderIterator)} {level : PriceLevel OrderIterator}

theorem erase_eq_nil_iff (hm : it ∈ level.orders) :
    (level.orders.erase it).isEmpty = true ↔ level.orders = [it] := by
  rw [List.isEmpty_iff]
  constructor
  · intro he
    have hp := List.perm_cons_erase hm
    rw [he] at hp
    exact List.perm_singleton.mp hp
  · intro he
    rw [he, List.erase_cons_head]

theorem sideChange_best (h : Represents b) (hk : b.ordersByKey key = some it) (hit : it ∈ used b)
    (hst : Standing b it [] level post) :
    sideChange key b (get b.slotPool it).side =
      [.top (get b.slotPool it).side
        (if level.orders = [it] then computeTop post
        else ⟨true, level.price, level.totalQuantity - (get b.slotPool it).quantity⟩)] := by
  have hsorted := side_sorted h (get b.slotPool it).side
  have hpos : 0 < (get b.slotPool it).quantity := h.book.positive _ (get_mem_allOrders hit)
  rw [hst.split] at hsorted
  rw [sideChange, cancelOrder_own h.book.toCoreInvariant hk hit hst, hst.split, without]
  by_cases he : level.orders = [it]
  · rw [if_pos ((erase_eq_nil_iff hst.mem).mpr he), if_pos he]
    exact topChange_differs (computeTop_differs hsorted)
  · rw [if_neg (fun hn => he ((erase_eq_nil_iff hst.mem).mp hn)), if_neg he, eraseOrder, if_pos hst.mem]
    exact topChange_differs (quantity_differs hpos)

theorem best_price_ne (h : Represents b) {best : PriceLevel OrderIterator}
    (hst : Standing b it (best :: pre) level post) : best.price ≠ (get b.slotPool it).price := by
  have hsorted := side_sorted h (get b.slotPool it).side
  rw [hst.split] at hsorted
  rw [← hst.price_eq]
  exact Side.ne_of_ahead _ (ahead_of_mem_front hsorted best List.mem_cons_self)

theorem sideChange_behind (h : Represents b) (hk : b.ordersByKey key = some it) (hit : it ∈ used b)
    {best : PriceLevel OrderIterator} (hst : Standing b it (best :: pre) level post) :
    sideChange key b (get b.slotPool it).side = [] := by
  rw [sideChange, cancelOrder_own h.book.toCoreInvariant hk hit hst, hst.split, without]
  split_ifs
  · exact topChange_same _ _
  · exact topChange_same _ _

theorem processCancel_lines (h : Represents b) (cmd : Command) :
    (processCancel cmd b).2 = .cancelAck cmd.userId cmd.userOrderId ::
      (cancelTop cmd.key b).toList.map topLine := by
  rw [processCancel_sides h]
  congr 1
  cases hk : b.ordersByKey cmd.key with
  | none =>
      have hsame (s : Side) : sideChange cmd.key b s = [] :=
        sideChange_of_levels (by rw [cancelOrder, hk])
      rw [cancelTop, hk, hsame, hsame]
      rfl
  | some it =>
      obtain ⟨hit, pre, level, post, hst⟩ := standing_of_key h.toSlotInvariant h.book.toCoreInvariant hk
      have hopp := sideChange_of_levels (cancelOrder_opposite h.book.toCoreInvariant hk hit hst)
      have hsplit : levels b (orderAt b it).side = pre ++ level :: post := hst.split
      rw [sides_eq hopp]
      simp only [cancelTop, hk, hsplit]
      -- the order stands in the best level, or behind it
      cases pre with
      | nil =>
          have hprice : level.price = (orderAt b it).price := hst.price_eq
          rw [sideChange_best h hk hit hst]
          simp only [List.nil_append, if_pos hprice]
          rfl
      | cons best pre =>
          have hne : best.price ≠ (orderAt b it).price := best_price_ne h hst
          rw [sideChange_behind h hk hit hst]
          simp only [List.cons_append, if_neg hne]
          rfl

end Book

section Texts

variable {b : SymbolOrderbook} {key : OrderKey}

theorem cancelTop_some {s : Side} {t : TopOfBook} (h : cancelTop key b = some (s, t)) :
    t.valid = false → t = {} := by
  intro hv
  rw [cancelTop] at h
  cases hk : b.ordersByKey key with
  | none =>
      rw [hk] at h
      cases h
  | some it =>
      simp only [hk] at h
      cases hl : levels b (orderAt b it).side with
      | nil =>
          rw [hl] at h
          cases h
      | cons best rest =>
          simp only [hl] at h
          split_ifs at h with hp ho
          · have ht : computeTop rest = t := (Prod.mk.inj (Option.some.inj h)).2
            cases rest with
            | nil => exact ht.symm
            | cons next rest =>
                rw [← ht] at hv
                cases hv
          · have ht := (Prod.mk.inj (Option.some.inj h)).2
            rw [← ht] at hv
            cases hv

theorem topEqual_eq {t u : TopOfBook} (h : topEqual t u = true) (ht : t.valid = false → t = {})
    (hu : u.valid = false → u = {}) : t = u := by
  obtain ⟨hv, hp⟩ := (topEqual_iff t u).mp h
  cases hvt : t.valid with
  | false => rw [ht hvt, hu (hv ▸ hvt)]
  | true =>
      obtain ⟨hprice, htotal⟩ := hp hvt
      obtain ⟨valid, price, total⟩ := t
      obtain ⟨valid', price', total'⟩ := u
      simp only at hv hprice htotal
      rw [hv, hprice, htotal]

theorem cancelTop_text {c : SymbolOrderbook}
    (h : ((cancelTop key b).toList.map topLine).map render =
      ((cancelTop key c).toList.map topLine).map render) :
    cancelTop key b = cancelTop key c := by
  cases hb : cancelTop key b with
  | none =>
      cases hc : cancelTop key c with
      | none => rfl
      | some t =>
          rw [hb, hc] at h
          cases h
  | some t =>
      cases hc : cancelTop key c with
      | none =>
          rw [hb, hc] at h
          cases h
      | some u =>
          rw [hb, hc] at h
          obtain ⟨hs, ht⟩ := render_top_injective (List.cons.inj h).1
          obtain ⟨s, t⟩ := t
          obtain ⟨s', u⟩ := u
          have htu := topEqual_eq ht (cancelTop_some hb) (cancelTop_some hc)
          simp only at hs htu
          rw [hs, htu]

end Texts

section Visits

/-- Which order the books are visited in does not matter to the books. -/
theorem processCommand_books (v w : VisitOrder) (cmd : Command) (e : MatchingEngine) :
    (processCommand v cmd e).1 = (processCommand w cmd e).1 := by
  rw [processCommand, processCommand]
  cases cmd.type <;> rfl

theorem engineStep_visit (v w : Nat → VisitOrder) (s : Nat × MatchingEngine) (c : Command) :
    (engineStep v s c).1 = (engineStep w s c).1 :=
  congrArg (Prod.mk _) (processCommand_books _ _ c _)

theorem engineState_visit (v w : Nat → VisitOrder) (cmds : List Command) :
    engineState v cmds = engineState w cmds :=
  final_projects (engineStep w) (engineStep v) id (engineStep_visit v w) cmds engineStart

theorem processCommand_perm (v w : VisitOrder) (cmd : Command) (e : MatchingEngine) :
    (processCommand v cmd e).2.Perm (processCommand w cmd e).2 := by
  rw [processCommand, processCommand]
  cases cmd.type with
  | cancel => exact ((v.perm e.books).trans (w.perm e.books).symm).flatMap_right _
  | newOrder => exact List.Perm.refl _
  | flush => exact List.Perm.refl _
  | invalid => exact List.Perm.refl _

def stepText (v : Nat → VisitOrder) (pre : List Command) (c : Command) : List Text :=
  (engineStep v (engineState v pre) c).2.map render

theorem published_eq_iff (v w : Nat → VisitOrder) (cmds : List Command) :
    published v cmds = published w cmds ↔
      ∀ pre c post, cmds = pre ++ c :: post → stepText v pre c = stepText w pre c := by
  have hsteps := output_eq_iff (m := mapOutput (engineStep v) render) (n := mapOutput (engineStep w) render)
    (engineStep_visit v w)
    (fun s c => ((processCommand_perm (v s.1) (w s.1) c s.2).map render).length_eq) cmds engineStart
  rw [output_mapOutput, output_mapOutput] at hsteps
  simp only [final_mapOutput] at hsteps
  refine hsteps.trans ?_
  simp only [stepText, engineState_visit w v]
  rfl

theorem orderFree_iff_steps (cmds : List Command) :
    OrderFree cmds ↔ ∀ pre c post, cmds = pre ++ c :: post → ∀ v w, stepText v pre c = stepText w pre c :=
  ⟨fun h pre c post hcmds v w => (published_eq_iff v w cmds).mp (h v w) pre c post hcmds,
    fun h v w => (published_eq_iff v w cmds).mpr (fun pre c post hcmds => h pre c post hcmds v w)⟩

end Visits

section Cancels

variable {c : Command} {e : MatchingEngine}

def bookText (c : Command) (entry : Text × SymbolOrderbook) : List Text :=
  (processCancel c entry.2).2.map render

def changeText (key : OrderKey) (entry : Text × SymbolOrderbook) : List Text :=
  ((cancelTop key entry.2).toList.map topLine).map render

theorem cancel_text (v : VisitOrder) (hc : c.type = .cancel) (e : MatchingEngine) :
    (processCommand v c e).2.map render = (v.visit e.books).flatMap (bookText c) := by
  rw [processCommand, hc, List.map_flatMap]
  rfl

theorem bookText_eq (h : EngineInvariant e) (c : Command) {entry : Text × SymbolOrderbook}
    (hm : entry ∈ e.books) :
    bookText c entry = render (.cancelAck c.userId c.userOrderId) :: changeText c.key entry := by
  rw [bookText, processCancel_lines (h entry hm), List.map_cons]
  rfl

theorem changeText_ne (c : Command) (entry : Text × SymbolOrderbook) :
    ∀ t ∈ changeText c.key entry, t ≠ render (.cancelAck c.userId c.userOrderId) := by
  intro t ht
  obtain ⟨line, hl, rfl⟩ := List.mem_map.mp ht
  obtain ⟨top, -, rfl⟩ := List.mem_map.mp hl
  exact render_top_ne_cancelAck _ _ _ _

theorem flatMap_eq_of_perm {α β : Type} {xs ys : List α} {f : α → List β} (hp : xs.Perm ys)
    (h : ∀ x ∈ xs, ∀ y ∈ xs, f x = f y) : xs.flatMap f = ys.flatMap f := by
  cases xs with
  | nil => rw [List.nil_perm.mp hp]
  | cons x xs =>
      have hrep : (x :: xs).map f = List.replicate (x :: xs).length (f x) := by
        rw [List.eq_replicate_iff]
        refine ⟨List.length_map f, ?_⟩
        intro l hl
        obtain ⟨y, hy, rfl⟩ := List.mem_map.mp hl
        exact h y hy x List.mem_cons_self
      have hperm := (hp.map f).symm
      rw [hrep, List.perm_replicate] at hperm
      rw [List.flatMap_def, List.flatMap_def, hrep, hperm]

theorem cancel_text_unanimous (h : EngineInvariant e) (hc : c.type = .cancel) (hu : Unanimous c.key e)
    (v w : VisitOrder) :
    (processCommand v c e).2.map render = (processCommand w c e).2.map render := by
  rw [cancel_text v hc, cancel_text w hc]
  apply flatMap_eq_of_perm ((v.perm e.books).trans (w.perm e.books).symm)
  intro x hx y hy
  have hx' := (v.perm e.books).mem_iff.mp hx
  have hy' := (v.perm e.books).mem_iff.mp hy
  rw [bookText_eq h c hx', bookText_eq h c hy', changeText, changeText, hu x hx' y hy']

def rotated (n : Nat) : VisitOrder := ⟨fun books => books.rotate n, fun books => List.rotate_perm books n⟩

/-- The lines between the first acknowledgement and the next are those of the book visited first. -/
theorem first_change (h : EngineInvariant e) (c : Command) {x : Text × SymbolOrderbook}
    {xs : List (Text × SymbolOrderbook)} (hm : ∀ y ∈ x :: xs, y ∈ e.books) :
    ((x :: xs).flatMap (bookText c)).tail.takeWhile
        (fun t => decide (t ≠ render (.cancelAck c.userId c.userOrderId))) =
      changeText c.key x := by
  rw [List.flatMap_cons, bookText_eq h c (hm x List.mem_cons_self), List.cons_append, List.tail_cons,
    List.takeWhile_append_of_pos (fun t ht => by simpa using changeText_ne c x t ht)]
  cases xs with
  | nil => simp
  | cons y ys =>
      rw [List.flatMap_cons, bookText_eq h c (hm y (by simp)), List.cons_append,
        List.takeWhile_cons_of_neg (by simp), List.append_nil]

theorem rotate_first {α : Type} {xs : List α} {x : α} (hx : x ∈ xs) :
    ∃ n ys, xs.rotate n = x :: ys := by
  obtain ⟨n, hn, rfl⟩ := List.getElem_of_mem hx
  refine ⟨n, xs.drop (n + 1) ++ xs.take n, ?_⟩
  rw [List.rotate_eq_drop_append_take (Nat.le_of_lt hn), List.drop_eq_getElem_cons hn]
  rfl

theorem unanimous_of_text (h : EngineInvariant e) (hc : c.type = .cancel)
    (hfree : ∀ v w : VisitOrder,
      (processCommand v c e).2.map render = (processCommand w c e).2.map render) :
    Unanimous c.key e := by
  intro x hx y hy
  -- one order visits the book of `x` first, another that of `y`
  obtain ⟨n, xs, hxs⟩ := rotate_first hx
  obtain ⟨m, ys, hys⟩ := rotate_first hy
  have hmem (k : Nat) : ∀ z ∈ e.books.rotate k, z ∈ e.books :=
    fun z hz => (List.rotate_perm e.books k).mem_iff.mp hz
  have hfirst := hfree (rotated n) (rotated m)
  rw [cancel_text _ hc, cancel_text _ hc] at hfirst
  change (e.books.rotate n).flatMap (bookText c) = (e.books.rotate m).flatMap (bookText c) at hfirst
  have hx' := first_change h c (hxs ▸ hmem n)
  have hy' := first_change h c (hys ▸ hmem m)
  rw [← hxs, hfirst, hys, hy'] at hx'
  exact cancelTop_text hx'.symm

end Cancels

/-- The output of a run does not depend on hash order exactly when at each of its cancels
all books agree on what it does to their best levels. -/
theorem order_free_iff (cmds : List Command) :
    OrderFree cmds ↔ ∀ pre c post, cmds = pre ++ c :: post → c.type = .cancel →
      Unanimous c.key (engineAfter (fun _ => default) pre) := by
  rw [orderFree_iff_steps]
  constructor
  · intro h pre c post hcmds hc
    apply unanimous_of_text (engine_invariant _ pre) hc
    intro v w
    have hstep := h pre c post hcmds (fun _ => v) (fun _ => w)
    rw [stepText, stepText, engineState_visit (fun _ => v) (fun _ => default),
      engineState_visit (fun _ => w) (fun _ => default)] at hstep
    exact hstep
  · intro h pre c post hcmds v w
    rw [stepText, stepText, engineState_visit v (fun _ => default),
      engineState_visit w (fun _ => default)]
    by_cases hc : c.type = .cancel
    · exact cancel_text_unanimous (engine_invariant _ pre) hc (h pre c post hcmds hc) _ _
    · apply congrArg (List.map render)
      change (processCommand _ c _).2 = (processCommand _ c _).2
      rw [processCommand, processCommand]
      cases ht : c.type with
      | cancel => exact absurd ht hc
      | newOrder => rfl
      | flush => rfl
      | invalid => rfl

def cancelInFirstBook : List Command :=
  [newOrderCommand ['I', 'B', 'M'] .buy 1 1 10 100, newOrderCommand ['A', 'P'] .buy 2 2 10 100,
    cancelCommand 1 1]

theorem visit_order_shows : ¬ ∀ cmds, OrderFree cmds := by
  intro h
  have hvw := h cancelInFirstBook (fun _ => rotated 0) (fun _ => rotated 1)
  revert hvw
  decide +kernel

end Orderbook.HashOrder

import Orderbook.ReferenceInvariant

namespace Orderbook.Feed

open Domain Ladder Book Reference ReferenceInvariant Library.QueueFill

/-- What a reader of the feed holds: for each side a price and a total, or nothing. -/
abbrev View := Side → Option (Int × Int)

def emptyView : View := fun _ => none

def quote (tob : TopOfBook) : Option (Int × Int) :=
  if tob.valid then some (tob.price, tob.totalQuantity) else none

def readLine (v : View) : OutputLine → View
  | .top side tob => Function.update v side (quote tob)
  | _ => v

def readLines (v : View) (lines : List OutputLine) : View := lines.foldl readLine v

/-- `q` is the best price among `orders` with the sum of all quantities at it. -/
def IsBest (s : Side) (orders : List Order) : Option (Int × Int) → Prop
  | none => orders = []
  | some (price, total) =>
      (∃ o ∈ orders, o.price = price) ∧ (∀ o ∈ orders, ¬ s.ahead o.price price) ∧
        total = ((orders.filter (fun o => o.price = price)).map Order.quantity).sum

def Changing : View → List OutputLine → Prop
  | _, [] => True
  | v, line :: lines =>
      (∀ side tob, line = .top side tob → readLine v line side ≠ v side) ∧
        Changing (readLine v line) lines

def isTop : OutputLine → Bool
  | .top _ _ => true
  | _ => false

section Reader

theorem readLines_append (v : View) (xs ys : List OutputLine) :
    readLines v (xs ++ ys) = readLines (readLines v xs) ys := List.foldl_append

theorem changing_append (v : View) (xs ys : List OutputLine) :
    Changing v (xs ++ ys) ↔ Changing v xs ∧ Changing (readLines v xs) ys := by
  induction xs generalizing v with
  | nil => simp [Changing, readLines]
  | cons x xs ih =>
      rw [List.cons_append, Changing, Changing, ih, and_assoc]
      rfl

theorem readLine_other (v : View) {line : OutputLine} (h : isTop line = false) : readLine v line = v := by
  cases line with
  | top side tob => cases h
  | ack _ _ => rfl
  | cancelAck _ _ => rfl
  | trade _ _ _ _ => rfl

theorem isTop_front (cmd : Command) (fs : List (Fill Order)) :
    ∀ line ∈ OutputLine.ack cmd.userId cmd.userOrderId :: fs.map (fillLine cmd), isTop line = false := by
  rw [List.forall_mem_cons, List.forall_mem_map]
  refine ⟨rfl, ?_⟩
  intro f _
  rw [fillLine]
  cases cmd.side <;> rfl

theorem readLines_other (v : View) {lines : List OutputLine} (h : ∀ l ∈ lines, isTop l = false) :
    readLines v lines = v ∧ Changing v lines := by
  induction lines with
  | nil => exact ⟨rfl, trivial⟩
  | cons line lines ih =>
      have hl := h line List.mem_cons_self
      have hi := ih (fun l hl => h l (List.mem_cons_of_mem line hl))
      have hv := readLine_other v hl
      rw [readLines, List.foldl_cons, Changing, hv]
      refine ⟨hi.1, ?_, hi.2⟩
      rintro side tob rfl
      cases hl

theorem topEqual_iff_quote (a b : TopOfBook) : topEqual a b = true ↔ quote a = quote b := by
  rw [topEqual_iff]
  cases ha : a.valid <;> cases hb : b.valid <;> simp [quote, ha, hb]

/-- `topChange` brings a reader from the old top to the new one, and emits nothing else. -/
theorem read_topChange {v : View} {s : Side} {old : TopOfBook} (hv : v s = quote old) (new : TopOfBook) :
    readLines v (topChange s old new) = Function.update v s (quote new) ∧
      Changing v (topChange s old new) := by
  rw [topChange]
  split_ifs with he
  · have hq := (topEqual_iff_quote old new).mp he
    refine ⟨?_, trivial⟩
    rw [← hq, ← hv, Function.update_eq_self]
    rfl
  · have hq := fun h => he ((topEqual_iff_quote old new).mpr h)
    refine ⟨rfl, ?_, trivial⟩
    rintro side tob ⟨rfl, rfl⟩
    rw [readLine, Function.update_self, hv]
    exact fun h => hq h.symm

end Reader

section Best

variable {s : Side} {next : Nat} {levels : List (PriceLevel Order)}

theorem front_orders {level : PriceLevel Order} (h : SideInvariant s next (level :: levels)) :
    (resting (level :: levels)).filter (fun o => o.price = level.price) = level.orders := by
  have hl := h.level level List.mem_cons_self
  rw [resting_cons, List.filter_append, List.filter_eq_self.mpr, List.filter_eq_nil_iff.mpr,
    List.append_nil]
  · intro o ho
    have hne : o.price ≠ level.price := (s.ne_of_ahead (h.front_ahead o ho)).symm
    simpa using hne
  · intro o ho
    simpa using hl.price_eq o ho

theorem not_ahead_front {level : PriceLevel Order} (h : SideInvariant s next (level :: levels)) :
    ∀ p ∈ resting (level :: levels), ¬ s.ahead p.price level.price := by
  intro p hp
  rw [resting_cons, List.mem_append] at hp
  rcases hp with hp | hp
  · rw [(h.level level List.mem_cons_self).price_eq p hp]
    exact s.ahead_irrefl _
  · exact s.ahead_asymm (h.front_ahead p hp)

end Best

section Changes

def quotes (bid ask : TopOfBook) : View
  | .buy => quote bid
  | .sell => quote ask

theorem read_changes {front : List OutputLine} (hf : ∀ line ∈ front, isTop line = false)
    (oldBid oldAsk newBid newAsk : TopOfBook) :
    readLines (quotes oldBid oldAsk) (front ++ (topChange .buy oldBid newBid ++ topChange .sell oldAsk newAsk)) =
        quotes newBid newAsk ∧
      Changing (quotes oldBid oldAsk)
        (front ++ (topChange .buy oldBid newBid ++ topChange .sell oldAsk newAsk)) := by
  obtain ⟨hr, hc⟩ := readLines_other (quotes oldBid oldAsk) hf
  obtain ⟨hb, hcb⟩ := read_topChange (v := quotes oldBid oldAsk) (s := .buy) rfl newBid
  have hask : Function.update (quotes oldBid oldAsk) .buy (quote newBid) .sell = quote oldAsk :=
    Function.update_of_ne (by decide) _ _
  obtain ⟨ha, hca⟩ := read_topChange hask newAsk
  rw [readLines_append, readLines_append, changing_append, changing_append, hr, hb, ha]
  refine ⟨?_, hc, hcb, hca⟩
  funext side
  cases side <;> rfl

end Changes

theorem changing_split {v : View} {lines pre post : List OutputLine} {s : Side} {tob : TopOfBook}
    (h : Changing v lines) (hs : lines = pre ++ .top s tob :: post) :
    readLine (readLines v pre) (.top s tob) s ≠ readLines v pre s := by
  rw [hs, changing_append] at h
  exact h.2.1 s tob rfl

end Orderbook.Feed

import Orderbook.Observations

namespace Orderbook.SelfBlocking

open Domain Ladder Reference ReferenceWalk Library.QueueFill

def foreignQuantity (user : Int) (orders : List Order) : Int :=
  ((orders.filter (fun o => o.userId ≠ user)).map Order.quantity).sum

section Quantities

variable (user : Int)

theorem foreignQuantity_eq (orders : List Order) :
    foreignQuantity user orders = amountSum (orderRule user) (offered (orderRule user) orders) := by
  simp [foreignQuantity, amountSum, offered, orderRule]

@[simp] theorem foreignQuantity_append (xs ys : List Order) :
    foreignQuantity user (xs ++ ys) = foreignQuantity user xs + foreignQuantity user ys := by
  simp [foreignQuantity_eq]

theorem foreignQuantity_nonneg {orders : List Order} (h : ∀ o ∈ orders, 0 < o.quantity) :
    0 ≤ foreignQuantity user orders := by
  rw [foreignQuantity_eq]
  apply amountSum_nonneg
  intro o ho
  exact Int.le_of_lt (h o (List.mem_of_mem_filter ho))

theorem foreignQuantity_eq_zero {orders : List Order} (h : ∀ o ∈ orders, 0 < o.quantity) :
    foreignQuantity user orders = 0 ↔ ∀ o ∈ orders, o.userId = user := by
  induction orders with
  | nil => simp [foreignQuantity]
  | cons o orders ih =>
      have hi := ih (fun p hp => h p (List.mem_cons_of_mem o hp))
      have hpos := h o List.mem_cons_self
      have hsum := foreignQuantity_nonneg user (fun p hp => h p (List.mem_cons_of_mem o hp))
      by_cases hu : o.userId = user
      · have hf : foreignQuantity user (o :: orders) = foreignQuantity user orders := by
          simp [foreignQuantity, hu]
        rw [hf, hi, List.forall_mem_cons, and_iff_right hu]
      · have hf : foreignQuantity user (o :: orders) = o.quantity + foreignQuantity user orders := by
          simp [foreignQuantity, hu]
        rw [hf, List.forall_mem_cons]
        constructor
        · intro hz
          omega
        · intro hz
          exact absurd hz.1 hu

end Quantities

section Walks

variable (within : Int → Bool) (user : Int) {levels : List (PriceLevel Order)}

theorem foreignQuantity_split (levels : List (PriceLevel Order)) :
    foreignQuantity user (resting levels) =
      foreignQuantity user (resting (reach within user levels)) +
        foreignQuantity user (resting (beyond within user levels)) := by
  rw [← foreignQuantity_append, ← resting_reach_beyond]

theorem walk_takes {q : Int} (hq : 0 ≤ q) (hpos : ∀ o ∈ resting levels, 0 < o.quantity) :
    takenSum (walkLevels within user q levels).fills =
      min q (foreignQuantity user (resting (reach within user levels))) := by
  rw [(walkLevels_flattens within user q levels).fills, foreignQuantity_eq]
  apply takenSum_eq_min (orderRule user) hq
  intro o ho
  exact Int.le_of_lt (hpos o (mem_reach_resting within user ho))

theorem walk_left_pos (q : Int) (hpos : ∀ o ∈ resting levels, 0 < o.quantity) :
    0 < (walkLevels within user q levels).left ↔
      foreignQuantity user (resting (reach within user levels)) < q := by
  have hr := foreignQuantity_nonneg user (fun o ho => hpos o (mem_reach_resting within user ho))
  by_cases hq : 0 < q
  · have ht := walk_takes within user (Int.le_of_lt hq) hpos
    rw [walkLevels_takenSum] at ht
    omega
  · rw [walkLevels_done within user (by omega)]
    simp only
    omega

/-- What is left after a walk that did not fill the order: own orders, and the levels
behind the first own order. -/
theorem walk_rest (q : Int) (hl : 0 < (walkLevels within user q levels).left) {p : Order} :
    p ∈ resting (walkLevels within user q levels).levels ∧ p.userId ≠ user ↔
      p ∈ resting (beyond within user levels) ∧ p.userId ≠ user := by
  have hf := walkLevels_flattens within user q levels
  have hk := (kept_of_left_pos (orderRule user) (hf.left ▸ hl)).1
  rw [hf.kept, List.mem_append, hk]
  constructor
  · rintro ⟨hp | hp, hu⟩
    · exact absurd (by simpa using List.of_mem_filter hp) hu
    · exact ⟨hp, hu⟩
  · rintro ⟨hp, hu⟩
    exact ⟨Or.inr hp, hu⟩

end Walks

end Orderbook.SelfBlocking

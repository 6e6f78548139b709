import Orderbook.Reference

namespace Orderbook.ReferenceWalk

open Domain Ladder Reference Library.QueueFill

def ownsOrder (user : Int) (level : PriceLevel Order) : Bool :=
  level.orders.any (fun o => o.userId = user)

/-- The levels a walk can come to: those admitted by `within`, up to the first that holds
an order of the incoming user. -/
def reach (within : Int → Bool) (user : Int) : List (PriceLevel Order) → List (PriceLevel Order)
  | [] => []
  | level :: rest =>
      if within level.price then
        if ownsOrder user level then [level] else level :: reach within user rest
      else []

def beyond (within : Int → Bool) (user : Int) : List (PriceLevel Order) → List (PriceLevel Order)
  | [] => []
  | level :: rest =>
      if within level.price then
        if ownsOrder user level then rest else beyond within user rest
      else level :: rest

variable (within : Int → Bool) (user : Int)

theorem reach_append_beyond (levels : List (PriceLevel Order)) :
    reach within user levels ++ beyond within user levels = levels := by
  induction levels with
  | nil => rfl
  | cons level rest ih =>
      by_cases hp : within level.price = true
      · by_cases ho : ownsOrder user level = true
        · simp [reach, beyond, hp, ho]
        · simp [reach, beyond, hp, ho, ih]
      · simp [reach, beyond, hp]

theorem resting_reach_beyond (levels : List (PriceLevel Order)) :
    resting levels = resting (reach within user levels) ++ resting (beyond within user levels) := by
  rw [← resting_append, reach_append_beyond]

theorem ownsOrder_iff (level : PriceLevel Order) :
    ownsOrder user level = true ↔ ∃ o ∈ level.orders, o.userId = user := by
  simp [ownsOrder]

theorem walkLevels_done {q : Int} (hq : q ≤ 0) (levels : List (PriceLevel Order)) :
    walkLevels within user q levels = ⟨levels, q, []⟩ := by
  cases levels with
  | nil => rfl
  | cons level rest => rw [walkLevels, if_neg (by omega)]

/-- The walk seen as the service of one queue: the orders of the levels it can come to,
in priority order. What lies beyond is not touched. -/
structure Flattens (q : Int) (levels : List (PriceLevel Order)) (walked : Walked) : Prop where
  fills : walked.fills = (fill (orderRule user) q (resting (reach within user levels))).fills
  left : walked.left = (fill (orderRule user) q (resting (reach within user levels))).left
  kept : resting walked.levels =
    (fill (orderRule user) q (resting (reach within user levels))).kept ++
      resting (beyond within user levels)

section Level

variable {level : PriceLevel Order}

theorem reach_beyond_owned (hp : within level.price = true) (ho : ownsOrder user level = true)
    (rest : List (PriceLevel Order)) :
    reach within user (level :: rest) = [level] ∧ beyond within user (level :: rest) = rest := by
  simp [reach, beyond, hp, ho]

theorem reach_beyond_foreign (hp : within level.price = true) (ho : ¬ ownsOrder user level = true)
    (rest : List (PriceLevel Order)) :
    reach within user (level :: rest) = level :: reach within user rest ∧
      beyond within user (level :: rest) = beyond within user rest := by
  simp [reach, beyond, hp, ho]

theorem reach_beyond_closed (hp : ¬ within level.price = true) (rest : List (PriceLevel Order)) :
    reach within user (level :: rest) = [] ∧ beyond within user (level :: rest) = level :: rest := by
  simp [reach, beyond, hp]

theorem owned_level_stays (ho : ownsOrder user level = true) (q : Int) :
    ¬ (fill (orderRule user) q level.orders).kept.isEmpty = true := by
  obtain ⟨o, hom, hou⟩ := (ownsOrder_iff user level).mp ho
  have hm := skip_mem_kept (orderRule user) (q := q) hom (by simpa using hou)
  simpa using List.ne_nil_of_mem hm

theorem foreign_level_serves (ho : ¬ ownsOrder user level = true) {q : Int}
    (hk : ¬ (fill (orderRule user) q level.orders).kept.isEmpty = true) :
    (fill (orderRule user) q level.orders).left ≤ 0 := by
  by_contra hl
  have hown := (kept_of_left_pos (orderRule user) (Int.not_le.mp hl)).1
  apply hk
  rw [hown, List.isEmpty_iff, List.filter_eq_nil_iff]
  intro o hom hou
  exact ho ((ownsOrder_iff user level).mpr ⟨o, hom, by simpa using hou⟩)

end Level

theorem walkLevels_flattens (q : Int) (levels : List (PriceLevel Order)) :
    Flattens within user q levels (walkLevels within user q levels) := by
  induction levels generalizing q with
  | nil => exact ⟨rfl, rfl, rfl⟩
  | cons level rest ih =>
      by_cases hq : 0 < q
      · by_cases hp : within level.price = true
        · rw [walkLevels, if_pos ⟨hq, hp⟩]
          by_cases ho : ownsOrder user level = true
          · obtain ⟨hr, hb⟩ := reach_beyond_owned within user hp ho rest
            rw [if_neg (owned_level_stays user ho q)]
            constructor <;> simp [hr, hb]
          · obtain ⟨hr, hb⟩ := reach_beyond_foreign within user hp ho rest
            have hf := fill_append (orderRule user) q level.orders (resting (reach within user rest))
            by_cases hk : (fill (orderRule user) q level.orders).kept.isEmpty = true
            · have hi := ih (fill (orderRule user) q level.orders).left
              rw [if_pos hk]
              constructor
              · rw [hr, resting_cons, hf, ← hi.fills]
              · rw [hr, resting_cons, hf, ← hi.left]
              · rw [hr, hb, resting_cons, hf, hi.kept, List.isEmpty_iff.mp hk]
                rfl
            · rw [fill_done _ (foreign_level_serves user ho hk)] at hf
              rw [if_neg hk]
              constructor
              · rw [hr, resting_cons, hf, List.append_nil]
              · rw [hr, resting_cons, hf]
              · rw [hr, hb, resting_cons, resting_cons, hf, List.append_assoc, ← resting_reach_beyond]
        · obtain ⟨hr, hb⟩ := reach_beyond_closed within user hp rest
          rw [walkLevels, if_neg (fun h => hp h.2)]
          constructor <;> simp [hr, hb]
      · rw [walkLevels_done within user (by omega)]
        constructor
        · rw [fill_done _ (by omega)]
        · rw [fill_done _ (by omega)]
        · rw [fill_done _ (by omega), ← resting_reach_beyond]

theorem mem_reach_resting {levels : List (PriceLevel Order)} {o : Order}
    (h : o ∈ resting (reach within user levels)) : o ∈ resting levels := by
  rw [resting_reach_beyond within user levels]
  exact List.mem_append_left _ h

theorem reach_within {levels : List (PriceLevel Order)} {o : Order}
    (h : o ∈ resting (reach within user levels)) :
    ∃ level ∈ levels, within level.price = true ∧ o ∈ level.orders := by
  induction levels with
  | nil => cases h
  | cons level rest ih =>
      rw [reach] at h
      split_ifs at h with hp ho
      · rw [resting_cons, resting_nil, List.append_nil] at h
        exact ⟨level, List.mem_cons_self, hp, h⟩
      · rw [resting_cons, List.mem_append] at h
        rcases h with h | h
        · exact ⟨level, List.mem_cons_self, hp, h⟩
        · obtain ⟨other, hl, hw⟩ := ih h
          exact ⟨other, List.mem_cons_of_mem level hl, hw⟩
      · cases h

theorem mem_beyond_resting {levels : List (PriceLevel Order)} {o : Order}
    (h : o ∈ resting (beyond within user levels)) : o ∈ resting levels := by
  rw [resting_reach_beyond within user levels]
  exact List.mem_append_right _ h

theorem walkLevels_takenSum (q : Int) (levels : List (PriceLevel Order)) :
    takenSum (walkLevels within user q levels).fills = q - (walkLevels within user q levels).left := by
  have h := walkLevels_flattens within user q levels
  rw [h.fills, h.left]
  exact takenSum_fill _ _ _

theorem walkLevels_left_nonneg {q : Int} (hq : 0 ≤ q) (levels : List (PriceLevel Order)) :
    0 ≤ (walkLevels within user q levels).left := by
  rw [(walkLevels_flattens within user q levels).left]
  exact left_nonneg (orderRule user) hq _

theorem walkLevels_labels {κ : Type} (label : Order → κ)
    (hl : ∀ (o : Order) q, label { o with quantity := q } = label o) (q : Int)
    (levels : List (PriceLevel Order)) :
    ((resting (walkLevels within user q levels).levels).map label).Sublist
      ((resting levels).map label) := by
  rw [(walkLevels_flattens within user q levels).kept, List.map_append]
  rw [resting_reach_beyond within user levels, List.map_append]
  exact (kept_labels (orderRule user) label (fun o t => hl o _) q _).append (List.Sublist.refl _)

theorem walkLevels_fate (q : Int) (levels : List (PriceLevel Order)) (o : Order)
    (ho : o ∈ resting levels) :
    (∃ f ∈ (walkLevels within user q levels).fills, f.item = { o with quantity := 0 }) ∨
      ∃ n, { o with quantity := n } ∈ resting (walkLevels within user q levels).levels := by
  have h := walkLevels_flattens within user q levels
  rw [h.fills, h.kept]
  rw [resting_reach_beyond within user levels, List.mem_append] at ho
  rcases ho with ho | ho
  · rcases fill_fate (orderRule user) q _ o ho with hf | hk | ⟨t, hk⟩
    · exact Or.inl ⟨_, hf, by simp [whole]⟩
    · exact Or.inr ⟨o.quantity, List.mem_append_left _ hk⟩
    · exact Or.inr ⟨o.quantity - t, List.mem_append_left _ hk⟩
  · exact Or.inr ⟨o.quantity, List.mem_append_right _ ho⟩

theorem mem_walkLevels {q : Int} {levels : List (PriceLevel Order)}
    (hpos : ∀ o ∈ resting levels, 0 < o.quantity) {p : Order}
    (hp : p ∈ resting (walkLevels within user q levels).levels) :
    0 < p.quantity ∧ ∃ o ∈ resting levels, p = { o with quantity := p.quantity } := by
  rw [(walkLevels_flattens within user q levels).kept, List.mem_append] at hp
  rcases hp with hp | hp
  · rcases mem_kept (orderRule user) (fun o ho => hpos o (mem_reach_resting within user ho)) p hp with
      hp | ⟨o, ho, t, rfl, hq⟩
    · have hm := mem_reach_resting within user hp
      exact ⟨hpos p hm, p, hm, rfl⟩
    · exact ⟨hq, o, mem_reach_resting within user ho, rfl⟩
  · have hm := mem_beyond_resting within user hp
    exact ⟨hpos p hm, p, hm, rfl⟩

end Orderbook.ReferenceWalk

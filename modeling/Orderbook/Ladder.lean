import Orderbook.Domain
import Orderbook.Library.SortedSearch
import Mathlib.Data.List.Perm.Basic

namespace Orderbook.Ladder

open Domain Library.SortedSearch

/-- A price level. `ι` is what its queue holds: iterators in the book, the orders
themselves once the iterators are read. The total is an exact integer here; `Overflow` has it as an
`int64_t`. -/
structure PriceLevel (ι : Type) where
  price : Int := 0
  totalQuantity : Int := 0
  orders : List ι := []

variable {ι κ : Type}

def findLevelIndex (s : Side) (levels : List (PriceLevel ι)) (incomingPrice : Int) : Nat × Bool :=
  search s.ahead PriceLevel.price levels incomingPrice 0 levels.length (Nat.le_refl _)

def findBidLevelIndex : List (PriceLevel ι) → Int → Nat × Bool := findLevelIndex .buy

def findAskLevelIndex : List (PriceLevel ι) → Int → Nat × Bool := findLevelIndex .sell

def getOrCreateLevel (s : Side) (levels : List (PriceLevel ι)) (price : Int) :
    List (PriceLevel ι) × Nat :=
  match findLevelIndex s levels price with
  | (idx, true) => (levels, idx)
  | (idx, false) => (levels.insertIdx idx { price := price }, idx)

def getOrCreateBidLevel : List (PriceLevel ι) → Int → List (PriceLevel ι) × Nat :=
  getOrCreateLevel .buy

def getOrCreateAskLevel : List (PriceLevel ι) → Int → List (PriceLevel ι) × Nat :=
  getOrCreateLevel .sell

def removeEmptyLevel (levels : List (PriceLevel ι)) (index : Nat) : List (PriceLevel ι) :=
  match levels[index]? with
  | some level => if level.orders.isEmpty then levels.eraseIdx index else levels
  | none => levels

def removeEmptyBidLevel : List (PriceLevel ι) → Nat → List (PriceLevel ι) := removeEmptyLevel

def removeEmptyAskLevel : List (PriceLevel ι) → Nat → List (PriceLevel ι) := removeEmptyLevel

def pushOrder (it : ι) (quantity : Int) (level : PriceLevel ι) : PriceLevel ι :=
  { level with
    orders := level.orders ++ [it]
    totalQuantity := level.totalQuantity + quantity }

/-- The scan of `processCancel` through one queue. -/
def eraseOrder [DecidableEq ι] (it : ι) (quantity : Int) (level : PriceLevel ι) : PriceLevel ι :=
  if it ∈ level.orders then
    { level with
      totalQuantity := level.totalQuantity - quantity
      orders := level.orders.erase it }
  else level

def computeTop : List (PriceLevel ι) → TopOfBook
  | [] => {}
  | level :: _ => ⟨true, level.price, level.totalQuantity⟩

def topEqual (a b : TopOfBook) : Bool :=
  if a.valid ≠ b.valid then false
  else if !a.valid then true
  else a.price = b.price ∧ a.totalQuantity = b.totalQuantity

def resting (levels : List (PriceLevel ι)) : List ι := levels.flatMap PriceLevel.orders

def mapLevel (f : ι → κ) (level : PriceLevel ι) : PriceLevel κ :=
  ⟨level.price, level.totalQuantity, level.orders.map f⟩

@[simp] theorem resting_nil : resting ([] : List (PriceLevel ι)) = [] := rfl

@[simp] theorem resting_cons (level : PriceLevel ι) (levels : List (PriceLevel ι)) :
    resting (level :: levels) = level.orders ++ resting levels := rfl

theorem forall_resting_cons {P : ι → Prop} {level : PriceLevel ι} {levels : List (PriceLevel ι)} :
    (∀ it ∈ resting (level :: levels), P it) ↔ (∀ it ∈ level.orders, P it) ∧ ∀ it ∈ resting levels, P it := by
  rw [resting_cons, List.forall_mem_append]

@[simp] theorem resting_append (xs ys : List (PriceLevel ι)) :
    resting (xs ++ ys) = resting xs ++ resting ys := List.flatMap_append

theorem mem_resting {levels : List (PriceLevel ι)} {it : ι} :
    it ∈ resting levels ↔ ∃ level ∈ levels, it ∈ level.orders := List.mem_flatMap

@[simp] theorem mapLevel_price (f : ι → κ) (level : PriceLevel ι) :
    (mapLevel f level).price = level.price := rfl

@[simp] theorem mapLevel_orders (f : ι → κ) (level : PriceLevel ι) :
    (mapLevel f level).orders = level.orders.map f := rfl

@[simp] theorem resting_map (f : ι → κ) (levels : List (PriceLevel ι)) :
    resting (levels.map (mapLevel f)) = (resting levels).map f := by
  simp [resting, List.flatMap_map, List.map_flatMap]

@[simp] theorem map_price_map (f : ι → κ) (levels : List (PriceLevel ι)) :
    (levels.map (mapLevel f)).map PriceLevel.price = levels.map PriceLevel.price := by
  simp [Function.comp_def]

theorem mapLevel_congr {f g : ι → κ} {levels : List (PriceLevel ι)}
    (h : ∀ it ∈ resting levels, f it = g it) :
    levels.map (mapLevel f) = levels.map (mapLevel g) := by
  apply List.map_congr_left
  intro level hl
  have ho : level.orders.map f = level.orders.map g :=
    List.map_congr_left (fun it hit => h it (mem_resting.mpr ⟨level, hl, hit⟩))
  simp only [mapLevel, ho]

@[simp] theorem computeTop_map (f : ι → κ) (levels : List (PriceLevel ι)) :
    computeTop (levels.map (mapLevel f)) = computeTop levels := by
  cases levels <;> rfl

theorem topEqual_iff (a b : TopOfBook) :
    topEqual a b = true ↔
      a.valid = b.valid ∧ (a.valid = true → a.price = b.price ∧ a.totalQuantity = b.totalQuantity) := by
  cases ha : a.valid <;> cases hb : b.valid <;> simp [topEqual, ha, hb]

theorem getElem?_split (xs : List κ) (x : κ) (ys : List κ) : (xs ++ x :: ys)[xs.length]? = some x := by
  rw [List.getElem?_append_right (Nat.le_refl _), Nat.sub_self, List.getElem?_cons_zero]

theorem eraseIdx_split (xs : List κ) (x : κ) (ys : List κ) :
    (xs ++ x :: ys).eraseIdx xs.length = xs ++ ys := by
  rw [List.eraseIdx_append_of_length_le (Nat.le_refl _), Nat.sub_self]
  rfl

section Sorted

variable {s : Side} {levels pre post : List (PriceLevel ι)} {level : PriceLevel ι} {price : Int}

theorem findLevelIndex_spec (hs : (levels.map PriceLevel.price).Pairwise s.ahead) (price : Int) :
    Located s.ahead PriceLevel.price levels price (findLevelIndex s levels price) :=
  search_spec s.ahead PriceLevel.price levels price hs

theorem ahead_of_mem_front (hs : ((pre ++ level :: post).map PriceLevel.price).Pairwise s.ahead) :
    ∀ m ∈ pre, s.ahead m.price level.price := by
  intro m hm
  rw [List.map_append, List.pairwise_append] at hs
  exact hs.2.2 _ (List.mem_map_of_mem hm) _ List.mem_cons_self

theorem ahead_of_mem_back (hs : ((pre ++ level :: post).map PriceLevel.price).Pairwise s.ahead) :
    ∀ m ∈ post, s.ahead level.price m.price := by
  intro m hm
  rw [List.map_append, List.pairwise_append, List.map_cons, List.pairwise_cons] at hs
  exact hs.2.1.1 _ (List.mem_map_of_mem hm)

theorem findLevelIndex_eq (hs : ((pre ++ level :: post).map PriceLevel.price).Pairwise s.ahead) :
    findLevelIndex s (pre ++ level :: post) level.price = (pre.length, true) := by
  have hloc := findLevelIndex_spec hs level.price
  have hpre := ahead_of_mem_front hs
  have hpost := ahead_of_mem_back hs
  rcases hr : findLevelIndex s (pre ++ level :: post) level.price with ⟨i, _ | _⟩
  · rw [hr] at hloc
    obtain ⟨_, hlow, hhigh⟩ := hloc
    exfalso
    have hlt : pre.length < (pre ++ level :: post).length := by simp
    rcases Nat.lt_or_ge pre.length i with hi | hi
    · exact s.ahead_irrefl level.price (by simpa using hlow pre.length hlt hi)
    · exact s.ahead_irrefl level.price (by simpa using hhigh pre.length hlt hi)
  · rw [hr] at hloc
    obtain ⟨hi, hk⟩ := hloc
    rcases Nat.lt_trichotomy i pre.length with h | rfl | h
    · rw [List.getElem_append_left h] at hk
      exact absurd (hk ▸ hpre _ (List.getElem_mem h)) (s.ahead_irrefl level.price)
    · rfl
    · obtain ⟨j, rfl⟩ : ∃ j, i = pre.length + (j + 1) := ⟨i - pre.length - 1, by omega⟩
      have hj : j < post.length := by
        simp only [List.length_append, List.length_cons] at hi
        omega
      have hg : (pre ++ level :: post)[pre.length + (j + 1)] = post[j] := by
        simp [List.getElem_append_right]
      rw [hg] at hk
      exact absurd (hk ▸ hpost _ (List.getElem_mem hj)) (s.ahead_irrefl level.price)

theorem modify_split (f : PriceLevel ι → PriceLevel ι) :
    (pre ++ level :: post).modify pre.length f = pre ++ f level :: post := by
  induction pre with
  | nil => rfl
  | cons m pre ih => simpa using ih

theorem removeEmptyLevel_split :
    removeEmptyLevel (pre ++ level :: post) pre.length =
      if level.orders.isEmpty then pre ++ post else pre ++ level :: post := by
  simp only [removeEmptyLevel, getElem?_split, eraseIdx_split]

/-- Resting an order at the level that `getOrCreateLevel` returns, as one walk down the ladder. -/
def restAt (s : Side) (it : ι) (quantity price : Int) (levels : List (PriceLevel ι)) :
    List (PriceLevel ι) :=
  upsert s.ahead PriceLevel.price (pushOrder it quantity) (pushOrder it quantity { price := price })
    price levels

theorem getOrCreateLevel_push (hs : (levels.map PriceLevel.price).Pairwise s.ahead) (it : ι)
    (quantity : Int) :
    (getOrCreateLevel s levels price).1.modify (getOrCreateLevel s levels price).2
      (pushOrder it quantity) = restAt s it quantity price levels := by
  have hloc := findLevelIndex_spec hs price
  rcases hr : findLevelIndex s levels price with ⟨i, _ | _⟩
  · rw [hr] at hloc
    obtain ⟨pre, post, rfl, rfl, hpre, hpost⟩ := hloc.absent_split
    simp only [getOrCreateLevel, hr, insertIdx_split, modify_split]
    exact (upsert_absent hpre hpost).symm
  · rw [hr] at hloc
    obtain ⟨pre, m, post, rfl, rfl, rfl⟩ := hloc.found_split
    simp only [getOrCreateLevel, hr, modify_split]
    exact (upsert_found (ahead_of_mem_front hs) rfl).symm

end Sorted

theorem resting_restAt (s : Side) (it : ι) (quantity price : Int) (levels : List (PriceLevel ι)) :
    (resting (restAt s it quantity price levels)).Perm (it :: resting levels) := by
  induction levels with
  | nil => exact List.Perm.refl _
  | cons level levels ih =>
      rw [restAt, upsert]
      split_ifs with hp hb
      · simp only [resting_cons, pushOrder, List.append_assoc, List.singleton_append]
        exact List.perm_middle
      · rw [resting_cons, resting_cons]
        exact (ih.append_left _).trans List.perm_middle
      · exact List.Perm.refl _

theorem restAt_map (f : ι → κ) (s : Side) (it : ι) (quantity price : Int)
    (levels : List (PriceLevel ι)) :
    (restAt s it quantity price levels).map (mapLevel f) =
      restAt s (f it) quantity price (levels.map (mapLevel f)) := by
  induction levels with
  | nil => rfl
  | cons level levels ih =>
      simp only [restAt] at ih
      by_cases hp : level.price = price
      · simp [restAt, upsert, hp, mapLevel, pushOrder]
      · by_cases hb : s.ahead level.price price
        · simp [restAt, upsert, hp, hb, ih]
        · simp [restAt, upsert, hp, hb, mapLevel, pushOrder]

end Orderbook.Ladder

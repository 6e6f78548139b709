import Orderbook.Ladder

namespace Orderbook.LadderSearch

open Domain Ladder StateTransition Library.SortedSearch Library.Runs

structure SortedLadder (s : Side) (ι : Type) where
  levels : List (PriceLevel ι)
  sorted : (levels.map PriceLevel.price).Pairwise s.ahead

variable {ι : Type}

/-- One round of the `while` loop in `findBidLevelIndex` and `findAskLevelIndex`. -/
def findLevelStep (s : Side) (levels : List (PriceLevel ι)) (incomingPrice : Int) :
    Cursor → Option Cursor :=
  searchStep s.ahead PriceLevel.price levels incomingPrice

structure Searches {s : Side} (ladder : SortedLadder s ι) (incomingPrice : Int)
    (idx : Nat) (found : Bool) : Prop where
  terminates : .returned idx found ∈
    eval (findLevelStep s ladder.levels incomingPrice) (.looking 0 ladder.levels.length)
  in_range : ∀ i, ¬ Reaches (findLevelStep s ladder.levels incomingPrice)
    (.looking 0 ladder.levels.length) (.outOfRange i)
  found_iff : found = true ↔ ∃ level ∈ ladder.levels, level.price = incomingPrice
  found_at : found = true → (ladder.levels[idx]?).map PriceLevel.price = some incomingPrice
  insertion_point : found = false → ∀ i, i ≤ ladder.levels.length ∧
    ((ladder.levels.map PriceLevel.price).insertIdx i incomingPrice).Pairwise s.ahead ↔ i = idx

structure Provides {s : Side} (ladder : SortedLadder s ι) (price : Int)
    (levels : List (PriceLevel ι)) (idx : Nat) : Prop where
  level : (levels[idx]?).map PriceLevel.price = some price
  existing : (∃ level ∈ ladder.levels, level.price = price) → levels = ladder.levels
  created : (∀ level ∈ ladder.levels, level.price ≠ price) →
    levels[idx]? = some { price := price } ∧ levels.eraseIdx idx = ladder.levels
  others : levels.filter (fun level => level.price ≠ price) =
    ladder.levels.filter (fun level => level.price ≠ price)
  sorted : (levels.map PriceLevel.price).Pairwise s.ahead
  nodup : (levels.map PriceLevel.price).Nodup

section Ladder

variable {s : Side} (ladder : SortedLadder s ι) (price : Int)

theorem located {found : Bool} (h : (findLevelIndex s ladder.levels price).2 = found) :
    Located s.ahead PriceLevel.price ladder.levels price
      ((findLevelIndex s ladder.levels price).1, found) := by
  rw [← h]
  exact findLevelIndex_spec ladder.sorted price

theorem absent_split (h : (findLevelIndex s ladder.levels price).2 = false) :
    ∃ pre post, ladder.levels = pre ++ post ∧
      pre.length = (findLevelIndex s ladder.levels price).1 ∧
      (∀ level ∈ pre, s.ahead level.price price) ∧ ∀ level ∈ post, s.ahead price level.price :=
  (located ladder price h).absent_split

theorem found_split (h : (findLevelIndex s ladder.levels price).2 = true) :
    ∃ pre level post, ladder.levels = pre ++ level :: post ∧
      pre.length = (findLevelIndex s ladder.levels price).1 ∧ level.price = price :=
  (located ladder price h).found_split

theorem absent_of_not_found (h : (findLevelIndex s ladder.levels price).2 = false) :
    ∀ level ∈ ladder.levels, level.price ≠ price := by
  obtain ⟨pre, post, hsplit, -, hpre, hpost⟩ := absent_split ladder price h
  intro level hl
  rw [hsplit] at hl
  rcases List.mem_append.mp hl with hl | hl
  · exact s.ne_of_ahead (hpre level hl)
  · exact (s.ne_of_ahead (hpost level hl)).symm

theorem found_iff : (findLevelIndex s ladder.levels price).2 = true ↔
    ∃ level ∈ ladder.levels, level.price = price := by
  constructor
  · intro h
    obtain ⟨pre, level, post, hsplit, -, hp⟩ := found_split ladder price h
    exact ⟨level, by simp [hsplit], hp⟩
  · rintro ⟨level, hl, hp⟩
    by_contra h
    exact absent_of_not_found ladder price (Bool.eq_false_iff.mpr h) level hl hp

theorem searches : Searches ladder price (findLevelIndex s ladder.levels price).1
    (findLevelIndex s ladder.levels price).2 := by
  have heval := search_mem_eval s.ahead PriceLevel.price ladder.levels price 0 ladder.levels.length
    (Nat.le_refl _)
  refine ⟨heval, ?_, found_iff ladder price, ?_, ?_⟩
  · intro i
    exact not_reaches_stuck heval rfl Cursor.noConfusion
  · intro h
    obtain ⟨pre, level, post, hsplit, hlen, hp⟩ := found_split ladder price h
    rw [← hlen, hsplit, getElem?_split]
    exact congrArg some hp
  · intro h i
    exact (located ladder price h).insert_iff ladder.sorted i

theorem getOrCreate_found (h : (findLevelIndex s ladder.levels price).2 = true) :
    getOrCreateLevel s ladder.levels price = (ladder.levels, (findLevelIndex s ladder.levels price).1) := by
  rw [getOrCreateLevel, ← Prod.eta (findLevelIndex s ladder.levels price), h]

theorem provides_found (h : (findLevelIndex s ladder.levels price).2 = true) :
    Provides ladder price (getOrCreateLevel s ladder.levels price).1
      (getOrCreateLevel s ladder.levels price).2 := by
  obtain ⟨pre, level, post, hsplit, hlen, hp⟩ := found_split ladder price h
  rw [getOrCreate_found ladder price h]
  dsimp only
  refine ⟨?_, fun _ => rfl, ?_, rfl, ladder.sorted, s.nodup_of_ahead ladder.sorted⟩
  · rw [← hlen, hsplit, getElem?_split]
    exact congrArg some hp
  · intro habsent
    exact absurd hp (habsent level (by simp [hsplit]))

variable {pre post : List (PriceLevel ι)}

theorem getOrCreate_absent (hsplit : ladder.levels = pre ++ post)
    (h : (findLevelIndex s ladder.levels price).2 = false)
    (hlen : pre.length = (findLevelIndex s ladder.levels price).1) :
    getOrCreateLevel s ladder.levels price = (pre ++ { price := price } :: post, pre.length) := by
  rw [getOrCreateLevel, ← Prod.eta (findLevelIndex s ladder.levels price), h, ← hlen]
  simp only [hsplit, insertIdx_split]

theorem created_sorted (hsplit : ladder.levels = pre ++ post)
    (hpre : ∀ level ∈ pre, s.ahead level.price price) (hpost : ∀ level ∈ post, s.ahead price level.price) :
    ((pre ++ ({ price := price } : PriceLevel ι) :: post).map PriceLevel.price).Pairwise s.ahead := by
  have hs := ladder.sorted
  rw [hsplit, List.map_append] at hs
  rw [List.map_append, List.map_cons]
  exact (pairwise_insert_iff hs price).mpr ⟨List.forall_mem_map.mpr hpre, List.forall_mem_map.mpr hpost⟩

theorem provides_absent (h : (findLevelIndex s ladder.levels price).2 = false) :
    Provides ladder price (getOrCreateLevel s ladder.levels price).1
      (getOrCreateLevel s ladder.levels price).2 := by
  obtain ⟨pre, post, hsplit, hlen, hpre, hpost⟩ := absent_split ladder price h
  have hat : (pre ++ { price := price } :: post)[pre.length]? =
      some ({ price := price } : PriceLevel ι) := getElem?_split pre _ post
  have hsorted := created_sorted ladder price hsplit hpre hpost
  rw [getOrCreate_absent ladder price hsplit h hlen]
  refine ⟨congrArg _ hat, ?_, fun _ => ⟨hat, ?_⟩, ?_, hsorted, s.nodup_of_ahead hsorted⟩
  · rintro ⟨level, hl, hp⟩
    exact absurd hp (absent_of_not_found ladder price h level hl)
  · rw [eraseIdx_split, hsplit]
  · rw [hsplit, List.filter_append, List.filter_append, List.filter_cons_of_neg (by simp)]

theorem provides : Provides ladder price (getOrCreateLevel s ladder.levels price).1
    (getOrCreateLevel s ladder.levels price).2 := by
  cases h : (findLevelIndex s ladder.levels price).2 with
  | true => exact provides_found ladder price h
  | false => exact provides_absent ladder price h

end Ladder

/-- Each search returns the level or its only place, and each `getOrCreate` puts the level there. -/
theorem ladders_search (bids : SortedLadder .buy ι) (asks : SortedLadder .sell ι) (price : Int) :
    Searches bids price (findBidLevelIndex bids.levels price).1
        (findBidLevelIndex bids.levels price).2 ∧
      Searches asks price (findAskLevelIndex asks.levels price).1
        (findAskLevelIndex asks.levels price).2 ∧
      Provides bids price (getOrCreateBidLevel bids.levels price).1
        (getOrCreateBidLevel bids.levels price).2 ∧
      Provides asks price (getOrCreateAskLevel asks.levels price).1
        (getOrCreateAskLevel asks.levels price).2 :=
  ⟨searches bids price, searches asks price, provides bids price, provides asks price⟩

/-- The loops of the searches go round at most once for each binary digit of the number of levels,
and once more to come out. -/
theorem ladder_search_time (levels : List (PriceLevel ι)) (price : Int) :
    Nonempty (EvalsToInTime (findLevelStep .buy levels price) (.looking 0 levels.length)
        (some (.returned (findBidLevelIndex levels price).1 (findBidLevelIndex levels price).2))
        (Nat.size levels.length + 1)) ∧
      Nonempty (EvalsToInTime (findLevelStep .sell levels price) (.looking 0 levels.length)
        (some (.returned (findAskLevelIndex levels price).1 (findAskLevelIndex levels price).2))
        (Nat.size levels.length + 1)) :=
  ⟨search_inTime Side.buy.ahead PriceLevel.price levels price 0 levels.length (Nat.le_refl _),
    search_inTime Side.sell.ahead PriceLevel.price levels price 0 levels.length (Nat.le_refl _)⟩

end Orderbook.LadderSearch

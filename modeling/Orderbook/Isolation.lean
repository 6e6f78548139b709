import Orderbook.Broadcast

namespace Orderbook.Isolation

open Domain Book Engine CancelEffect Broadcast Library.Runs

def findBook (symbol : Text) (books : List (Text × SymbolOrderbook)) : Option SymbolOrderbook :=
  (books.find? (fun entry => entry.1 = symbol)).map Prod.snd

def taggedLines (v : VisitOrder) (cmd : Command) (e : MatchingEngine) : List (Text × OutputLine) :=
  match cmd.type with
  | .newOrder => (processNewOrder cmd (bookOf cmd.symbol e.books)).2.map (Prod.mk cmd.symbol)
  | .cancel =>
      (v.visit e.books).flatMap (fun entry => (processCancel cmd entry.2).2.map (Prod.mk entry.1))
  | .flush => []
  | .invalid => []

def linesOf (symbol : Text) (lines : List (Text × OutputLine)) : List OutputLine :=
  (lines.filter (fun l => l.1 = symbol)).map Prod.snd

/-- What the book of `symbol` appends for the command that comes after `pre`. -/
def appended (symbol : Text) (v : Nat → VisitOrder) (pre : List Command) (cmd : Command) :
    List OutputLine :=
  linesOf symbol (taggedLines (v (engineState v pre).1) cmd (engineAfter v pre))

def concerns (symbol : Text) (cmd : Command) : Bool := !(cmd.type = .newOrder && cmd.symbol ≠ symbol)

def onSymbol (symbol : Text) (cmds : List Command) : List Command := cmds.filter (concerns symbol)

/-- The book of one symbol on its own: it begins with its first order and ends with a flush. -/
def bookStep (symbol : Text) : Machine (Option SymbolOrderbook) Command OutputLine := fun b cmd =>
  match cmd.type with
  | .newOrder =>
      if cmd.symbol = symbol then
        (some (processNewOrder cmd (b.getD {})).1, (processNewOrder cmd (b.getD {})).2)
      else (b, [])
  | .cancel =>
      (b.map (fun b => (processCancel cmd b).1), (b.map (fun b => (processCancel cmd b).2)).getD [])
  | .flush => (none, [])
  | .invalid => (b, [])

theorem taggedLines_lines (v : VisitOrder) (cmd : Command) (e : MatchingEngine) :
    (taggedLines v cmd e).map Prod.snd = (processCommand v cmd e).2 := by
  rw [taggedLines, processCommand]
  cases cmd.type with
  | newOrder => simp [Function.comp_def]
  | cancel => simp [List.map_flatMap, Function.comp_def]
  | flush => rfl
  | invalid => rfl

section Lookup

variable (symbol : Text) (books : List (Text × SymbolOrderbook))

theorem bookOf_eq : bookOf symbol books = (findBook symbol books).getD {} := by
  induction books with
  | nil => rfl
  | cons entry rest ih =>
      obtain ⟨s, b⟩ := entry
      by_cases hs : s = symbol
      · simp [bookOf, findBook, hs]
      · rw [bookOf, if_neg hs, ih, findBook, findBook, List.find?_cons_of_neg (by simpa using hs)]

theorem findBook_storeBook (s : Text) (b : SymbolOrderbook) :
    findBook symbol (storeBook s b books) = if s = symbol then some b else findBook symbol books := by
  induction books with
  | nil =>
      by_cases hs : s = symbol
      · simp [storeBook, findBook, hs]
      · simp [storeBook, findBook, hs]
  | cons entry rest ih =>
      obtain ⟨t, old⟩ := entry
      rw [findBook, findBook] at ih
      by_cases ht : t = s
      · by_cases hs : s = symbol
        · simp [storeBook, findBook, ht, hs]
        · simp [storeBook, findBook, ht, hs]
      · by_cases htx : t = symbol
        · have hs : s ≠ symbol := fun he => ht (htx.trans he.symm)
          simp [storeBook, findBook, htx, Ne.symm hs, hs]
        · simp [storeBook, findBook, ht, htx, ih]

theorem findBook_map (f : SymbolOrderbook → SymbolOrderbook) :
    findBook symbol (books.map (fun entry => (entry.1, f entry.2))) = (findBook symbol books).map f := by
  rw [findBook, List.find?_map, Option.map_map, findBook, Option.map_map]
  rfl

variable {symbol books}

theorem mem_of_findBook {b : SymbolOrderbook} (h : findBook symbol books = some b) : (symbol, b) ∈ books := by
  obtain ⟨entry, he, rfl⟩ := Option.map_eq_some_iff.mp h
  have hs : entry.1 = symbol := by simpa using List.find?_some he
  rw [← hs]
  exact List.mem_of_find?_eq_some he

theorem absent_of_findBook (h : findBook symbol books = none) : symbol ∉ books.map Prod.fst := by
  intro hm
  obtain ⟨entry, he, hs⟩ := List.mem_map.mp hm
  have hn := List.find?_eq_none.mp (Option.map_eq_none_iff.mp h) entry he
  exact hn (by simpa using hs)

end Lookup

section Lines

variable {symbol : Text} {f : SymbolOrderbook → List OutputLine} {books : List (Text × SymbolOrderbook)}

def tagAll (f : SymbolOrderbook → List OutputLine) (books : List (Text × SymbolOrderbook)) :
    List (Text × OutputLine) :=
  books.flatMap (fun entry => (f entry.2).map (Prod.mk entry.1))

theorem linesOf_tag (s : Text) (lines : List OutputLine) :
    linesOf symbol (lines.map (Prod.mk s)) = if s = symbol then lines else [] := by
  rw [linesOf, List.filter_map]
  split_ifs with hs
  · simp [Function.comp_def, hs]
  · simp [Function.comp_def, hs]

theorem linesOf_append (xs ys : List (Text × OutputLine)) :
    linesOf symbol (xs ++ ys) = linesOf symbol xs ++ linesOf symbol ys := by
  rw [linesOf, List.filter_append, List.map_append]
  rfl

theorem linesOf_absent (h : symbol ∉ books.map Prod.fst) : linesOf symbol (tagAll f books) = [] := by
  induction books with
  | nil => rfl
  | cons entry rest ih =>
      rw [List.map_cons, List.mem_cons, not_or] at h
      rw [tagAll, List.flatMap_cons, linesOf_append, linesOf_tag, if_neg (Ne.symm h.1)]
      exact ih h.2

theorem linesOf_present (hn : (books.map Prod.fst).Nodup) {b : SymbolOrderbook} (h : (symbol, b) ∈ books) :
    linesOf symbol (tagAll f books) = f b := by
  induction books with
  | nil => cases h
  | cons entry rest ih =>
      rw [List.map_cons, List.nodup_cons] at hn
      rw [tagAll, List.flatMap_cons, linesOf_append, linesOf_tag]
      rcases List.mem_cons.mp h with rfl | h
      · rw [if_pos rfl]
        exact (congrArg _ (linesOf_absent hn.1)).trans (List.append_nil _)
      · have hne : entry.1 ≠ symbol := fun he => hn.1 (he ▸ List.mem_map_of_mem h)
        rw [if_neg hne]
        exact ih hn.2 h

end Lines

section Step

variable (symbol : Text) (v : VisitOrder) (cmd : Command) {e : MatchingEngine}

theorem findBook_processCommand : findBook symbol (processCommand v cmd e).1.books =
    (bookStep symbol (findBook symbol e.books) cmd).1 := by
  rw [processCommand, bookStep]
  cases cmd.type with
  | newOrder =>
      simp only [findBook_storeBook]
      by_cases hs : cmd.symbol = symbol
      · rw [if_pos hs, if_pos hs, bookOf_eq, hs]
      · rw [if_neg hs, if_neg hs]
  | cancel =>
      have hmap := findBook_map symbol e.books (fun b => (processCancel cmd b).1)
      exact hmap
  | flush => rfl
  | invalid => rfl

theorem linesOf_taggedLines (hn : (e.books.map Prod.fst).Nodup) :
    linesOf symbol (taggedLines v cmd e) = (bookStep symbol (findBook symbol e.books) cmd).2 := by
  rw [taggedLines, bookStep]
  cases cmd.type with
  | newOrder =>
      simp only [linesOf_tag]
      by_cases hs : cmd.symbol = symbol
      · rw [if_pos hs, if_pos hs, bookOf_eq, hs]
      · rw [if_neg hs, if_neg hs]
  | cancel =>
      have hnames := (v.perm e.books).map Prod.fst
      change linesOf symbol (tagAll (fun b => (processCancel cmd b).2) (v.visit e.books)) = _
      cases hf : findBook symbol e.books with
      | none =>
          apply linesOf_absent
          exact fun hm => absent_of_findBook hf (hnames.mem_iff.mp hm)
      | some b =>
          apply linesOf_present (hnames.nodup_iff.mpr hn)
          exact (v.perm e.books).mem_iff.mpr (mem_of_findBook hf)
  | flush => rfl
  | invalid => rfl

variable {cmd}

theorem bookStep_other (b : Option SymbolOrderbook) (h : concerns symbol cmd = false) :
    (bookStep symbol b cmd).1 = b := by
  simp only [concerns, Bool.not_eq_false', Bool.and_eq_true, decide_eq_true_eq] at h
  rw [bookStep, h.1]
  simp only
  rw [if_neg h.2]

end Step

section Run

variable (symbol : Text) (v : Nat → VisitOrder)

theorem findBook_engineAfter (cmds : List Command) :
    findBook symbol (engineAfter v cmds).books = final (bookStep symbol) none cmds := by
  have h := final_projects (engineStep v) (bookStep symbol) (fun s => findBook symbol s.2.books)
    (fun s cmd => (findBook_processCommand symbol (v s.1) cmd).symm) cmds engineStart
  exact h.symm

theorem final_onSymbol (cmds : List Command) (b : Option SymbolOrderbook) :
    final (bookStep symbol) b (onSymbol symbol cmds) = final (bookStep symbol) b cmds :=
  final_filter (bookStep symbol) (concerns symbol) (fun b _ h => bookStep_other symbol b h) cmds b

theorem appended_eq (pre : List Command) (cmd : Command) :
    appended symbol v pre cmd = (bookStep symbol (final (bookStep symbol) none pre) cmd).2 := by
  have hn : ((engineAfter v pre).books.map Prod.fst).Nodup := by
    rw [engine_symbols]
    exact tradedSymbols_nodup pre
  rw [appended, linesOf_taggedLines symbol _ cmd hn, findBook_engineAfter]

end Run

/-- Orders for other symbols cannot be noticed in a symbol's book. -/
theorem symbol_isolated (symbol : Text) (v w : Nat → VisitOrder) (cmds : List Command) :
    findBook symbol (engineAfter v cmds).books =
        findBook symbol (engineAfter w (onSymbol symbol cmds)).books ∧
      ∀ pre cmd post, cmds = pre ++ cmd :: post → concerns symbol cmd = true →
        appended symbol v pre cmd = appended symbol w (onSymbol symbol pre) cmd := by
  constructor
  · rw [findBook_engineAfter, findBook_engineAfter, final_onSymbol]
  · intro pre cmd _ _ _
    rw [appended_eq, appended_eq, final_onSymbol]

end Orderbook.Isolation

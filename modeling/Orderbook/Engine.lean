import Orderbook.SlotReuse

namespace Orderbook.Engine

open Domain Book SlotReuse Library.Runs

structure MatchingEngine where
  books : List (Text × SymbolOrderbook) := []

/-- In which order a range-for loop visits the entries of the hash map. The library
promises no more than that every entry is visited once. -/
structure VisitOrder where
  visit : List (Text × SymbolOrderbook) → List (Text × SymbolOrderbook)
  perm : ∀ books, (visit books).Perm books

instance : Inhabited VisitOrder := ⟨⟨id, fun _ => List.Perm.refl _⟩⟩

def bookOf (symbol : Text) : List (Text × SymbolOrderbook) → SymbolOrderbook
  | [] => {}
  | (s, b) :: rest => if s = symbol then b else bookOf symbol rest

def storeBook (symbol : Text) (b : SymbolOrderbook) :
    List (Text × SymbolOrderbook) → List (Text × SymbolOrderbook)
  | [] => [(symbol, b)]
  | (s, old) :: rest => if s = symbol then (s, b) :: rest else (s, old) :: storeBook symbol b rest

def processCommand (v : VisitOrder) (cmd : Command) (e : MatchingEngine) :
    MatchingEngine × List OutputLine :=
  match cmd.type with
  | .flush => ({}, [])
  | .newOrder =>
      let processed := processNewOrder cmd (bookOf cmd.symbol e.books)
      ({ books := storeBook cmd.symbol processed.1 e.books }, processed.2)
  | .cancel =>
      ({ books := e.books.map (fun entry => (entry.1, (processCancel cmd entry.2).1)) },
        (v.visit e.books).flatMap (fun entry => (processCancel cmd entry.2).2))
  | .invalid => (e, [])

/-- The engine in a run: the hash map may be visited differently each time, so the state
counts the commands and `v` gives the order for each. -/
def engineStep (v : Nat → VisitOrder) : Machine (Nat × MatchingEngine) Command OutputLine :=
  fun s cmd =>
    let processed := processCommand (v s.1) cmd s.2
    ((s.1 + 1, processed.1), processed.2)

def engineStart : Nat × MatchingEngine := (0, {})

def engineAfter (v : Nat → VisitOrder) (cmds : List Command) : MatchingEngine :=
  (final (engineStep v) engineStart cmds).2

def EngineInvariant (e : MatchingEngine) : Prop := ∀ entry ∈ e.books, Represents entry.2

theorem mem_storeBook {symbol : Text} {b : SymbolOrderbook} {books : List (Text × SymbolOrderbook)}
    {entry : Text × SymbolOrderbook} (h : entry ∈ storeBook symbol b books) :
    entry ∈ books ∨ entry = (symbol, b) := by
  induction books with
  | nil => exact Or.inr (List.mem_singleton.mp h)
  | cons old rest ih =>
      obtain ⟨s, old⟩ := old
      rw [storeBook] at h
      split_ifs at h with hs
      · rcases List.mem_cons.mp h with h | h
        · exact Or.inr (hs ▸ h)
        · exact Or.inl (List.mem_cons_of_mem _ h)
      · rcases List.mem_cons.mp h with h | h
        · exact Or.inl (h ▸ List.mem_cons_self)
        · exact (ih h).imp_left (List.mem_cons_of_mem _)

theorem bookOf_cases (symbol : Text) (books : List (Text × SymbolOrderbook)) :
    (symbol, bookOf symbol books) ∈ books ∨ bookOf symbol books = {} := by
  induction books with
  | nil => exact Or.inr rfl
  | cons entry rest ih =>
      obtain ⟨s, b⟩ := entry
      rw [bookOf]
      split_ifs with hs
      · exact Or.inl (hs ▸ List.mem_cons_self)
      · exact ih.imp_left (List.mem_cons_of_mem _)

/-- What the two operations of a book preserve, with what they say of their lines, a
command preserves in every book of the engine. -/
theorem processCommand_preserves {P : SymbolOrderbook → Prop} {Q : OutputLine → Prop} {e : MatchingEngine}
    (v : VisitOrder) (cmd : Command) (hnew : P {})
    (horder : cmd.type = .newOrder → P (bookOf cmd.symbol e.books) →
      P (processNewOrder cmd (bookOf cmd.symbol e.books)).1 ∧
        ∀ line ∈ (processNewOrder cmd (bookOf cmd.symbol e.books)).2, Q line)
    (hcancel : ∀ b, P b → P (processCancel cmd b).1 ∧ ∀ line ∈ (processCancel cmd b).2, Q line)
    (h : ∀ entry ∈ e.books, P entry.2) :
    (∀ entry ∈ (processCommand v cmd e).1.books, P entry.2) ∧
      ∀ line ∈ (processCommand v cmd e).2, Q line := by
  rw [processCommand]
  cases ht : cmd.type with
  | flush =>
      constructor
      · exact fun _ h => by cases h
      · exact fun _ h => by cases h
  | newOrder =>
      have hbook : P (bookOf cmd.symbol e.books) := by
        rcases bookOf_cases cmd.symbol e.books with hm | hb
        · exact h (cmd.symbol, bookOf cmd.symbol e.books) hm
        · rw [hb]
          exact hnew
      obtain ⟨hnext, hlines⟩ := horder ht hbook
      refine ⟨?_, hlines⟩
      intro entry hentry
      rcases mem_storeBook hentry with hm | rfl
      · exact h entry hm
      · exact hnext
  | cancel =>
      constructor
      · intro entry hentry
        obtain ⟨old, hold, rfl⟩ := List.mem_map.mp hentry
        exact (hcancel old.2 (h old hold)).1
      · intro line hl
        obtain ⟨old, hold, hline⟩ := List.mem_flatMap.mp hl
        exact (hcancel old.2 (h old ((v.perm e.books).mem_iff.mp hold))).2 line hline
  | invalid => exact ⟨h, fun _ hl => by cases hl⟩

theorem processCommand_invariant {e : MatchingEngine} (h : EngineInvariant e) (v : VisitOrder)
    (cmd : Command) : EngineInvariant (processCommand v cmd e).1 := by
  refine (processCommand_preserves (P := Represents) (Q := fun _ => True) v cmd represents_empty
    ?_ ?_ h).1
  · exact fun _ hb => ⟨call_represents _ (.processNewOrder cmd) hb, fun _ _ => trivial⟩
  · exact fun b hb => ⟨call_represents b (.processCancel cmd) hb, fun _ _ => trivial⟩

theorem engineStep_invariant (v : Nat → VisitOrder) (s : Nat × MatchingEngine) (cmd : Command)
    (h : EngineInvariant s.2) : EngineInvariant (engineStep v s cmd).1.2 :=
  processCommand_invariant h (v s.1) cmd

theorem engine_invariant (v : Nat → VisitOrder) (cmds : List Command) :
    EngineInvariant (engineAfter v cmds) :=
  final_preserves (engineStep v) (fun s => EngineInvariant s.2) (engineStep_invariant v) cmds engineStart
    (fun _ h => by cases h)

end Orderbook.Engine

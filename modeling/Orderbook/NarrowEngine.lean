import Orderbook.Broadcast
import Orderbook.Wrapping

namespace Orderbook.NarrowEngine

open Domain Book Engine Broadcast Overflow Wrapping Library.Runs

/-- `processCommand` over books with `int64_t` totals. -/
def processCommand64 (v : VisitOrder) (cmd : Command) (e : MatchingEngine) :
    MatchingEngine × List OutputLine :=
  match cmd.type with
  | .flush => ({}, [])
  | .newOrder =>
      let processed := processNewOrder64 cmd (bookOf cmd.symbol e.books)
      ({ books := storeBook cmd.symbol processed.1 e.books }, processed.2)
  | .cancel =>
      ({ books := e.books.map (fun entry => (entry.1, (processCancel64 cmd entry.2).1)) },
        (v.visit e.books).flatMap (fun entry => (processCancel64 cmd entry.2).2))
  | .invalid => (e, [])

def engineStep64 (v : Nat → VisitOrder) : Machine (Nat × MatchingEngine) Command OutputLine :=
  fun s cmd =>
    let processed := processCommand64 (v s.1) cmd s.2
    ((s.1 + 1, processed.1), processed.2)

def engineAfter64 (v : Nat → VisitOrder) (cmds : List Command) : MatchingEngine :=
  (final (engineStep64 v) engineStart cmds).2

structure NarrowSound (e : MatchingEngine) : Prop where
  books : ∀ entry ∈ e.books, NarrowBook entry.2
  nodup : (e.books.map Prod.fst).Nodup

theorem narrowSound_empty : NarrowSound {} where
  books _ h := by cases h
  nodup := List.nodup_nil

variable {e : MatchingEngine}

theorem NarrowSound.bookOf (h : NarrowSound e) (symbol : Text) : NarrowBook (bookOf symbol e.books) := by
  rcases bookOf_cases symbol e.books with hm | hb
  · exact h.books _ hm
  · rw [hb]
    exact narrowBook_empty

theorem processCommand64_symbols (v : VisitOrder) (cmd : Command) (e : MatchingEngine) :
    (processCommand64 v cmd e).1.books.map Prod.fst = noteSymbol (e.books.map Prod.fst) cmd := by
  rw [processCommand64, noteSymbol]
  cases cmd.type with
  | newOrder => exact storeBook_symbols cmd.symbol _ e.books
  | flush => rfl
  | cancel => exact List.map_map
  | invalid => rfl

theorem NarrowSound.step (h : NarrowSound e) (v : VisitOrder) (cmd : Command) :
    NarrowSound (processCommand64 v cmd e).1 where
  books := by
    rw [processCommand64]
    cases cmd.type with
    | newOrder =>
        intro entry hentry
        rcases mem_storeBook hentry with hm | rfl
        · exact h.books entry hm
        · exact (h.bookOf cmd.symbol).call64 (.processNewOrder cmd)
    | flush => exact fun _ hm => by cases hm
    | cancel =>
        intro entry hentry
        obtain ⟨old, hold, rfl⟩ := List.mem_map.mp hentry
        exact (h.books old hold).call64 (.processCancel cmd)
    | invalid => exact h.books
  nodup := by
    rw [processCommand64_symbols]
    exact noteSymbol_nodup h.nodup cmd

end Orderbook.NarrowEngine

import Orderbook.FlatBook
import Orderbook.Isolation
import Orderbook.NarrowEngine

namespace Orderbook.Exchange

open Domain Book Engine Isolation Slots Overflow NarrowEngine FlatBook Library.Runs

/-- What the engine is for: a priority book for each symbol that is traded. -/
abbrev Market := Text → Option PriorityBook

def bookAt (m : Market) (symbol : Text) : PriorityBook := (m symbol).getD {}

/-- One command at the exchange. In which order a cancel comes to the books is left open. -/
inductive Exchanges (m : Market) (cmd : Command) : Market → List OutputLine → Prop
  | newOrder (h : cmd.type = .newOrder) :
      Exchanges m cmd
        (Function.update m cmd.symbol (some (flatCall int64 (bookAt m cmd.symbol) (.processNewOrder cmd)).1))
        (flatCall int64 (bookAt m cmd.symbol) (.processNewOrder cmd)).2
  | cancel (h : cmd.type = .cancel) (symbols : List Text) (hn : symbols.Nodup)
      (hall : ∀ x, x ∈ symbols ↔ (m x).isSome) :
      Exchanges m cmd (fun x => (m x).map (fun b => (flatCall int64 b (.processCancel cmd)).1))
        (symbols.flatMap (fun x => (flatCall int64 (bookAt m x) (.processCancel cmd)).2))
  | flush (h : cmd.type = .flush) : Exchanges m cmd (fun _ => none) []
  | invalid (h : cmd.type = .invalid) : Exchanges m cmd m []

inductive Session : Market → List Command → Market → List OutputLine → Prop
  | nil (m : Market) : Session m [] m []
  | cons {m m' m'' : Market} {cmd : Command} {cmds : List Command} {lines lines' : List OutputLine} :
      Exchanges m cmd m' lines → Session m' cmds m'' lines' → Session m (cmd :: cmds) m'' (lines ++ lines')

def marketOf (e : MatchingEngine) : Market := fun x => (findBook x e.books).map (fun b => flatten (deref b))

theorem findBook_of_mem {books : List (Text × SymbolOrderbook)} (hn : (books.map Prod.fst).Nodup)
    {entry : Text × SymbolOrderbook} (h : entry ∈ books) : findBook entry.1 books = some entry.2 := by
  cases hf : findBook entry.1 books with
  | none => exact absurd (List.mem_map_of_mem h) (absent_of_findBook hf)
  | some b =>
      have he := List.inj_on_of_nodup_map hn (mem_of_findBook hf) h rfl
      rw [← he]

section Step

variable {e : MatchingEngine} {cmd : Command}

theorem isSome_marketOf (x : Text) : (marketOf e x).isSome ↔ x ∈ e.books.map Prod.fst := by
  rw [marketOf, Option.isSome_map]
  constructor
  · intro h
    obtain ⟨b, hb⟩ := Option.isSome_iff_exists.mp h
    exact List.mem_map_of_mem (mem_of_findBook hb)
  · intro h
    by_contra hn
    exact absent_of_findBook (Option.not_isSome_iff_eq_none.mp hn) h

theorem bookAt_of_mem (h : NarrowSound e) {entry : Text × SymbolOrderbook} (he : entry ∈ e.books) :
    bookAt (marketOf e) entry.1 = flatten (deref entry.2) := by
  rw [bookAt, marketOf, findBook_of_mem h.nodup he]
  rfl

theorem bookAt_bookOf (x : Text) : bookAt (marketOf e) x = flatten (deref (bookOf x e.books)) := by
  rw [bookAt, marketOf, bookOf_eq]
  cases findBook x e.books with
  | none => rfl
  | some b => rfl

theorem marketOf_newOrder (h : NarrowSound e) (v : VisitOrder) (ht : cmd.type = .newOrder) :
    marketOf (processCommand64 v cmd e).1 = Function.update (marketOf e) cmd.symbol
        (some (flatCall int64 (bookAt (marketOf e) cmd.symbol) (.processNewOrder cmd)).1) ∧
      (processCommand64 v cmd e).2 = (flatCall int64 (bookAt (marketOf e) cmd.symbol) (.processNewOrder cmd)).2 := by
  rw [bookAt_bookOf, call64_flat (h.bookOf cmd.symbol)]
  simp only [processCommand64, ht]
  refine ⟨?_, rfl⟩
  funext x
  simp only [marketOf, findBook_storeBook]
  by_cases hx : x = cmd.symbol
  · subst hx
    simp [call64]
  · rw [Function.update_of_ne hx, if_neg (Ne.symm hx), marketOf]

theorem marketOf_cancel (h : NarrowSound e) (v : VisitOrder) (ht : cmd.type = .cancel) :
    marketOf (processCommand64 v cmd e).1 =
      fun x => (marketOf e x).map (fun b => (flatCall int64 b (.processCancel cmd)).1) := by
  funext x
  have hmap : findBook x (e.books.map (fun entry => (entry.1, (processCancel64 cmd entry.2).1))) =
      (findBook x e.books).map (fun b => (processCancel64 cmd b).1) :=
    findBook_map x e.books (fun b => (processCancel64 cmd b).1)
  simp only [processCommand64, ht, marketOf, hmap]
  cases hf : findBook x e.books with
  | none => rfl
  | some b =>
      have hb := call64_flat (h.books _ (mem_of_findBook hf)) (.processCancel cmd)
      simp only [Option.map_some, hb, call64]

theorem cancel_visited (h : NarrowSound e) (v : VisitOrder) (ht : cmd.type = .cancel) :
    (processCommand64 v cmd e).2 = ((v.visit e.books).map Prod.fst).flatMap
      (fun x => (flatCall int64 (bookAt (marketOf e) x) (.processCancel cmd)).2) := by
  simp only [processCommand64, ht, List.flatMap_map]
  apply List.flatMap_congr
  intro entry he
  have hm := (v.perm e.books).mem_iff.mp he
  rw [bookAt_of_mem h hm, call64_flat (h.books entry hm)]
  rfl

theorem step_exchanges (h : NarrowSound e) (v : VisitOrder) (cmd : Command) :
    Exchanges (marketOf e) cmd (marketOf (processCommand64 v cmd e).1) (processCommand64 v cmd e).2 := by
  cases ht : cmd.type with
  | newOrder =>
      obtain ⟨hm, hl⟩ := marketOf_newOrder h v ht
      rw [hm, hl]
      exact Exchanges.newOrder ht
  | cancel =>
      have hnames := (v.perm e.books).map Prod.fst
      rw [marketOf_cancel h v ht, cancel_visited h v ht]
      refine Exchanges.cancel ht _ (hnames.nodup_iff.mpr h.nodup) (fun x => ?_)
      rw [isSome_marketOf, hnames.mem_iff]
  | flush =>
      simp only [processCommand64, ht]
      exact Exchanges.flush ht
  | invalid =>
      simp only [processCommand64, ht]
      exact Exchanges.invalid ht

end Step

section Visit

def entriesOf (symbols : List Text) (books : List (Text × SymbolOrderbook)) : List (Text × SymbolOrderbook) :=
  symbols.map (fun x => (x, bookOf x books))

open Classical in
noncomputable def visitAs (symbols : List Text) : VisitOrder where
  visit books := if (entriesOf symbols books).Perm books then entriesOf symbols books else books
  perm books := by
    split_ifs with hp
    · exact hp
    · exact List.Perm.refl books

theorem entriesOf_symbols (symbols : List Text) (books : List (Text × SymbolOrderbook)) :
    (entriesOf symbols books).map Prod.fst = symbols := by
  rw [entriesOf, List.map_map]
  exact List.map_id symbols

variable {e : MatchingEngine} {symbols : List Text}

theorem entriesOf_perm (h : NarrowSound e) (hn : symbols.Nodup) (hall : ∀ x, x ∈ symbols ↔ (marketOf e x).isSome) :
    (entriesOf symbols e.books).Perm e.books := by
  have hnames := entriesOf_symbols symbols e.books
  have hentries : ((entriesOf symbols e.books).map Prod.fst).Nodup := by rwa [hnames]
  apply (List.perm_ext_iff_of_nodup (List.Nodup.of_map _ hentries) (List.Nodup.of_map _ h.nodup)).mpr
  intro entry
  constructor
  · intro he
    obtain ⟨x, hx, rfl⟩ := List.mem_map.mp he
    obtain ⟨old, hold, rfl⟩ := List.mem_map.mp ((isSome_marketOf x).mp ((hall x).mp hx))
    rw [bookOf_eq, findBook_of_mem h.nodup hold]
    exact hold
  · intro he
    have hx := (hall entry.1).mpr ((isSome_marketOf entry.1).mpr (List.mem_map_of_mem he))
    have hb : bookOf entry.1 e.books = entry.2 := by
      rw [bookOf_eq, findBook_of_mem h.nodup he]
      rfl
    exact List.mem_map.mpr ⟨entry.1, hx, by rw [hb]⟩

theorem visitAs_symbols (h : NarrowSound e) (hn : symbols.Nodup)
    (hall : ∀ x, x ∈ symbols ↔ (marketOf e x).isSome) :
    ((visitAs symbols).visit e.books).map Prod.fst = symbols := by
  rw [visitAs]
  simp only [if_pos (entriesOf_perm h hn hall)]
  exact entriesOf_symbols symbols e.books

theorem exchanges_step (h : NarrowSound e) {cmd : Command} {m : Market} {lines : List OutputLine}
    (hx : Exchanges (marketOf e) cmd m lines) :
    ∃ v, marketOf (processCommand64 v cmd e).1 = m ∧ (processCommand64 v cmd e).2 = lines := by
  cases hx with
  | newOrder ht => exact ⟨default, marketOf_newOrder h default ht⟩
  | cancel ht symbols hn hall =>
      refine ⟨visitAs symbols, marketOf_cancel h _ ht, ?_⟩
      rw [cancel_visited h _ ht, visitAs_symbols h hn hall]
  | flush ht =>
      refine ⟨default, ?_⟩
      simp only [processCommand64, ht]
      exact ⟨rfl, trivial⟩
  | invalid ht =>
      refine ⟨default, ?_⟩
      simp only [processCommand64, ht]
      exact ⟨trivial, trivial⟩

end Visit

section Run

theorem engineStep64_congr {v w : Nat → VisitOrder} {n : Nat} (cmds : List Command) (h : ∀ k, n ≤ k → v k = w k)
    (e : MatchingEngine) :
    final (engineStep64 v) (n, e) cmds = final (engineStep64 w) (n, e) cmds ∧
      output (engineStep64 v) (n, e) cmds = output (engineStep64 w) (n, e) cmds := by
  induction cmds generalizing n e with
  | nil => exact ⟨rfl, rfl⟩
  | cons cmd cmds ih =>
      have hstep : engineStep64 v (n, e) cmd = engineStep64 w (n, e) cmd := by
        rw [engineStep64, engineStep64, h n (Nat.le_refl n)]
      obtain ⟨hf, ho⟩ := ih (fun k hk => h k (Nat.le_of_succ_le hk)) (processCommand64 (w n) cmd e).1
      rw [final_cons, final_cons, output_cons, output_cons, hstep]
      exact ⟨hf, congrArg _ ho⟩

variable {cmds : List Command}

theorem run_session (v : Nat → VisitOrder) (n : Nat) {e : MatchingEngine} (h : NarrowSound e) :
    Session (marketOf e) cmds (marketOf (final (engineStep64 v) (n, e) cmds).2)
      (output (engineStep64 v) (n, e) cmds) := by
  induction cmds generalizing n e with
  | nil => exact Session.nil _
  | cons cmd cmds ih => exact Session.cons (step_exchanges h (v n) cmd) (ih (n + 1) (h.step (v n) cmd))

theorem session_run {m : Market} {lines : List OutputLine} (n : Nat) {e : MatchingEngine} (h : NarrowSound e)
    (hs : Session (marketOf e) cmds m lines) :
    ∃ v, marketOf (final (engineStep64 v) (n, e) cmds).2 = m ∧ output (engineStep64 v) (n, e) cmds = lines := by
  induction cmds generalizing n e lines with
  | nil =>
      cases hs
      exact ⟨fun _ => default, rfl, rfl⟩
  | cons cmd cmds ih =>
      cases hs with
      | cons hx hs =>
          obtain ⟨now, rfl, rfl⟩ := exchanges_step h hx
          obtain ⟨later, hm, hl⟩ := ih (n + 1) (h.step now cmd) hs
          have hlater : ∀ k, n + 1 ≤ k → Function.update later n now k = later k :=
            fun k hk => Function.update_of_ne (by omega) _ _
          obtain ⟨hf, ho⟩ := engineStep64_congr cmds hlater (processCommand64 now cmd e).1
          have hnow : Function.update later n now n = now := Function.update_self n now later
          refine ⟨Function.update later n now, ?_, ?_⟩
          · rw [final_cons, engineStep64, hnow]
            exact (congrArg (fun s => marketOf s.2) hf).trans hm
          · rw [output_cons, engineStep64, hnow]
            exact congrArg _ (ho.trans hl)

end Run

/-- What the engine can do, over all orders in which its hash map may be visited, is what the exchange
can do: a priority queue of orders on each side of each symbol, and nothing else. -/
theorem session_iff (cmds : List Command) (m : Market) (lines : List OutputLine) :
    Session (fun _ => none) cmds m lines ↔
      ∃ v, marketOf (engineAfter64 v cmds) = m ∧ output (engineStep64 v) engineStart cmds = lines := by
  constructor
  · exact session_run 0 narrowSound_empty
  · rintro ⟨v, rfl, rfl⟩
    exact run_session v 0 narrowSound_empty

end Orderbook.Exchange

import Orderbook.Representation

namespace Orderbook.MatchLoops

open Domain SlotPool Ladder Matching Book Simulation SlotReuse Orderbook.Representation StateTransition
  Library.Runs

inductive Routine
  | market
  | limit (incomingLimitPrice : Int)

structure Examination where
  price : Int
  lines : List OutputLine

/-- The control point of the nested loops. In the inner one, `it` is the position of the
iterator in the queue of the front level; only the limit routines read the two flags. -/
inductive Phase
  | outer
  | inner (it : Nat) (traded onlySelf : Bool)
  | done

/-- `examined` lists the passes of the outer loop, the latest first. -/
structure LoopState where
  levels : List (PriceLevel OrderIterator)
  walk : Walk
  lines : List OutputLine
  examined : List Examination
  phase : Phase

def withinLimit : Routine → Side → Int → Bool
  | .market, _, _ => true
  | .limit incomingLimitPrice, side, price => !exceedsLimit side price incomingLimitPrice

def record (line : OutputLine) : List Examination → List Examination
  | [] => []
  | e :: es => { e with lines := e.lines ++ [line] } :: es

/-- The test of the outer loop, and the body up to the inner loop. -/
def enterLevel (r : Routine) (side : Side) (st : LoopState) : LoopState :=
  match st.levels with
  | [] => { st with phase := .done }
  | level :: _ =>
      if 0 < st.walk.incomingQty then
        { st with
          examined := ⟨level.price, []⟩ :: st.examined
          phase := if withinLimit r side level.price then .inner 0 false true else .done }
      else { st with phase := .done }

/-- The body of the inner loop, on the order that the iterator `it` stands at. -/
def visitOrder (side : Side) (incoming : Order) (level : PriceLevel OrderIterator)
    (rest : List (PriceLevel OrderIterator)) (it : Nat) (traded onlySelf : Bool)
    (ordIt : OrderIterator) (st : LoopState) : LoopState :=
  if (get st.walk.slotPool ordIt).userId = incoming.userId then
    { st with phase := .inner (it + 1) traded onlySelf }
  else
    let filled := (reduced st.walk ordIt).quantity = 0
    let line := emitFill side incoming (reduced st.walk ordIt) (tradeQty st.walk ordIt)
    { levels :=
        { level with
          totalQuantity := level.totalQuantity - tradeQty st.walk ordIt
          orders := if filled then level.orders.eraseIdx it else level.orders } :: rest
      walk := settle st.walk ordIt
      lines := st.lines ++ [line]
      examined := record line st.examined
      phase := .inner (if filled then it else it + 1) true false }

/-- The body of the outer loop after the inner one. -/
def leaveLevel (r : Routine) (level : PriceLevel OrderIterator)
    (rest : List (PriceLevel OrderIterator)) (traded onlySelf : Bool) (st : LoopState) : LoopState :=
  if level.orders.isEmpty then { st with levels := rest, phase := .outer }
  else
    match r with
    | .market => { st with phase := .done }
    | .limit _ =>
        if traded = false then { st with phase := .done }
        else if onlySelf then { st with phase := .done }
        else { st with phase := .outer }

def loopStep (r : Routine) (side : Side) (incoming : Order) (st : LoopState) : Option LoopState :=
  match st.phase with
  | .done => none
  | .outer => some (enterLevel r side st)
  | .inner it traded onlySelf =>
      match st.levels with
      | [] => none
      | level :: rest =>
          match level.orders[it]? with
          | some ordIt =>
              if 0 < st.walk.incomingQty then
                some (visitOrder side incoming level rest it traded onlySelf ordIt st)
              else some (leaveLevel r level rest traded onlySelf st)
          | none => some (leaveLevel r level rest traded onlySelf st)

def matchMarketBuyStep (cmd : Command) : LoopState → Option LoopState :=
  loopStep .market .buy (makeIncomingOrder cmd)

def matchMarketSellStep (cmd : Command) : LoopState → Option LoopState :=
  loopStep .market .sell (makeIncomingOrder cmd)

def matchLimitBuyStep (cmd : Command) : LoopState → Option LoopState :=
  loopStep (.limit cmd.price) .buy (makeIncomingOrder cmd)

def matchLimitSellStep (cmd : Command) : LoopState → Option LoopState :=
  loopStep (.limit cmd.price) .sell (makeIncomingOrder cmd)

def loopStart (s : Side) (cmd : Command) (b : SymbolOrderbook) : LoopState :=
  ⟨levels b s.opposite, startWalk cmd b, [], [], .outer⟩

structure Terminates (step : LoopState → Option LoopState) (start : LoopState) (sweep : Sweep)
    (last : LoopState) : Prop where
  reached : last ∈ eval step start
  phase : last.phase = .done
  levels : last.levels = sweep.levels
  walk : last.walk = sweep.walk
  lines : last.lines = sweep.lines

/-- No price is examined three times. Where one is examined again, no trade is made
and no examination comes after it. -/
structure ExaminesTwice (examined : List Examination) : Prop where
  twice : ∀ price, (examined.map Examination.price).count price ≤ 2
  again : ∀ later e earlier, examined = later ++ e :: earlier →
    e.price ∈ earlier.map Examination.price → e.lines = [] ∧ later = []

section Inner

variable (r : Routine) (side : Side) (incoming : Order) (level : PriceLevel OrderIterator)
  (rest : List (PriceLevel OrderIterator))

def queueAt (level : PriceLevel OrderIterator) (passed ahead : List OrderIterator) (total : Int) :
    PriceLevel OrderIterator :=
  ⟨level.price, total, passed ++ ahead⟩

theorem queueAt_move (passed ahead : List OrderIterator)
    (ordIt : OrderIterator) (total : Int) :
    queueAt level (passed ++ [ordIt]) ahead total = queueAt level passed (ordIt :: ahead) total := by
  simp [queueAt]

section Steps

variable (passed ahead : List OrderIterator) (ordIt : OrderIterator) (total : Int)
  (traded onlySelf : Bool) {w : Walk} (lines seen : List OutputLine) (es : List Examination)

theorem loopStep_end (w : Walk) :
    loopStep r side incoming ⟨queueAt level passed [] total :: rest, w, lines, es,
        .inner passed.length traded onlySelf⟩ =
      some (leaveLevel r (queueAt level passed [] total) rest traded onlySelf
        ⟨queueAt level passed [] total :: rest, w, lines, es, .outer⟩) := by
  simp only [loopStep, queueAt, List.append_nil, List.getElem?_length]
  rfl

theorem loopStep_filled (hq : ¬ 0 < w.incomingQty) :
    loopStep r side incoming ⟨queueAt level passed (ordIt :: ahead) total :: rest, w, lines, es,
        .inner passed.length traded onlySelf⟩ =
      some (leaveLevel r (queueAt level passed (ordIt :: ahead) total) rest traded onlySelf
        ⟨queueAt level passed (ordIt :: ahead) total :: rest, w, lines, es, .outer⟩) := by
  simp only [loopStep, queueAt, getElem?_split, if_neg hq]
  rfl

theorem loopStep_own (hq : 0 < w.incomingQty) (hu : (get w.slotPool ordIt).userId = incoming.userId) :
    loopStep r side incoming ⟨queueAt level passed (ordIt :: ahead) total :: rest, w, lines, es,
        .inner passed.length traded onlySelf⟩ =
      some ⟨queueAt level (passed ++ [ordIt]) ahead total :: rest, w, lines, es,
        .inner (passed ++ [ordIt]).length traded onlySelf⟩ := by
  rw [queueAt_move, List.length_append, List.length_singleton]
  simp only [loopStep, queueAt, getElem?_split, if_pos hq, visitOrder, if_pos hu]

def passedAfter (w : Walk) : List OrderIterator :=
  if (reduced w ordIt).quantity = 0 then passed else passed ++ [ordIt]

theorem loopStep_trade (hq : 0 < w.incomingQty) (hu : (get w.slotPool ordIt).userId ≠ incoming.userId) :
    loopStep r side incoming ⟨queueAt level passed (ordIt :: ahead) total :: rest, w, lines,
        ⟨level.price, seen⟩ :: es, .inner passed.length traded onlySelf⟩ =
      some ⟨queueAt level (passedAfter passed ordIt w) ahead (total - tradeQty w ordIt) :: rest,
        settle w ordIt, lines ++ [emitFill side incoming (reduced w ordIt) (tradeQty w ordIt)],
        ⟨level.price, seen ++ [emitFill side incoming (reduced w ordIt) (tradeQty w ordIt)]⟩ :: es,
        .inner (passedAfter passed ordIt w).length true false⟩ := by
  simp only [loopStep, queueAt, getElem?_split, if_pos hq, visitOrder, if_neg hu, eraseIdx_split, record]
  by_cases hr : (reduced w ordIt).quantity = 0
  · simp only [passedAfter, if_pos hr]
  · simp only [passedAfter, if_neg hr, List.append_assoc, List.singleton_append, List.length_append,
      List.length_singleton]

end Steps

theorem inner_reaches (passed ahead : List OrderIterator) (total : Int) (traded onlySelf : Bool)
    (w : Walk) (lines seen : List OutputLine) (es : List Examination) :
    let scan := matchQueueLimit side incoming ahead total traded onlySelf w
    let after := queueAt level passed scan.queue scan.totalQuantity
    Reaches (loopStep r side incoming)
      ⟨queueAt level passed ahead total :: rest, w, lines, ⟨level.price, seen⟩ :: es,
        .inner passed.length traded onlySelf⟩
      (leaveLevel r after rest scan.traded scan.onlySelf
        ⟨after :: rest, scan.walk, lines ++ scan.lines, ⟨level.price, seen ++ scan.lines⟩ :: es,
          .outer⟩) := by
  induction ahead generalizing passed total traded onlySelf w lines seen with
  | nil =>
      simp only [matchQueueLimit, List.append_nil]
      exact reaches_one (loopStep_end r side incoming level rest passed total traded onlySelf lines _ w)
  | cons ordIt ahead ih =>
      by_cases hq : 0 < w.incomingQty
      · by_cases hu : (get w.slotPool ordIt).userId = incoming.userId
        · have hi := ih (passed ++ [ordIt]) total traded onlySelf w lines seen
          simp only [queueAt_move] at hi
          simp only [matchQueueLimit, if_pos hq, if_pos hu]
          apply reaches_cons (loopStep_own r side incoming level rest passed ahead ordIt total traded
            onlySelf lines _ hq hu)
          rw [queueAt_move]
          exact hi
        · have hi := ih (passedAfter passed ordIt w) (total - tradeQty w ordIt) true false (settle w ordIt)
            (lines ++ [emitFill side incoming (reduced w ordIt) (tradeQty w ordIt)])
            (seen ++ [emitFill side incoming (reduced w ordIt) (tradeQty w ordIt)])
          simp only [matchQueueLimit, if_pos hq, if_neg hu]
          apply reaches_cons (loopStep_trade r side incoming level rest passed ahead ordIt total traded
            onlySelf lines seen es hq hu)
          simp only [List.append_assoc, List.singleton_append] at hi
          by_cases hr : (reduced w ordIt).quantity = 0
          · simpa only [passedAfter, if_pos hr] using hi
          · simpa only [passedAfter, if_neg hr, queueAt_move] using hi
      · simp only [matchQueueLimit, if_neg hq, List.append_nil]
        exact reaches_one
          (loopStep_filled r side incoming level rest passed ahead ordIt total traded onlySelf lines _ hq)

theorem level_reaches {w : Walk} (hq : 0 < w.incomingQty) (hw : withinLimit r side level.price = true)
    (lines : List OutputLine) (es : List Examination) :
    let scan := matchQueue side incoming level.orders level.totalQuantity w
    Reaches (loopStep r side incoming) ⟨level :: rest, w, lines, es, .outer⟩
      (leaveLevel r (scanned level scan) rest (!scan.lines.isEmpty) scan.lines.isEmpty
        ⟨scanned level scan :: rest, scan.walk, lines ++ scan.lines, ⟨level.price, scan.lines⟩ :: es,
          .outer⟩) := by
  have henter : loopStep r side incoming ⟨level :: rest, w, lines, es, .outer⟩ =
      some ⟨level :: rest, w, lines, ⟨level.price, []⟩ :: es, .inner 0 false true⟩ := by
    simp only [loopStep, enterLevel, if_pos hq, hw, if_true]
  have hscan := matchQueueLimit_eq side incoming level.orders level.totalQuantity false w
  have hinner := inner_reaches r side incoming level rest [] level.orders
    level.totalQuantity false true w lines [] es
  simp only [Bool.not_false, Bool.false_or, Bool.true_and] at hscan
  rw [hscan] at hinner
  exact reaches_cons henter hinner

theorem leave_emptied (he : level.orders.isEmpty = true) (traded onlySelf : Bool) (st : LoopState) :
    leaveLevel r level rest traded onlySelf st = { st with levels := rest, phase := .outer } := by
  cases r <;> simp only [leaveLevel, he, if_true]

theorem leave_untraded (he : ¬ level.orders.isEmpty = true) (onlySelf : Bool) (st : LoopState) :
    leaveLevel r level rest false onlySelf st = { st with phase := .done } := by
  cases r <;> simp only [leaveLevel, if_neg he, if_true]

theorem own_level_reaches {w : Walk} (hq : 0 < w.incomingQty)
    (hw : withinLimit r side level.price = true) (hne : ¬ level.orders.isEmpty = true)
    (hown : ∀ it ∈ level.orders, (get w.slotPool it).userId = incoming.userId)
    (lines : List OutputLine) (es : List Examination) :
    Reaches (loopStep r side incoming) ⟨level :: rest, w, lines, es, .outer⟩
      ⟨level :: rest, w, lines, ⟨level.price, []⟩ :: es, .done⟩ := by
  have hpass := level_reaches r side incoming level rest hq hw lines es
  rw [matchQueue_own side incoming level.orders _ _ hown] at hpass
  simp only [List.isEmpty_nil, Bool.not_true, List.append_nil] at hpass
  rwa [leave_untraded r (scanned level ⟨level.orders, level.totalQuantity, w, []⟩) rest hne] at hpass

/-- What the passes over `levels` looked at: `first` are those of new prices, `again` is a
look back at a level that had been traded at. -/
structure LookedAt (levels : List (PriceLevel OrderIterator)) (again first : List Examination) : Prop where
  nodup : (first.map Examination.price).Nodup
  known : ∀ e ∈ first, e.price ∈ levels.map PriceLevel.price
  quiet : ∀ e ∈ again, e.lines = []
  once : again.length ≤ 1

theorem lookedAt_one (lines : List OutputLine) : LookedAt (level :: rest) [] [⟨level.price, lines⟩] := by
  refine ⟨by simp, ?_, by simp, Nat.zero_le 1⟩
  intro e he
  rw [List.mem_singleton] at he
  subst he
  exact List.mem_cons_self

theorem LookedAt.below {rest : List (PriceLevel OrderIterator)} {level : PriceLevel OrderIterator}
    {again first : List Examination} (h : LookedAt rest again first)
    (hfresh : level.price ∉ rest.map PriceLevel.price) (lines : List OutputLine) :
    LookedAt (level :: rest) again (first ++ [⟨level.price, lines⟩]) := by
  refine ⟨?_, ?_, h.quiet, h.once⟩
  · rw [List.map_append, List.map_singleton, List.nodup_append_comm, List.singleton_append,
      List.nodup_cons]
    refine ⟨?_, h.nodup⟩
    intro hm
    obtain ⟨e, he, hp⟩ := List.mem_map.mp hm
    rw [show level.price = e.price from hp.symm] at hfresh
    exact hfresh (h.known e he)
  · intro e he
    rcases List.mem_append.mp he with he | he
    · exact List.mem_cons_of_mem _ (h.known e he)
    · rw [List.mem_singleton] at he
      subst he
      exact List.mem_cons_self

theorem emptied_level_reaches {w : Walk} {scan : Scan} (hq : 0 < w.incomingQty)
    (hw : withinLimit r side level.price = true)
    (hscan : matchQueue side incoming level.orders level.totalQuantity w = scan)
    (he : scan.queue.isEmpty = true) (lines : List OutputLine) (es : List Examination) :
    Reaches (loopStep r side incoming) ⟨level :: rest, w, lines, es, .outer⟩
      ⟨rest, scan.walk, lines ++ scan.lines, ⟨level.price, scan.lines⟩ :: es, .outer⟩ := by
  have hpass := level_reaches r side incoming level rest hq hw lines es
  rw [hscan] at hpass
  dsimp only at hpass
  rwa [leave_emptied r (scanned level scan) rest he] at hpass

theorem kept_level_reaches {w : Walk} {scan : Scan} (hq : 0 < w.incomingQty)
    (hw : withinLimit r side level.price = true)
    (hscan : matchQueue side incoming level.orders level.totalQuantity w = scan)
    (he : ¬ scan.queue.isEmpty = true)
    (hown : 0 < scan.walk.incomingQty →
      ∀ it ∈ scan.queue, (get scan.walk.slotPool it).userId = incoming.userId)
    (lines : List OutputLine) (es : List Examination) :
    ∃ again : List Examination, (∀ e ∈ again, e.lines = []) ∧ again.length ≤ 1 ∧
      Reaches (loopStep r side incoming) ⟨level :: rest, w, lines, es, .outer⟩
        ⟨scanned level scan :: rest, scan.walk, lines ++ scan.lines,
          again ++ ⟨level.price, scan.lines⟩ :: es, .done⟩ := by
  have hpass := level_reaches r side incoming level rest hq hw lines es
  rw [hscan] at hpass
  dsimp only at hpass
  cases hl : scan.lines.isEmpty with
  | true =>
      rw [hl, Bool.not_true, leave_untraded r (scanned level scan) rest he] at hpass
      exact ⟨[], by simp, Nat.zero_le 1, hpass⟩
  | false =>
      rw [hl, Bool.not_false] at hpass
      cases r with
      | market =>
          simp only [leaveLevel, scanned, he, Bool.false_eq_true, if_false] at hpass
          exact ⟨[], by simp, Nat.zero_le 1, hpass⟩
      | limit limit =>
          simp only [leaveLevel, scanned, he, Bool.false_eq_true, Bool.true_eq_false, if_false] at hpass
          by_cases hleft : 0 < scan.walk.incomingQty
          · -- the look back finds own orders only
            have hagain := own_level_reaches (.limit limit) side incoming (scanned level scan) rest hleft hw
              he (hown hleft) (lines ++ scan.lines) (⟨level.price, scan.lines⟩ :: es)
            exact ⟨[⟨level.price, []⟩], by simp, Nat.le_refl 1, hpass.trans hagain⟩
          · refine ⟨[], by simp, Nat.zero_le 1, hpass.trans (reaches_one ?_)⟩
            simp only [loopStep, enterLevel, if_neg hleft]
            rfl

theorem outer_reaches (levels : List (PriceLevel OrderIterator)) (w : Walk) (lines : List OutputLine)
    (es : List Examination) (hprices : (levels.map PriceLevel.price).Nodup)
    (hd : (resting levels).Nodup) (hlt : ∀ it ∈ resting levels, it < w.slotPool.storage.length) :
    let sweep := sweepLevels (withinLimit r side) side incoming levels w
    ∃ again first, LookedAt levels again first ∧
      Reaches (loopStep r side incoming) ⟨levels, w, lines, es, .outer⟩
        ⟨sweep.levels, sweep.walk, lines ++ sweep.lines, again ++ (first ++ es), .done⟩ := by
  induction levels generalizing w lines es with
  | nil =>
      refine ⟨[], [], ⟨List.nodup_nil, by simp, by simp, Nat.zero_le 1⟩, ?_⟩
      simp only [sweepLevels, List.append_nil, List.nil_append]
      exact reaches_one rfl
  | cons level rest ih =>
      rw [List.map_cons, List.nodup_cons] at hprices
      rw [resting_cons, List.nodup_append] at hd
      by_cases hq : 0 < w.incomingQty
      · cases hw : withinLimit r side level.price with
        | false =>
            refine ⟨[], [⟨level.price, []⟩], lookedAt_one level rest [], ?_⟩
            simp only [sweepLevels, hw, Bool.false_eq_true, and_false, if_false, List.append_nil]
            apply reaches_one
            simp only [loopStep, enterLevel, if_pos hq, hw, Bool.false_eq_true, if_false]
            rfl
        | true =>
            obtain ⟨hlevel, hbelow⟩ := forall_resting_cons.mp hlt
            have hreads := matchQueue_reads side incoming level.orders level.totalQuantity w hd.1 hlevel
            simp only [sweepLevels_cons _ side incoming level rest w hq hw]
            generalize hscan : matchQueue side incoming level.orders level.totalQuantity w = scan at hreads ⊢
            by_cases he : scan.queue.isEmpty = true
            · have hpass := emptied_level_reaches r side incoming level rest hq hw hscan he lines es
              obtain ⟨again, first, hlooked, hrest⟩ := ih scan.walk (lines ++ scan.lines)
                (⟨level.price, scan.lines⟩ :: es) hprices.2 hd.2.1 (hreads.pool.lt_length hbelow)
              refine ⟨again, first ++ [⟨level.price, scan.lines⟩], hlooked.below hprices.1 _, ?_⟩
              simp only [if_pos he, List.append_assoc, List.singleton_append] at hrest ⊢
              exact hpass.trans hrest
            · obtain ⟨again, hquiet, honce, hpass⟩ :=
                kept_level_reaches r side incoming level rest hq hw hscan he hreads.own lines es
              have hone := lookedAt_one level rest scan.lines
              simp only [if_neg he]
              exact ⟨again, _, ⟨hone.nodup, hone.known, hquiet, honce⟩, hpass⟩
      · refine ⟨[], [], ⟨List.nodup_nil, by simp, by simp, Nat.zero_le 1⟩, ?_⟩
        simp only [sweepLevels, if_neg (fun h : _ ∧ _ => hq h.1), List.append_nil, List.nil_append]
        apply reaches_one
        simp only [loopStep, enterLevel, if_neg hq]

end Inner

theorem LookedAt.examinesTwice {levels : List (PriceLevel OrderIterator)} {again first : List Examination}
    (h : LookedAt levels again first) : ExaminesTwice (again ++ first) := by
  have hnew {later earlier : List Examination} {e : Examination} (hf : first = later ++ e :: earlier) :
      e.price ∉ earlier.map Examination.price := by
    have hn := h.nodup
    rw [hf, List.map_append, List.nodup_append] at hn
    exact (List.nodup_cons.mp hn.2.1).1
  constructor
  · intro price
    have hfirst := List.nodup_iff_count_le_one.mp h.nodup price
    have hagain := List.count_le_length (a := price) (l := again.map Examination.price)
    have honce := h.once
    rw [List.length_map] at hagain
    rw [List.map_append, List.count_append]
    omega
  · intro later e earlier hs hmem
    rcases hag : again with _ | ⟨a, more⟩
    · rw [hag, List.nil_append] at hs
      exact absurd hmem (hnew hs)
    · have hmore : more = [] := by
        have honce := h.once
        rw [hag, List.length_cons] at honce
        exact List.length_eq_zero_iff.mp (by omega)
      rw [hag, hmore, List.singleton_append] at hs
      cases later with
      | nil =>
          obtain ⟨rfl, -⟩ := List.cons.inj hs
          exact ⟨h.quiet a (by simp [hag]), rfl⟩
      | cons b later =>
          obtain ⟨-, hf⟩ := List.cons.inj hs
          exact absurd hmem (hnew hf)

section Routines

variable (calls : List BookCall) (s : Side) (cmd : Command)

theorem routine_terminates (r : Routine) :
    ∃ last, Terminates (loopStep r s (makeIncomingOrder cmd)) (loopStart s cmd (bookAfter calls))
        (sweepLevels (withinLimit r s) s (makeIncomingOrder cmd) (levels (bookAfter calls) s.opposite)
          (startWalk cmd (bookAfter calls))) last ∧
      ExaminesTwice last.examined := by
  have hr := represents_after calls
  have hprices := s.opposite.nodup_of_ahead (side_sorted hr s.opposite)
  obtain ⟨again, first, hlooked, hreach⟩ := outer_reaches r s (makeIncomingOrder cmd)
    (levels (bookAfter calls) s.opposite) (startWalk cmd (bookAfter calls)) [] [] hprices
    (hr.side_nodup s.opposite) (fun it hit => hr.lt_length s.opposite hit)
  rw [List.append_nil] at hreach
  exact ⟨_, ⟨eval_of_reaches hreach rfl, rfl, rfl, rfl, rfl⟩, hlooked.examinesTwice⟩

theorem market_terminates :
    ∃ last, Terminates (loopStep .market s (makeIncomingOrder cmd)) (loopStart s cmd (bookAfter calls))
      (marketSweep s cmd (bookAfter calls)) last := by
  obtain ⟨last, hlast, -⟩ := routine_terminates calls s cmd .market
  rw [marketSweep, matchLevels_eq_sweep]
  exact ⟨last, hlast⟩

theorem limit_terminates :
    ∃ last, Terminates (loopStep (.limit cmd.price) s (makeIncomingOrder cmd))
        (loopStart s cmd (bookAfter calls)) (limitSweep s cmd (bookAfter calls)) last ∧
      ExaminesTwice last.examined := by
  have hr := represents_after calls
  rw [limitSweep, matchLevelsLimit_eq_sweep _ _ _ _ _ (hr.side_nodup s.opposite)
    (fun it hit => hr.lt_length s.opposite hit)]
  exact routine_terminates calls s cmd (.limit cmd.price)

/-- The nested loops of the four routines come to an end on every reachable book, with the
result of the recursive loops; those of the limit routines look back at most once. -/
theorem loops_terminate :
    (∃ last, Terminates (matchMarketBuyStep cmd) (loopStart .buy cmd (bookAfter calls))
      (marketSweep .buy cmd (bookAfter calls)) last) ∧
    (∃ last, Terminates (matchMarketSellStep cmd) (loopStart .sell cmd (bookAfter calls))
      (marketSweep .sell cmd (bookAfter calls)) last) ∧
    (∃ last, Terminates (matchLimitBuyStep cmd) (loopStart .buy cmd (bookAfter calls))
      (limitSweep .buy cmd (bookAfter calls)) last ∧ ExaminesTwice last.examined) ∧
    (∃ last, Terminates (matchLimitSellStep cmd) (loopStart .sell cmd (bookAfter calls))
      (limitSweep .sell cmd (bookAfter calls)) last ∧ ExaminesTwice last.examined) :=
  ⟨market_terminates calls .buy cmd, market_terminates calls .sell cmd, limit_terminates calls .buy cmd,
    limit_terminates calls .sell cmd⟩

end Routines

end Orderbook.MatchLoops

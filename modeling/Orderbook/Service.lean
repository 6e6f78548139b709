import Orderbook.Decoding
import Orderbook.Exchange

namespace Orderbook.Service

open Domain Engine CommandParser Threads Agreement Liveness EndToEnd Decoding NarrowEngine Exchange
  Library.Runs

variable {v : Nat → VisitOrder} {p q : Process}

def engineLines64 (v : Nat → VisitOrder) : Machine (Nat × MatchingEngine) Command Text :=
  mapOutput (engineStep64 v) render

/-- The process with an engine whose totals are `int64_t`. -/
def processAfter64 (v : Nat → VisitOrder) (schedule : List Move) : Process :=
  processAfterWith (engineLines64 v) schedule

def receivedWith (m : Machine (Nat × MatchingEngine) Command Text) (schedule : List Move) : List Text :=
  output (fun p move => (processStepWith m p move, receives p move)) {} schedule

def received64 (v : Nat → VisitOrder) (schedule : List Move) : List Text :=
  receivedWith (engineLines64 v) schedule

section Input

variable {m n : Machine (Nat × MatchingEngine) Command Text}

structure SameInput (p q : Process) : Prop where
  input : q.input = p.input
  requested : q.shutdownRequested = p.shutdownRequested
  pushed : q.pushed = p.pushed

theorem SameInput.inputThread (h : SameInput p q) (answer : Answer) :
    SameInput (inputThreadStep answer p) (inputThreadStep answer q) := by
  obtain ⟨hi, hr, hp⟩ := h
  have hsame (i : InputThread) : SameInput { p with input := i } { q with input := i } := ⟨rfl, hr, hp⟩
  rw [inputThreadStep.eq_def, inputThreadStep.eq_def, hi]
  cases p.input with
  | opening => cases answer <;> exact hsame _
  | binding attempts =>
      dsimp only
      split_ifs
      · cases answer <;> exact hsame _
      · exact hsame _
  | givingUp => exact ⟨rfl, rfl, hp⟩
  | polling =>
      dsimp only
      rw [hr]
      exact ⟨rfl, rfl, hp⟩
  | receiving => cases answer <;> exact hsame _
  | reading lines =>
      cases lines with
      | nil => exact hsame _
      | cons line lines =>
          dsimp only
          cases parseLineToCommand line with
          | error e => exact hsame _
          | ok cmd =>
              dsimp only
              split_ifs
              · exact hsame _
              · exact ⟨rfl, hr, congrArg (· ++ [cmd]) hp⟩
  | closing => exact ⟨rfl, hr, hp⟩
  | returned | threw => exact ⟨hi, hr, hp⟩

theorem SameInput.receives (h : SameInput p q) (move : Move) : receives q move = receives p move := by
  cases move with
  | input answer =>
      cases answer with
      | datagram bytes => rw [EndToEnd.receives, EndToEnd.receives, h.input]
      | failure | success => rfl
  | signal | processing | output => rfl

theorem sameInput_processing (m : Machine (Nat × MatchingEngine) Command Text) (p : Process) :
    SameInput p (processingThreadStepWith m p) := by
  have heffect := processingThreadStep_effect m p
  generalize processingThreadStepWith m p = q at heffect
  cases heffect <;> exact ⟨rfl, rfl, rfl⟩

theorem sameInput_output (p : Process) : SameInput p (outputThreadStep p) := by
  have heffect := outputThreadStep_effect p
  generalize outputThreadStep p = q at heffect
  cases heffect <;> exact ⟨rfl, rfl, rfl⟩

theorem SameInput.trans {r : Process} (h : SameInput p q) (h' : SameInput q r) : SameInput p r :=
  ⟨h'.input.trans h.input, h'.requested.trans h.requested, h'.pushed.trans h.pushed⟩

theorem SameInput.symm (h : SameInput p q) : SameInput q p :=
  ⟨h.input.symm, h.requested.symm, h.pushed.symm⟩

theorem SameInput.step (h : SameInput p q) (move : Move) :
    SameInput (processStepWith m p move) (processStepWith n q move) := by
  rw [processStepWith.eq_def, processStepWith.eq_def, h.input]
  cases p.input with
  | threw => exact h
  | opening | binding | givingUp | polling | receiving | reading | closing | returned =>
      cases move with
      | signal => exact ⟨h.input, rfl, h.pushed⟩
      | input answer => exact h.inputThread answer
      | processing => exact (sameInput_processing m p).symm.trans (h.trans (sameInput_processing n q))
      | output => exact (sameInput_output p).symm.trans (h.trans (sameInput_output q))

theorem sameInput_after (m n : Machine (Nat × MatchingEngine) Command Text) (schedule : List Move) :
    SameInput (processAfterWith m schedule) (processAfterWith n schedule) := by
  induction schedule using List.reverseRecOn with
  | nil => exact ⟨rfl, rfl, rfl⟩
  | append_singleton schedule move ih =>
      rw [processAfterWith, List.foldl_concat, processAfterWith, List.foldl_concat]
      exact ih.step move

theorem receivedWith_concat (schedule : List Move) (move : Move) : receivedWith m (schedule ++ [move]) =
    receivedWith m schedule ++ receives (processAfterWith m schedule) move := by
  have hfinal (as : List Move) (s : Process) :
      final (fun p move => (processStepWith m p move, receives p move)) s as = as.foldl (processStepWith m) s := by
    induction as generalizing s with
    | nil => rfl
    | cons a as ih => exact ih _
  rw [receivedWith, output_concat, hfinal]
  rfl

theorem receivedWith_eq (m n : Machine (Nat × MatchingEngine) Command Text) (schedule : List Move) :
    receivedWith m schedule = receivedWith n schedule := by
  induction schedule using List.reverseRecOn with
  | nil => rfl
  | append_singleton schedule move ih =>
      rw [receivedWith_concat, receivedWith_concat, ih, (sameInput_after m n schedule).receives]

theorem reads_after64 (v : Nat → VisitOrder) (schedule : List Move) :
    Reads (processAfter64 v schedule) (received64 v schedule) := by
  have hsame := sameInput_after (engineLines v) (engineLines64 v) schedule
  have hreceived : received64 v schedule = received v schedule := receivedWith_eq _ _ schedule
  have hreads := reads_after v schedule
  have hread : (processAfter64 v schedule).pushed ++ pendingCommands (processAfter64 v schedule).input =
      (processAfter v schedule).pushed ++ pendingCommands (processAfter v schedule).input :=
    congrArg₂ _ hsame.pushed (congrArg _ hsame.input)
  have hthrew : Threw (processAfter64 v schedule) ↔ Threw (processAfter v schedule) := by
    rw [Threw, processAfter64, hsame.input]
    rfl
  rw [hreceived]
  exact ⟨hread ▸ hreads.begins, fun ht => hread.trans (hreads.all fun hn => ht (hthrew.mpr hn))⟩

end Input

/-- The process is an exchange for those who see its network and its standard output only: the
messages that can be read there begin the lines of a session over the commands of the stream,
and they are all of them when the threads have returned. -/
theorem process_serves (schedule : List Move) (h : ∀ b ∈ received64 v schedule, WholeLines b) :
    ∃ m lines, Session (fun _ => none) (streamCommands (received64 v schedule).flatten) m lines ∧
      ∃ front, front <+: lines ∧
        decodeOutput (standardOutput (processAfter64 v schedule).printed) =
          front.map (fun line => some (message line)) ∧
        (Returned (processAfter64 v schedule) → front = lines) := by
  obtain ⟨hpushed, hdone⟩ := (reads_after64 v schedule).stream h
  obtain ⟨front, hbegins, hprinted, hall⟩ := printed_lines (engineStep64 v) schedule
  refine ⟨_, _, run_session v 0 narrowSound_empty, front, ?_, ?_, fun hr => ?_⟩
  · obtain ⟨rest, hrest⟩ := hpushed
    rw [← hrest, output_append]
    exact hbegins.trans (List.prefix_append _ _)
  · change decodeOutput (standardOutput (processAfterWith (mapOutput (engineStep64 v) render) schedule).printed) = _
    rw [hprinted, decodeOutput_render]
  · rw [hall hr]
    exact congrArg _ (hdone hr)

theorem process_serves_overflow :
    let bids : Text := Overflow.largestBid ++ ['\n'] ++ Overflow.oneMore ++ ['\n']
    let schedule : List Move :=
      [.input .success, .input .success, .input .success, .input (.datagram bids), .signal,
        .input .success, .input .success, .input .success, .input .success, .input .success] ++
      List.replicate 12 .processing ++ List.replicate 12 .output
    ∃ m lines, Session (fun _ => none) (streamCommands bids) m lines ∧
      decodeOutput (standardOutput (processAfter64 (fun _ => default) schedule).printed) =
        lines.map (fun line => some (message line)) ∧
      lines.map message = [.ack 1 1, .top .buy (some (10, 9223372036854775807)), .ack 2 2,
        .top .buy (some (10, -9223372036854775808))] := by
  intro bids schedule
  have hone : received64 (fun _ => default) schedule = [bids] := by decide +kernel
  have hreturned : Returned (processAfter64 (fun _ => default) schedule) := by decide +kernel
  have hwhole : ∀ b ∈ received64 (fun _ => default) schedule, WholeLines b := by
    rw [hone, List.forall_mem_singleton]
    decide +kernel
  obtain ⟨m, lines, hsession, front, -, hdecoded, hall⟩ := process_serves schedule hwhole
  rw [hone] at hsession
  rw [hall hreturned] at hdecoded
  have hread : decodeOutput (standardOutput (processAfter64 (fun _ => default) schedule).printed) =
      [some (.ack 1 1), some (.top .buy (some (10, 9223372036854775807))), some (.ack 2 2),
        some (.top .buy (some (10, -9223372036854775808)))] := by
    decide +kernel
  refine ⟨m, lines, hsession, hdecoded, List.map_injective_iff.mpr (Option.some_injective _) ?_⟩
  rw [List.map_map]
  exact hdecoded.symm.trans hread

section Shutdown

/-- How many datagrams may still come without another test of the loop condition. -/
def mayReceive (p : Process) : ℕ := if p.input = .receiving then 1 else 0

def Stopping (p : Process) : Prop := p.shutdownRequested = true ∨ Threw p

theorem input_receives (hs : p.shutdownRequested = true) (answer : Answer) :
    (receives p (.input answer)).length + mayReceive (inputThreadStep answer p) ≤ mayReceive p := by
  by_cases hp : p.input = .receiving
  · have hone : (receives p (.input answer)).length ≤ 1 := by
      cases answer with
      | datagram bytes => simp [receives, hp]
      | failure | success => exact Nat.zero_le 1
    have hnext : (inputThreadStep answer p).input ≠ .receiving := by
      cases answer <;> simp [inputThreadStep, hp]
    rw [mayReceive, mayReceive, if_neg hnext, if_pos hp]
    exact hone
  · have hnext : (inputThreadStep answer p).input ≠ .receiving := by
      cases hi : p.input with
      | receiving => exact absurd hi hp
      | polling => simp [inputThreadStep, hi, hs]
      | opening => cases answer <;> simp [inputThreadStep, hi]
      | binding attempts =>
          simp only [inputThreadStep, hi]
          split_ifs
          · cases answer <;> simp
          · simp
      | reading lines =>
          cases lines with
          | nil => simp [inputThreadStep, hi]
          | cons line lines =>
              simp only [inputThreadStep, hi]
              cases parseLineToCommand line with
              | error e => simp
              | ok cmd =>
                  dsimp only
                  split_ifs <;> simp
      | givingUp | closing | returned | threw => simp [inputThreadStep, hi]
    rw [receives_of_ne hp, mayReceive, mayReceive, if_neg hnext, if_neg hp]
    rfl

theorem move_receives (h : Stopping p) (move : Move) : Stopping (processStep v p move) ∧
    (receives p move).length + mayReceive (processStep v p move) ≤ mayReceive p := by
  by_cases ht : Threw p
  · have hnone : receives p move = [] := receives_of_ne (by rw [ht]; exact fun he => by cases he) move
    rw [processStep_threw ht, hnone]
    exact ⟨h, by simp⟩
  · have hs := h.resolve_right ht
    have hquiet {q : Process} (hi : q.input = p.input) (hmove : receives p move = []) :
        (receives p move).length + mayReceive q ≤ mayReceive p := by
      rw [hmove, mayReceive, mayReceive, hi]
      simp
    cases move with
    | signal =>
        rw [processStep_of_ne ht]
        exact ⟨Or.inl rfl, hquiet rfl rfl⟩
    | input answer =>
        rw [processStep_of_ne ht]
        refine ⟨?_, input_receives hs answer⟩
        by_cases hr : p.input = .returned
        · left
          simp only [inputThreadStep, hr]
          exact hs
        · exact Or.inl (input_closes answer hs ht hr).1
    | processing =>
        rw [processStep_of_ne ht]
        have hkeeps := processingThreadStep_effect (engineLines v) p
        change ProcessingEffect (engineLines v) p (processingThreadStep v p) at hkeeps
        generalize processingThreadStep v p = q at hkeeps
        cases hkeeps <;> exact ⟨Or.inl hs, hquiet rfl rfl⟩
    | output =>
        rw [processStep_of_ne ht]
        have hkeeps := outputThreadStep_effect p
        generalize outputThreadStep p = q at hkeeps
        cases hkeeps <;> exact ⟨Or.inl hs, hquiet rfl rfl⟩

theorem run_receives (pre post : List Move) (h : Stopping (processAfter v pre)) :
    Stopping (processAfter v (pre ++ post)) ∧
      (received v (pre ++ post)).length + mayReceive (processAfter v (pre ++ post)) ≤
        (received v pre).length + mayReceive (processAfter v pre) := by
  induction post using List.reverseRecOn with
  | nil =>
      rw [List.append_nil]
      exact ⟨h, Nat.le_refl _⟩
  | append_singleton post move ih =>
      obtain ⟨hstop, hle⟩ := ih
      obtain ⟨hstop', hmove⟩ := move_receives (v := v) hstop move
      rw [← List.append_assoc, processAfter_concat, received_concat, List.length_append]
      exact ⟨hstop', by omega⟩

/-- After a signal a datagram is taken from the network only if the input thread stands at `recvfrom`
already, past the test of its loop, and then one at most. -/
theorem signal_stops_receiving (v : Nat → VisitOrder) (pre post : List Move) :
    (received v (pre ++ .signal :: post)).length ≤
      (received v pre).length + mayReceive (processAfter v pre) := by
  have hsignal : Stopping (processAfter v (pre ++ [.signal])) ∧
      (processAfter v (pre ++ [.signal])).input = (processAfter v pre).input := by
    rw [processAfter_concat]
    by_cases ht : Threw (processAfter v pre)
    · rw [processStep_threw ht]
      exact ⟨Or.inr ht, rfl⟩
    · rw [processStep_of_ne ht]
      exact ⟨Or.inl rfl, rfl⟩
  obtain ⟨-, hle⟩ := run_receives (pre ++ [.signal]) post hsignal.1
  have hnothing : received v (pre ++ [.signal]) = received v pre := by
    rw [received_concat, show receives (processAfter v pre) .signal = [] from rfl, List.append_nil]
  have hsame : mayReceive (processAfter v (pre ++ [.signal])) = mayReceive (processAfter v pre) := by
    rw [mayReceive, hsignal.2, mayReceive]
  rw [List.append_assoc, List.singleton_append, hnothing, hsame] at hle
  exact Nat.le_trans (Nat.le_add_right _ _) hle

end Shutdown

end Orderbook.Service

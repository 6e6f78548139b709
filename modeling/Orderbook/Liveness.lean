import Orderbook.Agreement
import Orderbook.Library.Fairness
import Orderbook.Locking

namespace Orderbook.Liveness

open Domain Engine CommandParser Threads Agreement Library.Runs Library.Pipeline Library.Fairness
open Locking (Thread)

def actor : Move → Option Thread
  | .signal => none
  | .input _ => some .input
  | .processing => some .processing
  | .output => some .output

def trace (v : Nat → VisitOrder) (moves : ℕ → Move) (n : ℕ) : Process :=
  processAfter v ((List.range n).map moves)

/-- Every thread is scheduled again and again. A move of the input thread at `recvfrom` is a
call that returns. -/
def FairMoves (moves : ℕ → Move) : Prop := ∀ t, Fair (fun n => actor (moves n)) t

def Threw (p : Process) : Prop := p.input = .threw

section Traces

variable {v : Nat → VisitOrder} {moves : ℕ → Move} {p : Process}

theorem trace_succ (v : Nat → VisitOrder) (moves : ℕ → Move) (n : ℕ) :
    trace v moves (n + 1) = processStep v (trace v moves n) (moves n) := by
  rw [trace, trace, List.range_succ, List.map_append, List.map_singleton, processAfter_concat]

/-- What one move does to a process that has not been ended by an exception. -/
inductive Effect (v : Nat → VisitOrder) (p : Process) : Option Thread → Process → Prop
  | signal : Effect v p none (handleSigterm p)
  | input (answer : Answer) (h : InputEffect p (inputThreadStep answer p)) :
      Effect v p (some .input) (inputThreadStep answer p)
  | processing (h : ProcessingEffect (engineLines v) p (processingThreadStep v p)) :
      Effect v p (some .processing) (processingThreadStep v p)
  | output (h : OutputEffect p (outputThreadStep p)) : Effect v p (some .output) (outputThreadStep p)

theorem processStep_effect (h : ¬ Threw p) (move : Move) : Effect v p (actor move) (processStep v p move) := by
  rw [processStep_of_ne h]
  cases move with
  | signal => exact .signal
  | input answer => exact .input answer (inputThreadStep_effect answer p)
  | processing => exact .processing (processingThreadStep_effect (engineLines v) p)
  | output => exact .output (outputThreadStep_effect p)

/-- A queue is shut down by the thread that has returned. -/
structure ShutOnReturn (p : Process) : Prop where
  input : p.input = .returned → p.inputQueue.shutdown = true
  processing : p.processing = .returned → p.outputQueue.shutdown = true

theorem inputThreadStep_returned {answer : Answer} (h : (inputThreadStep answer p).input = .returned) :
    p.input = .returned ∧ inputThreadStep answer p = p ∨
      (inputThreadStep answer p).inputQueue.shutdown = true := by
  cases hp : p.input with
  | returned => exact Or.inl ⟨rfl, by simp only [inputThreadStep, hp]⟩
  | closing =>
      right
      simp only [inputThreadStep, hp]
      rfl
  | reading lines =>
      cases lines with
      | nil => simp [inputThreadStep, hp] at h
      | cons line lines =>
          simp only [inputThreadStep, hp] at h
          cases hparse : parseLineToCommand line with
          | error e => simp [hparse] at h
          | ok cmd =>
              simp only [hparse] at h
              split_ifs at h
  | binding attempts =>
      simp only [inputThreadStep, hp] at h
      split_ifs at h
      cases answer <;> cases h
  | polling =>
      simp only [inputThreadStep, hp] at h
      split_ifs at h
  | opening => cases answer <;> simp [inputThreadStep, hp] at h
  | receiving => cases answer <;> simp [inputThreadStep, hp] at h
  | givingUp => simp [inputThreadStep, hp] at h
  | threw => simp [inputThreadStep, hp] at h

theorem ShutOnReturn.step {q : Process} {t : Option Thread} (h : ShutOnReturn p) (hq : Effect v p t q) :
    ShutOnReturn q := by
  cases hq with
  | signal => exact ⟨h.input, h.processing⟩
  | input answer he =>
      refine ⟨fun hr => ?_, fun hr => ?_⟩
      · rcases inputThreadStep_returned hr with ⟨hp, hsame⟩ | hs
        · rw [hsame]
          exact h.input hp
        · exact hs
      · generalize inputThreadStep answer p = q at he hr
        cases he <;> exact h.processing hr
  | processing he =>
      generalize processingThreadStep v p = q at he
      cases he with
      | stays => exact h
      | takes cmd rest hp hq => exact ⟨h.input, fun hr => by cases hr⟩
      | finishes hp hq hs => exact ⟨h.input, fun hr => by cases hr⟩
      | pushes line outputs hp => exact ⟨h.input, fun hr => by cases hr⟩
      | resumes hp => exact ⟨h.input, fun hr => by cases hr⟩
      | closes hp => exact ⟨h.input, fun _ => rfl⟩
  | output he =>
      generalize outputThreadStep p = q at he
      cases he <;> exact ⟨h.input, h.processing⟩

theorem shutOnReturn_trace (v : Nat → VisitOrder) (moves : ℕ → Move) (n : ℕ) :
    ShutOnReturn (trace v moves n) := by
  induction n with
  | zero => exact ⟨fun h => (by cases h), fun h => (by cases h)⟩
  | succ n ih =>
      rw [trace_succ]
      by_cases ht : Threw (trace v moves n)
      · rwa [processStep_threw ht]
      · exact ih.step (processStep_effect ht (moves n))

def turns (k : ℕ) : Move :=
  if k = 30 then .signal
  else if k % 3 = 0 then .input (.datagram ['N', ',', '1', ',', 'A', ',', '9', ',', '5', ',', 'B', ',', '1'])
  else if k % 3 = 1 then .processing
  else .output

theorem turns_fair : FairMoves turns := by
  intro t n
  cases t with
  | input => exact ⟨3 * (n + 11), by omega, by simp [turns, actor, show 3 * (n + 11) ≠ 30 by omega]⟩
  | processing =>
      refine ⟨3 * n + 1, by omega, ?_⟩
      simp [turns, actor, show 3 * n + 1 ≠ 30 by omega, show (3 * n + 1) % 3 = 1 by omega]
  | output =>
      refine ⟨3 * n + 2, by omega, ?_⟩
      simp [turns, actor, show 3 * n + 2 ≠ 30 by omega, show (3 * n + 2) % 3 = 2 by omega]

end Traces

section Served

variable {v : Nat → VisitOrder} {moves : ℕ → Move} {p q : Process} {t : Option Thread}
  {f : Flow (engineLines v) engineStart}

def taken (p : Process) : ℕ := p.pushed.length - p.inputQueue.queue.length

def passedOn (p : Process) : List Text := p.printed ++ (heldLine p.output ++ p.outputQueue.queue)

theorem taken_eq (h : Follows (engineLines v) p f) : taken p = f.handled.length := by
  rw [taken, h.pushed, h.waiting, Flow.sent, List.length_append, Nat.add_sub_cancel]

theorem taken_add (h : Follows (engineLines v) p f) : taken p + p.inputQueue.queue.length = p.pushed.length := by
  rw [taken_eq h, h.pushed, h.waiting, Flow.sent, List.length_append]

def roundsLeft : ProcessingThread → ℕ
  | .pushing outputs => outputs.length + 1
  | _ => 0

/-- What the processing thread has to do for the first `n` commands. -/
def work (n : ℕ) (p : Process) : ℕ ×ₗ ℕ := toLex (n - taken p, roundsLeft p.processing)

def Processed (n : ℕ) (p : Process) : Prop := n ≤ taken p ∧ roundsLeft p.processing = 0

theorem taken_input (h : InputEffect p q) : taken q = taken p := by
  cases h with
  | moves i requested hi => rfl
  | pushes i cmd hi => simp [taken, ThreadSafeQueue.push, Nat.add_sub_add_right]
  | closes => rfl

theorem processed_of_empty (hf : Follows (engineLines v) p f) {n : ℕ} (hn : n ≤ p.pushed.length)
    (hq : p.inputQueue.queue = []) (hr : roundsLeft p.processing = 0) : Processed n p := by
  have hadd := taken_add hf
  rw [hq, List.length_nil, Nat.add_zero] at hadd
  exact ⟨hadd ▸ hn, hr⟩

theorem processing_works {n : ℕ} (hf : Follows (engineLines v) p f) (hc : ClosedInOrder p) (hn : n ≤ p.pushed.length)
    (hp : ¬ Processed n p) :
    work n (processingThreadStep v p) < work n p ∧ (processingThreadStep v p).pushed = p.pushed := by
  cases hproc : p.processing with
  | popping =>
      cases hq : p.inputQueue.queue with
      | nil => exact absurd (processed_of_empty hf hn hq (by rw [hproc]; rfl)) hp
      | cons cmd rest =>
          have hstep : processingThreadStep v p =
              { p with
                inputQueue := { p.inputQueue with queue := rest }
                engine := (engineLines v p.engine cmd).1
                processing := .pushing (engineLines v p.engine cmd).2 } := by
            simp only [processingThreadStep, processingThreadStepWith, hproc, ThreadSafeQueue.pop, hq]
          rw [hstep]
          refine ⟨Prod.Lex.left _ _ ?_, rfl⟩
          have hlt : taken p < n := by
            by_contra hle
            exact hp ⟨Nat.le_of_not_lt hle, by rw [hproc]; rfl⟩
          have hadd := taken_add hf
          simp only [taken, hq, List.length_cons] at hlt hadd ⊢
          omega
  | pushing outputs =>
      cases outputs with
      | nil =>
          have hstep : processingThreadStep v p = { p with processing := .popping } := by
            simp only [processingThreadStep, processingThreadStepWith, hproc]
          rw [hstep, work, work, hproc]
          exact ⟨Prod.Lex.right _ (Nat.zero_lt_one), rfl⟩
      | cons line outputs =>
          have hstep : processingThreadStep v p =
              { p with outputQueue := p.outputQueue.push line, processing := .pushing outputs } := by
            simp only [processingThreadStep, processingThreadStepWith, hproc]
          rw [hstep, work, work, hproc]
          exact ⟨Prod.Lex.right _ (Nat.lt_succ_self _), rfl⟩
  | closing =>
      have hq := (hc.processing (Or.inl hproc)).2
      exact absurd (processed_of_empty hf hn hq (by rw [hproc]; rfl)) hp
  | returned =>
      have hq := (hc.processing (Or.inr hproc)).2
      exact absurd (processed_of_empty hf hn hq (by rw [hproc]; rfl)) hp

theorem effect_pushed (h : Effect v p t q) : p.pushed <+: q.pushed := by
  cases h with
  | signal => exact List.prefix_rfl
  | input answer he =>
      generalize inputThreadStep answer p = q at he
      cases he with
      | moves i requested hi => exact List.prefix_rfl
      | pushes i cmd hi => exact List.prefix_append _ _
      | closes => exact List.prefix_rfl
  | processing he =>
      generalize processingThreadStep v p = q at he
      cases he <;> exact List.prefix_rfl
  | output he =>
      generalize outputThreadStep p = q at he
      cases he <;> exact List.prefix_rfl

theorem effect_work {n : ℕ} (hf : Follows (engineLines v) p f) (hc : ClosedInOrder p) (hn : n ≤ p.pushed.length)
    (hp : ¬ Processed n p) (h : Effect v p t q) :
    work n q ≤ work n p ∧ (t = some .processing → work n q < work n p) := by
  cases h with
  | signal => exact ⟨le_rfl, fun ht => by cases ht⟩
  | input answer he =>
      refine ⟨le_of_eq ?_, fun ht => by cases ht⟩
      generalize inputThreadStep answer p = q at he
      rw [work, work, taken_input he]
      cases he <;> rfl
  | processing he =>
      have hlt := (processing_works hf hc hn hp).1
      exact ⟨hlt.le, fun _ => hlt⟩
  | output he =>
      refine ⟨le_of_eq ?_, fun ht => by cases ht⟩
      generalize outputThreadStep p = q at he
      cases he <;> rfl

theorem leadsTo_processed (hfair : FairMoves moves) (n : ℕ) :
    LeadsTo (trace v moves) (fun p => n ≤ p.pushed.length) (fun p => Threw p ∨ Processed n p) := by
  have hlowers : Lowers (trace v moves) (fun k => actor (moves k)) .processing (fun p => n ≤ p.pushed.length)
      (fun p => Threw p ∨ Processed n p) (work n) := by
    intro k hn hq
    rw [not_or] at hq
    obtain ⟨f, hf⟩ := follows_after (engineLines v) ((List.range k).map moves)
    have heffect := processStep_effect (v := v) hq.1 (moves k)
    rw [trace_succ]
    exact Or.inr ⟨hn.trans (effect_pushed heffect).length_le,
      effect_work hf (closedInOrder_after (engineLines v) _) hn hq.2 heffect⟩
  exact hlowers.leadsTo (hfair .processing)

end Served

section Printed

variable {v : Nat → VisitOrder} {moves : ℕ → Move} {p q : Process} {t : Option Thread}
  {f : Flow (engineLines v) engineStart}

def linesLeft (l : ℕ) (p : Process) : ℕ := 2 * (l - p.printed.length) - (heldLine p.output).length

theorem effect_passedOn (h : Effect v p t q) : passedOn p <+: passedOn q := by
  cases h with
  | signal => exact List.prefix_rfl
  | input answer he =>
      generalize inputThreadStep answer p = q at he
      cases he <;> exact List.prefix_rfl
  | processing he =>
      generalize processingThreadStep v p = q at he
      cases he with
      | pushes line outputs hp =>
          simp only [passedOn, ThreadSafeQueue.push, ← List.append_assoc]
          exact List.prefix_append _ _
      | stays | takes | finishes | resumes | closes => exact List.prefix_rfl
  | output he =>
      generalize outputThreadStep p = q at he
      cases he with
      | stays => exact List.prefix_rfl
      | takes line rest ho hq =>
          simp [passedOn, ho, hq, heldLine]
      | finishes ho hq hs => simp [passedOn, ho, heldLine]
      | prints line ho => simp [passedOn, ho, heldLine]

theorem output_prints {l : ℕ} (hc : ClosedInOrder p) (hl : l ≤ (passedOn p).length)
    (hp : ¬ l ≤ p.printed.length) : linesLeft l (outputThreadStep p) < linesLeft l p := by
  rw [passedOn, List.length_append, List.length_append] at hl
  cases ho : p.output with
  | popping =>
      cases hq : p.outputQueue.queue with
      | nil => simp [ho, hq, heldLine, hp] at hl
      | cons line rest =>
          have hstep : outputThreadStep p =
              { p with outputQueue := { p.outputQueue with queue := rest }, output := .printing line } := by
            simp only [outputThreadStep, ho, ThreadSafeQueue.pop, hq]
          rw [hstep]
          simp only [linesLeft, ho, heldLine, List.length_nil, List.length_singleton]
          omega
  | printing line =>
      have hstep : outputThreadStep p = { p with printed := p.printed ++ [line], output := .popping } := by
        simp only [outputThreadStep, ho]
      rw [hstep]
      simp only [linesLeft, ho, heldLine, List.length_nil, List.length_singleton, List.length_append]
      omega
  | returned => simp [ho, (hc.output ho).2, heldLine, hp] at hl

theorem effect_linesLeft {l : ℕ} (hc : ClosedInOrder p) (hl : l ≤ (passedOn p).length)
    (hp : ¬ l ≤ p.printed.length) (h : Effect v p t q) :
    linesLeft l q ≤ linesLeft l p ∧ (t = some .output → linesLeft l q < linesLeft l p) := by
  cases h with
  | signal => exact ⟨le_rfl, fun ht => by cases ht⟩
  | input answer he =>
      refine ⟨le_of_eq ?_, fun ht => by cases ht⟩
      generalize inputThreadStep answer p = q at he
      cases he <;> rfl
  | processing he =>
      refine ⟨le_of_eq ?_, fun ht => by cases ht⟩
      generalize processingThreadStep v p = q at he
      cases he <;> rfl
  | output he =>
      have hlt := output_prints hc hl hp
      exact ⟨hlt.le, fun _ => hlt⟩

theorem leadsTo_printed (hfair : FairMoves moves) (l : ℕ) :
    LeadsTo (trace v moves) (fun p => l ≤ (passedOn p).length) (fun p => Threw p ∨ l ≤ p.printed.length) := by
  have hlowers : Lowers (trace v moves) (fun k => actor (moves k)) .output
      (fun p => l ≤ (passedOn p).length) (fun p => Threw p ∨ l ≤ p.printed.length) (linesLeft l) := by
    intro k hl hq
    rw [not_or] at hq
    have heffect := processStep_effect (v := v) hq.1 (moves k)
    rw [trace_succ]
    exact Or.inr ⟨hl.trans (effect_passedOn heffect).length_le,
      effect_linesLeft (closedInOrder_after (engineLines v) _) hl hq.2 heffect⟩
  exact hlowers.leadsTo (hfair .output)

theorem trace_pushed (v : Nat → VisitOrder) (moves : ℕ → Move) {n m : ℕ} (h : n ≤ m) :
    (trace v moves n).pushed <+: (trace v moves m).pushed := by
  induction m, h using Nat.le_induction with
  | base => exact List.prefix_rfl
  | succ m _ ih =>
      apply ih.trans
      rw [trace_succ]
      by_cases ht : Threw (trace v moves m)
      · rw [processStep_threw ht]
      · exact effect_pushed (processStep_effect ht (moves m))

theorem passedOn_of_processed (hf : Follows (engineLines v) p f) {cmds : List Command} (hcmds : cmds <+: p.pushed)
    (h : Processed cmds.length p) : sequentialOutput v cmds <+: passedOn p := by
  have hbatch : f.batch = [] := by
    rw [← hf.batch]
    cases hp : p.processing with
    | pushing outputs =>
        have hrounds := h.2
        rw [hp] at hrounds
        cases hrounds
    | popping | closing | returned => rfl
  have hhandled : cmds <+: f.handled := by
    rw [hf.pushed] at hcmds
    apply List.prefix_of_prefix_length_le hcmds (List.prefix_append _ _)
    rw [← taken_eq hf]
    exact h.1
  have hpassed : passedOn p = output (engineLines v) engineStart f.handled := by
    rw [← f.conserved, hbatch, List.append_nil, ← hf.passing, ← hf.printed]
    rfl
  obtain ⟨rest, hrest⟩ := hhandled
  rw [hpassed, ← hrest, output_append, sequentialOutput, ← output_mapOutput]
  exact List.prefix_append _ _

/-- Every command that has been pushed gets its answer: as long as all threads go on, in
whatever order, what the engine says to the commands pushed so far is printed in the end,
unless an exception ends the process. -/
theorem eventually_printed (v : Nat → VisitOrder) (moves : ℕ → Move) (hfair : FairMoves moves) (n : ℕ) :
    ∃ m, n ≤ m ∧ (Threw (trace v moves m) ∨
      sequentialOutput v (trace v moves n).pushed <+: (trace v moves m).printed) := by
  obtain ⟨m, hm, hprocessed⟩ := leadsTo_processed hfair (trace v moves n).pushed.length n le_rfl
  rcases hprocessed with hthrew | hprocessed
  · exact ⟨m, hm, Or.inl hthrew⟩
  · obtain ⟨f, hf⟩ := follows_after (engineLines v) ((List.range m).map moves)
    have hpassed := passedOn_of_processed hf (trace_pushed v moves hm) hprocessed
    obtain ⟨k, hk, hprinted⟩ := leadsTo_printed hfair _ m hpassed.length_le
    refine ⟨k, hm.trans hk, hprinted.imp_right fun hlen => ?_⟩
    -- both begin the output of all commands pushed by then
    have hall : (trace v moves k).printed <+: output (engineLines v) engineStart (trace v moves k).pushed :=
      printedWith_begins (engineLines v) ((List.range k).map moves)
    obtain ⟨rest, hrest⟩ := trace_pushed v moves (hm.trans hk)
    apply List.prefix_of_prefix_length_le _ hall hlen
    rw [← hrest, output_append, sequentialOutput, ← output_mapOutput]
    exact List.prefix_append _ _

end Printed

section ShuttingDown

variable {v : Nat → VisitOrder} {moves : ℕ → Move} {p q : Process} {t : Option Thread}

/-- How far the input thread is from its end once a shutdown has been requested. -/
def inputLeft : InputThread → ℕ ×ₗ ℕ
  | .opening => toLex (5, 0)
  | .binding attempts => toLex (4, 5 - attempts)
  | .receiving => toLex (3, 0)
  | .reading lines => toLex (2, lines.length)
  | .polling => toLex (1, 0)
  | .givingUp => toLex (1, 0)
  | .closing => toLex (0, 1)
  | .returned => toLex (0, 0)
  | .threw => toLex (0, 0)

theorem input_closes (answer : Answer) (hs : p.shutdownRequested = true) (ht : ¬ Threw p)
    (hr : p.input ≠ .returned) : (inputThreadStep answer p).shutdownRequested = true ∧
      inputLeft (inputThreadStep answer p).input < inputLeft p.input := by
  have hstage {a b c d : ℕ} (h : a < c) : toLex (a, b) < toLex (c, d) := Prod.Lex.left _ _ h
  have hround {a b d : ℕ} (h : b < d) : toLex (a, b) < toLex (a, d) := Prod.Lex.right _ h
  cases hp : p.input with
  | opening =>
      cases answer <;> simp only [inputThreadStep, hp, inputLeft]
      all_goals exact ⟨hs, hstage (by omega)⟩
  | binding attempts =>
      simp only [inputThreadStep, hp]
      split_ifs with ha
      · cases answer
        · exact ⟨hs, hround (by omega)⟩
        · exact ⟨hs, hstage (by omega)⟩
        · exact ⟨hs, hstage (by omega)⟩
      · exact ⟨hs, hstage (by omega)⟩
  | givingUp =>
      simp only [inputThreadStep, hp, inputLeft]
      exact ⟨trivial, hstage (by omega)⟩
  | polling =>
      simp only [inputThreadStep, hp, hs, if_true, inputLeft]
      exact ⟨trivial, hstage (by omega)⟩
  | receiving =>
      cases answer <;> simp only [inputThreadStep, hp, inputLeft]
      all_goals exact ⟨hs, hstage (by omega)⟩
  | reading lines =>
      cases lines with
      | nil =>
          simp only [inputThreadStep, hp, inputLeft]
          exact ⟨hs, hstage (by omega)⟩
      | cons line lines =>
          simp only [inputThreadStep, hp, inputLeft]
          cases parseLineToCommand line with
          | error e => exact ⟨hs, hstage (by omega)⟩
          | ok cmd =>
              dsimp only
              split_ifs
              · exact ⟨hs, hround (Nat.lt_succ_self _)⟩
              · exact ⟨hs, hround (Nat.lt_succ_self _)⟩
  | closing =>
      simp only [inputThreadStep, hp, inputLeft]
      exact ⟨hs, hround (by omega)⟩
  | returned => exact absurd hp hr
  | threw => exact absurd hp ht

theorem effect_inputLeft (hs : p.shutdownRequested = true) (ht : ¬ Threw p) (hr : p.input ≠ .returned)
    (h : Effect v p t q) : q.shutdownRequested = true ∧ inputLeft q.input ≤ inputLeft p.input ∧
      (t = some .input → inputLeft q.input < inputLeft p.input) := by
  cases h with
  | signal => exact ⟨rfl, le_rfl, fun ha => by cases ha⟩
  | input answer he =>
      obtain ⟨hrequested, hlt⟩ := input_closes answer hs ht hr
      exact ⟨hrequested, hlt.le, fun _ => hlt⟩
  | processing he =>
      generalize processingThreadStep v p = q at he
      cases he <;> exact ⟨hs, le_rfl, fun ha => by cases ha⟩
  | output he =>
      generalize outputThreadStep p = q at he
      cases he <;> exact ⟨hs, le_rfl, fun ha => by cases ha⟩

theorem leadsTo_inputReturned (hfair : FairMoves moves) :
    LeadsTo (trace v moves) (fun p => p.shutdownRequested = true)
      (fun p => Threw p ∨ p.input = .returned) := by
  have hlowers : Lowers (trace v moves) (fun k => actor (moves k)) .input (fun p => p.shutdownRequested = true)
      (fun p => Threw p ∨ p.input = .returned) (fun p => inputLeft p.input) := by
    intro k hs hq
    rw [not_or] at hq
    rw [trace_succ]
    exact Or.inr (effect_inputLeft hs hq.1 hq.2 (processStep_effect hq.1 (moves k)))
  exact hlowers.leadsTo (hfair .input)

/-- How far the processing thread is from its end once its queue has been shut down. -/
def processingLeft (p : Process) : ℕ ×ₗ ℕ :=
  toLex (p.inputQueue.queue.length,
    match p.processing with
    | .pushing outputs => outputs.length + 3
    | .popping => 2
    | .closing => 1
    | .returned => 0)

theorem effect_processingLeft (hi : p.input = .returned) (hs : p.inputQueue.shutdown = true)
    (hr : p.processing ≠ .returned) (h : Effect v p t q) :
    q.input = .returned ∧ processingLeft q ≤ processingLeft p ∧
      (t = some .processing → processingLeft q < processingLeft p) := by
  cases h with
  | signal => exact ⟨hi, le_rfl, fun ha => by cases ha⟩
  | input answer he =>
      have hsame : inputThreadStep answer p = p := by simp only [inputThreadStep, hi]
      rw [hsame]
      exact ⟨hi, le_rfl, fun ha => by cases ha⟩
  | processing he =>
      have hlt : processingLeft (processingThreadStep v p) < processingLeft p := by
        cases hp : p.processing with
        | popping =>
            cases hq : p.inputQueue.queue with
            | nil =>
                simp only [processingThreadStep, processingThreadStepWith, hp, ThreadSafeQueue.pop, hq, hs, if_true, processingLeft]
                exact Prod.Lex.right _ (by omega)
            | cons cmd rest =>
                simp only [processingThreadStep, processingThreadStepWith, hp, ThreadSafeQueue.pop, hq, processingLeft]
                exact Prod.Lex.left _ _ (Nat.lt_succ_self _)
        | pushing outputs =>
            cases outputs with
            | nil =>
                simp only [processingThreadStep, processingThreadStepWith, hp, processingLeft]
                exact Prod.Lex.right _ (by simp)
            | cons line outputs =>
                simp only [processingThreadStep, processingThreadStepWith, hp, processingLeft]
                exact Prod.Lex.right _ (by simp)
        | closing =>
            simp only [processingThreadStep, processingThreadStepWith, hp, processingLeft]
            exact Prod.Lex.right _ (by omega)
        | returned => exact absurd hp hr
      refine ⟨?_, hlt.le, fun _ => hlt⟩
      generalize processingThreadStep v p = q at he
      cases he <;> exact hi
  | output he =>
      generalize outputThreadStep p = q at he
      cases he <;> exact ⟨hi, le_rfl, fun ha => by cases ha⟩

theorem leadsTo_processingReturned (hfair : FairMoves moves) :
    LeadsTo (trace v moves) (fun p => p.input = .returned)
      (fun p => p.input = .returned ∧ p.processing = .returned) := by
  have hlowers : Lowers (trace v moves) (fun k => actor (moves k)) .processing (fun p => p.input = .returned)
      (fun p => p.input = .returned ∧ p.processing = .returned) processingLeft := by
    intro k hi hq
    have ht : ¬ Threw (trace v moves k) := by rw [Threw, hi]; exact fun h => by cases h
    rw [trace_succ]
    exact Or.inr (effect_processingLeft hi ((shutOnReturn_trace v moves k).input hi) (fun hp => hq ⟨hi, hp⟩)
      (processStep_effect ht (moves k)))
  exact hlowers.leadsTo (hfair .processing)

def outputLeft (p : Process) : ℕ :=
  2 * p.outputQueue.queue.length +
    match p.output with
    | .printing _ => 2
    | .popping => 1
    | .returned => 0

theorem effect_outputLeft (hi : p.input = .returned) (hp : p.processing = .returned)
    (hs : p.outputQueue.shutdown = true) (hr : p.output ≠ .returned) (h : Effect v p t q) :
    (q.input = .returned ∧ q.processing = .returned) ∧ outputLeft q ≤ outputLeft p ∧
      (t = some .output → outputLeft q < outputLeft p) := by
  cases h with
  | signal => exact ⟨⟨hi, hp⟩, le_rfl, fun ha => by cases ha⟩
  | input answer he =>
      have hsame : inputThreadStep answer p = p := by simp only [inputThreadStep, hi]
      rw [hsame]
      exact ⟨⟨hi, hp⟩, le_rfl, fun ha => by cases ha⟩
  | processing he =>
      have hsame : processingThreadStep v p = p := by simp only [processingThreadStep, processingThreadStepWith, hp]
      rw [hsame]
      exact ⟨⟨hi, hp⟩, le_rfl, fun ha => by cases ha⟩
  | output he =>
      have hlt : outputLeft (outputThreadStep p) < outputLeft p := by
        cases ho : p.output with
        | popping =>
            cases hq : p.outputQueue.queue with
            | nil => simp [outputThreadStep, ho, ThreadSafeQueue.pop, hq, hs, outputLeft]
            | cons line rest =>
                simp only [outputThreadStep, ho, ThreadSafeQueue.pop, hq, outputLeft, List.length_cons]
                omega
        | printing line => simp [outputThreadStep, ho, outputLeft]
        | returned => exact absurd ho hr
      refine ⟨?_, hlt.le, fun _ => hlt⟩
      generalize outputThreadStep p = q at he
      cases he <;> exact ⟨hi, hp⟩

theorem leadsTo_returned (hfair : FairMoves moves) :
    LeadsTo (trace v moves) (fun p => p.input = .returned ∧ p.processing = .returned) Returned := by
  have hlowers : Lowers (trace v moves) (fun k => actor (moves k)) .output
      (fun p => p.input = .returned ∧ p.processing = .returned) Returned outputLeft := by
    rintro k ⟨hi, hp⟩ hq
    have ht : ¬ Threw (trace v moves k) := by rw [Threw, hi]; exact fun h => by cases h
    rw [trace_succ]
    exact Or.inr (effect_outputLeft hi hp ((shutOnReturn_trace v moves k).processing hp)
      (fun ho => hq ⟨hi, hp, ho⟩) (processStep_effect ht (moves k)))
  exact hlowers.leadsTo (hfair .output)

/-- A requested shutdown comes: as long as all threads go on, each of them returns in the end,
unless an exception ends the process. -/
theorem eventually_returned (v : Nat → VisitOrder) (moves : ℕ → Move) (hfair : FairMoves moves) {n : ℕ}
    (hs : (trace v moves n).shutdownRequested = true) :
    ∃ m, n ≤ m ∧ (Threw (trace v moves m) ∨ Returned (trace v moves m)) := by
  obtain ⟨i, hi, hinput⟩ := leadsTo_inputReturned hfair n hs
  rcases hinput with hthrew | hinput
  · exact ⟨i, hi, Or.inl hthrew⟩
  · obtain ⟨j, hj, hprocessing⟩ := leadsTo_processingReturned hfair i hinput
    obtain ⟨k, hk, hreturned⟩ := leadsTo_returned hfair j hprocessing
    exact ⟨k, hi.trans (hj.trans hk), Or.inr hreturned⟩

theorem eventually_returned_order :
    (trace (fun _ => default) turns 31).shutdownRequested = true ∧
      ∃ m, 31 ≤ m ∧ (Threw (trace (fun _ => default) turns m) ∨ Returned (trace (fun _ => default) turns m)) :=
  ⟨by decide +kernel, eventually_returned _ turns turns_fair (by decide +kernel)⟩

end ShuttingDown

end Orderbook.Liveness

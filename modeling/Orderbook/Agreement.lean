import Orderbook.Library.Pipeline
import Orderbook.Threads

namespace Orderbook.Agreement

open Domain Engine Threads CommandParser Library.Runs Library.Pipeline

variable {m : Machine (Nat × MatchingEngine) Command Text} {p : Process}

inductive InputEffect (p : Process) : Process → Prop
  | moves (i : InputThread) (requested : Bool) (h : p.input = .returned → i = .returned) :
      InputEffect p { p with input := i, shutdownRequested := requested }
  | pushes (i : InputThread) (cmd : Command) (h : p.input ≠ .returned) :
      InputEffect p
        { p with input := i, inputQueue := p.inputQueue.push cmd, pushed := p.pushed ++ [cmd] }
  | closes : InputEffect p { p with inputQueue := p.inputQueue.shutDown, input := .returned }

theorem inputThreadStep_effect (answer : Answer) (p : Process) :
    InputEffect p (inputThreadStep answer p) := by
  have hmoves (i : InputThread) (hi : p.input ≠ .returned) : InputEffect p { p with input := i } :=
    .moves i p.shutdownRequested fun h => absurd h hi
  rw [inputThreadStep.eq_def]
  cases hp : p.input with
  | opening => cases answer <;> exact hmoves _ (by simp [hp])
  | binding attempts =>
      dsimp only
      split_ifs
      · cases answer <;> exact hmoves _ (by simp [hp])
      · exact hmoves _ (by simp [hp])
  | givingUp => exact .moves _ true fun h => absurd h (by simp [hp])
  | polling => exact hmoves _ (by simp [hp])
  | receiving => cases answer <;> exact hmoves _ (by simp [hp])
  | reading lines =>
      cases lines with
      | nil => exact hmoves _ (by simp [hp])
      | cons line lines =>
          dsimp only
          cases parseLineToCommand line with
          | error e => exact hmoves _ (by simp [hp])
          | ok cmd =>
              dsimp only
              split_ifs
              · exact hmoves _ (by simp [hp])
              · exact .pushes _ cmd (by simp [hp])
  | closing => exact .closes
  | returned => exact .moves p.input p.shutdownRequested id
  | threw => exact .moves p.input p.shutdownRequested id

inductive ProcessingEffect (m : Machine (Nat × MatchingEngine) Command Text) (p : Process) : Process → Prop
  | stays : ProcessingEffect m p p
  | takes (cmd : Command) (rest : List Command) (hp : p.processing = .popping)
      (hq : p.inputQueue.queue = cmd :: rest) :
      ProcessingEffect m p
        { p with
          inputQueue := { p.inputQueue with queue := rest }
          engine := (m p.engine cmd).1
          processing := .pushing (m p.engine cmd).2 }
  | finishes (hp : p.processing = .popping) (hq : p.inputQueue.queue = [])
      (hs : p.inputQueue.shutdown = true) : ProcessingEffect m p { p with processing := .closing }
  | pushes (line : Text) (outputs : List Text) (hp : p.processing = .pushing (line :: outputs)) :
      ProcessingEffect m p
        { p with outputQueue := p.outputQueue.push line, processing := .pushing outputs }
  | resumes (hp : p.processing = .pushing []) : ProcessingEffect m p { p with processing := .popping }
  | closes (hp : p.processing = .closing) :
      ProcessingEffect m p { p with outputQueue := p.outputQueue.shutDown, processing := .returned }

theorem processingThreadStep_effect (m : Machine (Nat × MatchingEngine) Command Text) (p : Process) :
    ProcessingEffect m p (processingThreadStepWith m p) := by
  rw [processingThreadStepWith]
  cases hp : p.processing with
  | popping =>
      dsimp only
      cases hq : p.inputQueue.queue with
      | nil =>
          rw [ThreadSafeQueue.pop, hq]
          dsimp only
          split_ifs with hs
          · exact .finishes hp hq hs
          · exact .stays
      | cons cmd rest =>
          rw [ThreadSafeQueue.pop, hq]
          exact .takes cmd rest hp hq
  | pushing outputs =>
      cases outputs with
      | nil => exact .resumes hp
      | cons line outputs => exact .pushes line outputs hp
  | closing => exact .closes hp
  | returned => exact .stays

inductive OutputEffect (p : Process) : Process → Prop
  | stays : OutputEffect p p
  | takes (line : Text) (rest : List Text) (hp : p.output = .popping)
      (hq : p.outputQueue.queue = line :: rest) :
      OutputEffect p
        { p with outputQueue := { p.outputQueue with queue := rest }, output := .printing line }
  | finishes (hp : p.output = .popping) (hq : p.outputQueue.queue = [])
      (hs : p.outputQueue.shutdown = true) : OutputEffect p { p with output := .returned }
  | prints (line : Text) (hp : p.output = .printing line) :
      OutputEffect p { p with printed := p.printed ++ [line], output := .popping }

theorem outputThreadStep_effect (p : Process) : OutputEffect p (outputThreadStep p) := by
  rw [outputThreadStep]
  cases hp : p.output with
  | popping =>
      dsimp only
      cases hq : p.outputQueue.queue with
      | nil =>
          rw [ThreadSafeQueue.pop, hq]
          dsimp only
          split_ifs with hs
          · exact .finishes hp hq hs
          · exact .stays
      | cons line rest =>
          rw [ThreadSafeQueue.pop, hq]
          exact .takes line rest hp hq
  | printing line => exact .prints line hp
  | returned => exact .stays

/-- What one of the three threads preserves, and a signal does, every run preserves. -/
theorem processAfter_preserves (m : Machine (Nat × MatchingEngine) Command Text) {P : Process → Prop}
    (hstart : P {}) (hsignal : ∀ p, P p → P (handleSigterm p)) (hinput : ∀ p q, P p → InputEffect p q → P q)
    (hprocessing : ∀ p q, P p → ProcessingEffect m p q → P q)
    (houtput : ∀ p q, P p → OutputEffect p q → P q) (schedule : List Move) :
    P (processAfterWith m schedule) := by
  refine List.foldlRecOn schedule (processStepWith m) hstart fun p h move _ => ?_
  rw [processStepWith.eq_def]
  split
  · exact h
  · cases move with
    | signal => exact hsignal p h
    | input answer => exact hinput p _ h (inputThreadStep_effect answer p)
    | processing => exact hprocessing p _ h (processingThreadStep_effect m p)
    | output => exact houtput p _ h (outputThreadStep_effect p)

section Conservation

def heldLine : OutputThread → List Text
  | .printing line => [line]
  | _ => []

def unpushed : ProcessingThread → List Text
  | .pushing outputs => outputs
  | _ => []

/-- The process does what the flow `f` does: each thread and each queue holds its part. -/
structure Follows (m : Machine (Nat × MatchingEngine) Command Text) (p : Process) (f : Flow m engineStart) :
    Prop where
  pushed : p.pushed = f.sent
  waiting : p.inputQueue.queue = f.waiting
  engine : p.engine = f.state
  batch : unpushed p.processing = f.batch
  passing : heldLine p.output ++ p.outputQueue.queue = f.passing
  printed : p.printed = f.delivered

variable {f : Flow m engineStart} {q : Process}

theorem Follows.batch_of (h : Follows m p f) {t : ProcessingThread} (hp : p.processing = t) :
    f.batch = unpushed t := by
  rw [← h.batch, hp]

theorem Follows.passing_of (h : Follows m p f) {t : OutputThread} (hp : p.output = t) :
    f.passing = heldLine t ++ p.outputQueue.queue := by
  rw [← h.passing, hp]

theorem Follows.input (h : Follows m p f) (hq : InputEffect p q) : ∃ f', Follows m q f' := by
  cases hq with
  | moves i requested hi => exact ⟨f, h.pushed, h.waiting, h.engine, h.batch, h.passing, h.printed⟩
  | pushes i cmd hi =>
      refine ⟨f.send cmd, ?_, ?_, h.engine, h.batch, h.passing, h.printed⟩
      · rw [Flow.sent_send, ← h.pushed]
      · exact congrArg (· ++ [cmd]) h.waiting
  | closes => exact ⟨f, h.pushed, h.waiting, h.engine, h.batch, h.passing, h.printed⟩

theorem Follows.processing (h : Follows m p f) (hq : ProcessingEffect m p q) :
    ∃ f', Follows m q f' := by
  cases hq with
  | stays => exact ⟨f, h⟩
  | takes cmd rest hp hq =>
      have hb : f.batch = [] := h.batch_of hp
      refine ⟨f.handle cmd rest hb, ?_, rfl, ?_, ?_, h.passing, h.printed⟩
      · rw [Flow.sent_handle (h.waiting.symm.trans hq), ← h.pushed]
      · rw [Flow.state_handle, ← h.engine]
      · exact congrArg (fun s => (m s cmd).2) h.engine
  | finishes hp hq hs =>
      have hb : f.batch = [] := h.batch_of hp
      exact ⟨f, h.pushed, h.waiting, h.engine, hb.symm, h.passing, h.printed⟩
  | pushes line outputs hp =>
      have hb : f.batch = line :: outputs := h.batch_of hp
      refine ⟨f.passOn line outputs hb, h.pushed, h.waiting, h.engine, rfl, ?_, h.printed⟩
      rw [ThreadSafeQueue.push, ← List.append_assoc, h.passing]
      rfl
  | resumes hp =>
      have hb : f.batch = [] := h.batch_of hp
      exact ⟨f, h.pushed, h.waiting, h.engine, hb.symm, h.passing, h.printed⟩
  | closes hp =>
      have hb : f.batch = [] := h.batch_of hp
      exact ⟨f, h.pushed, h.waiting, h.engine, hb.symm, h.passing, h.printed⟩

theorem Follows.output (h : Follows m p f) (hq : OutputEffect p q) : ∃ f', Follows m q f' := by
  cases hq with
  | stays => exact ⟨f, h⟩
  | takes line rest hp hq =>
      have hpass := h.passing_of hp
      rw [hq] at hpass
      exact ⟨f, h.pushed, h.waiting, h.engine, h.batch, hpass.symm, h.printed⟩
  | finishes hp hq hs =>
      exact ⟨f, h.pushed, h.waiting, h.engine, h.batch, (h.passing_of hp).symm, h.printed⟩
  | prints line hp =>
      have hpass : f.passing = line :: p.outputQueue.queue := h.passing_of hp
      refine ⟨f.deliver line _ hpass, h.pushed, h.waiting, h.engine, h.batch, rfl, ?_⟩
      exact congrArg (· ++ [line]) h.printed

theorem follows_after (m : Machine (Nat × MatchingEngine) Command Text) (schedule : List Move) :
    ∃ f, Follows m (processAfterWith m schedule) f := by
  apply processAfter_preserves m (P := fun p => ∃ f, Follows m p f)
  · exact ⟨Flow.init _ _, rfl, rfl, rfl, rfl, rfl, rfl⟩
  · rintro p ⟨f, h⟩
    exact ⟨f, h.pushed, h.waiting, h.engine, h.batch, h.passing, h.printed⟩
  · rintro p q ⟨f, h⟩ hq
    exact h.input hq
  · rintro p q ⟨f, h⟩ hq
    exact h.processing hq
  · rintro p q ⟨f, h⟩ hq
    exact h.output hq

end Conservation

section Closing

structure ClosedInOrder (p : Process) : Prop where
  input : p.inputQueue.shutdown = true → p.input = .returned
  processing : p.processing = .closing ∨ p.processing = .returned →
    p.inputQueue.shutdown = true ∧ p.inputQueue.queue = []
  outputQueue : p.outputQueue.shutdown = true → p.processing = .returned
  output : p.output = .returned → p.outputQueue.shutdown = true ∧ p.outputQueue.queue = []

variable {q : Process}

theorem ClosedInOrder.afterInput (h : ClosedInOrder p) (hq : InputEffect p q) : ClosedInOrder q := by
  cases hq with
  | moves i requested hi => exact ⟨fun hs => hi (h.input hs), h.processing, h.outputQueue, h.output⟩
  | pushes i cmd hi =>
      have hopen : ¬ p.inputQueue.shutdown = true := fun hs => hi (h.input hs)
      exact ⟨fun hs => absurd hs hopen, fun hp => absurd (h.processing hp).1 hopen, h.outputQueue, h.output⟩
  | closes =>
      exact ⟨fun _ => rfl, fun hp => ⟨rfl, (h.processing hp).2⟩, h.outputQueue, h.output⟩

theorem ClosedInOrder.afterProcessing (h : ClosedInOrder p) (hq : ProcessingEffect m p q) :
    ClosedInOrder q := by
  -- A processing thread that has not returned has not closed the output queue.
  have hopen (hp : p.processing ≠ .returned) : ¬ p.outputQueue.shutdown = true :=
    fun hs => hp (h.outputQueue hs)
  cases hq with
  | stays => exact h
  | takes cmd rest hp hq =>
      have ho := hopen (by simp [hp])
      exact ⟨h.input, fun hp => by simp at hp, fun hs => absurd hs ho, h.output⟩
  | finishes hp hq hs =>
      have ho := hopen (by simp [hp])
      exact ⟨h.input, fun _ => ⟨hs, hq⟩, fun hs => absurd hs ho, h.output⟩
  | pushes line outputs hp =>
      have ho := hopen (by simp [hp])
      exact ⟨h.input, fun hp => by simp at hp, fun hs => absurd hs ho,
        fun hr => absurd (h.output hr).1 ho⟩
  | resumes hp =>
      have ho := hopen (by simp [hp])
      exact ⟨h.input, fun hp => by simp at hp, fun hs => absurd hs ho, h.output⟩
  | closes hp =>
      exact ⟨h.input, fun _ => h.processing (Or.inl hp), fun _ => rfl,
        fun hr => ⟨rfl, (h.output hr).2⟩⟩

theorem ClosedInOrder.afterOutput (h : ClosedInOrder p) (hq : OutputEffect p q) : ClosedInOrder q := by
  cases hq with
  | stays => exact h
  | takes line rest hp hq =>
      exact ⟨h.input, h.processing, h.outputQueue, fun hr => by simp at hr⟩
  | finishes hp hq hs => exact ⟨h.input, h.processing, h.outputQueue, fun _ => ⟨hs, hq⟩⟩
  | prints line hp => exact ⟨h.input, h.processing, h.outputQueue, fun hr => by simp at hr⟩

theorem closedInOrder_after (m : Machine (Nat × MatchingEngine) Command Text) (schedule : List Move) :
    ClosedInOrder (processAfterWith m schedule) := by
  apply processAfter_preserves m
  · constructor <;> simp
  · exact fun p h => ⟨h.input, h.processing, h.outputQueue, h.output⟩
  · exact fun p q h hq => h.afterInput hq
  · exact fun p q h hq => h.afterProcessing hq
  · exact fun p q h hq => h.afterOutput hq

end Closing

def Returned (p : Process) : Prop :=
  p.input = .returned ∧ p.processing = .returned ∧ p.output = .returned

instance (p : Process) : Decidable (Returned p) := inferInstanceAs (Decidable (_ ∧ _ ∧ _))

section Printing

/-- What is printed begins the outputs of the engine to the commands that were pushed. -/
theorem printedWith_begins (m : Machine (Nat × MatchingEngine) Command Text) (schedule : List Move) :
    (processAfterWith m schedule).printed <+: output m engineStart (processAfterWith m schedule).pushed := by
  obtain ⟨f, h⟩ := follows_after m schedule
  rw [h.pushed, h.printed]
  exact f.delivered_begins

theorem printedWith_of_returned {schedule : List Move} (hr : Returned (processAfterWith m schedule)) :
    (processAfterWith m schedule).printed = output m engineStart (processAfterWith m schedule).pushed := by
  obtain ⟨f, h⟩ := follows_after m schedule
  obtain ⟨-, hp, ho⟩ := hr
  have hc := closedInOrder_after m schedule
  rw [h.pushed, h.printed]
  apply Flow.delivered_all
  · rw [← h.waiting]
    exact (hc.processing (Or.inr hp)).2
  · rw [← h.batch, hp]
    rfl
  · rw [← h.passing, ho, (hc.output ho).2]
    rfl

theorem printed_begins (v : Nat → VisitOrder) (schedule : List Move) :
    (processAfter v schedule).printed <+: sequentialOutput v (processAfter v schedule).pushed := by
  rw [sequentialOutput, ← output_mapOutput]
  exact printedWith_begins (engineLines v) schedule

theorem printed_of_returned {v : Nat → VisitOrder} {schedule : List Move}
    (hr : Returned (processAfter v schedule)) :
    (processAfter v schedule).printed = sequentialOutput v (processAfter v schedule).pushed := by
  rw [sequentialOutput, ← output_mapOutput]
  exact printedWith_of_returned hr

end Printing

theorem pipeline_agrees (v : Nat → VisitOrder) (schedule : List Move) :
    (processAfter v schedule).printed <+:
        sequentialOutput v (processAfter v schedule).pushed ∧
      (Returned (processAfter v schedule) →
        (processAfter v schedule).printed = sequentialOutput v (processAfter v schedule).pushed) :=
  ⟨printed_begins v schedule, printed_of_returned⟩

/-- An order arrives, a signal stops the process before it is processed, and its two lines
come out. -/
example :
    let order : Text := ['N', ',', '1', ',', 'A', ',', '9', ',', '5', ',', 'B', ',', '1', '\n']
    let schedule : List Move :=
      [.input .success, .input .success, .input .success, .input (.datagram order), .input .success,
        .signal, .input .success, .input .success, .input .success] ++
      List.replicate 6 .processing ++ List.replicate 5 .output
    let p := processAfter (fun _ => default) schedule
    Returned p ∧ p.printed.length = 2 := by
  decide +kernel

end Orderbook.Agreement

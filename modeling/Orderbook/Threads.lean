import Orderbook.CommandParser
import Orderbook.Engine

namespace Orderbook.Threads

open Domain Engine CommandParser Library.Runs

structure ThreadSafeQueue (α : Type) where
  queue : List α := []
  shutdown : Bool := false

/-- What a call of `pop` does when it gets the mutex: it waits on, returns false, or
returns an item. -/
inductive Popped (α : Type)
  | waits
  | closed
  | item (a : α) (q : ThreadSafeQueue α)

namespace ThreadSafeQueue

variable {α : Type}

def push (a : α) (q : ThreadSafeQueue α) : ThreadSafeQueue α :=
  { q with queue := q.queue ++ [a] }

def pop (q : ThreadSafeQueue α) : Popped α :=
  match q.queue with
  | [] => if q.shutdown then .closed else .waits
  | a :: rest => .item a { q with queue := rest }

def shutDown (q : ThreadSafeQueue α) : ThreadSafeQueue α := { q with shutdown := true }

end ThreadSafeQueue

/-- Where the input thread stands. `threw` is the state after an exception has left it. -/
inductive InputThread
  | opening
  | binding (attempts : Nat)
  | givingUp
  | polling
  | receiving
  | reading (lines : List Text)
  | closing
  | returned
  | threw
  deriving DecidableEq

inductive ProcessingThread
  | popping
  | pushing (outputs : List Text)
  | closing
  | returned
  deriving DecidableEq

inductive OutputThread
  | popping
  | printing (line : Text)
  | returned
  deriving DecidableEq

/-- The process. `pushed` and `printed` record what has gone into the input queue and
what has come out on the standard output. -/
structure Process where
  shutdownRequested : Bool := false
  inputQueue : ThreadSafeQueue Command := {}
  outputQueue : ThreadSafeQueue Text := {}
  input : InputThread := .opening
  processing : ProcessingThread := .popping
  output : OutputThread := .popping
  engine : Nat × MatchingEngine := engineStart
  pushed : List Command := []
  printed : List Text := []

inductive Answer
  | failure
  | success
  | datagram (bytes : Text)

inductive Move
  | signal
  | input (answer : Answer)
  | processing
  | output

def handleSigterm (p : Process) : Process := { p with shutdownRequested := true }

def inputThreadStep (answer : Answer) (p : Process) : Process :=
  match p.input with
  | .opening =>
      match answer with
      | .failure => { p with input := .givingUp }
      | _ => { p with input := .binding 0 }
  | .binding attempts =>
      if attempts < 5 then
        match answer with
        | .failure => { p with input := .binding (attempts + 1) }
        | _ => { p with input := .polling }
      else { p with input := .givingUp }
  | .givingUp => { p with shutdownRequested := true, input := .closing }
  | .polling => { p with input := if p.shutdownRequested then .closing else .receiving }
  | .receiving =>
      match answer with
      | .datagram bytes => { p with input := .reading (inputLines bytes) }
      | _ => { p with input := .polling }
  | .reading [] => { p with input := .polling }
  | .reading (line :: lines) =>
      match parseLineToCommand line with
      | .error _ => { p with input := .threw }
      | .ok cmd =>
          if cmd.type = .invalid then { p with input := .reading lines }
          else
            { p with
              input := .reading lines
              inputQueue := p.inputQueue.push cmd
              pushed := p.pushed ++ [cmd] }
  | .closing => { p with inputQueue := p.inputQueue.shutDown, input := .returned }
  | .returned => p
  | .threw => p

def engineLines (v : Nat → VisitOrder) : Machine (Nat × MatchingEngine) Command Text :=
  mapOutput (engineStep v) render

def processingThreadStepWith (m : Machine (Nat × MatchingEngine) Command Text) (p : Process) : Process :=
  match p.processing with
  | .popping =>
      match p.inputQueue.pop with
      | .waits => p
      | .closed => { p with processing := .closing }
      | .item cmd q =>
          { p with
            inputQueue := q
            engine := (m p.engine cmd).1
            processing := .pushing (m p.engine cmd).2 }
  | .pushing [] => { p with processing := .popping }
  | .pushing (line :: outputs) =>
      { p with outputQueue := p.outputQueue.push line, processing := .pushing outputs }
  | .closing => { p with outputQueue := p.outputQueue.shutDown, processing := .returned }
  | .returned => p

def processingThreadStep (v : Nat → VisitOrder) (p : Process) : Process :=
  processingThreadStepWith (engineLines v) p

def outputThreadStep (p : Process) : Process :=
  match p.output with
  | .popping =>
      match p.outputQueue.pop with
      | .waits => p
      | .closed => { p with output := .returned }
      | .item line q => { p with outputQueue := q, output := .printing line }
  | .printing line => { p with printed := p.printed ++ [line], output := .popping }
  | .returned => p

/-- One step of the process. A thread that is scheduled while it waits stays where it is,
and an exception that has left the input thread has ended the process. -/
def processStepWith (m : Machine (Nat × MatchingEngine) Command Text) (p : Process) (move : Move) : Process :=
  match p.input with
  | .threw => p
  | _ =>
      match move with
      | .signal => handleSigterm p
      | .input answer => inputThreadStep answer p
      | .processing => processingThreadStepWith m p
      | .output => outputThreadStep p

def processStep (v : Nat → VisitOrder) (p : Process) (move : Move) : Process :=
  processStepWith (engineLines v) p move

def processAfterWith (m : Machine (Nat × MatchingEngine) Command Text) (schedule : List Move) : Process :=
  schedule.foldl (processStepWith m) {}

def processAfter (v : Nat → VisitOrder) (schedule : List Move) : Process :=
  schedule.foldl (processStep v) {}

def sequentialOutput (v : Nat → VisitOrder) (cmds : List Command) : List Text :=
  (output (engineStep v) engineStart cmds).map render

section Steps

variable {v : Nat → VisitOrder} {p : Process}

theorem processStep_threw (h : p.input = .threw) (move : Move) : processStep v p move = p := by
  rw [processStep, processStepWith.eq_def, h]

theorem processStep_of_ne (h : p.input ≠ .threw) (move : Move) :
    processStep v p move =
      match move with
      | .signal => handleSigterm p
      | .input answer => inputThreadStep answer p
      | .processing => processingThreadStep v p
      | .output => outputThreadStep p := by
  rw [processStep, processStepWith.eq_def]
  cases hp : p.input with
  | threw => exact absurd hp h
  | opening | binding | givingUp | polling | receiving | reading | closing | returned => rfl

theorem processAfter_concat (v : Nat → VisitOrder) (schedule : List Move) (move : Move) :
    processAfter v (schedule ++ [move]) = processStep v (processAfter v schedule) move :=
  List.foldl_concat (processStep v) {} move schedule

end Steps

end Orderbook.Threads

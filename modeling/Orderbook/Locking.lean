import Orderbook.QueueMonitor

namespace Orderbook.Locking

open Domain Engine CommandParser Threads QueueMonitor Library.Monitor

inductive Thread
  | input
  | processing
  | output
  deriving DecidableEq

abbrev LockedQueue (α : Type) := State Thread (ThreadSafeQueue α) (QueueCall α) (QueueResult α)

/-- The process with its queues behind their mutexes: the calls of the threads begin, wait,
act and return in steps of their own. -/
structure LockedProcess where
  shutdownRequested : Bool := false
  inputQueue : LockedQueue Command := start {}
  outputQueue : LockedQueue Text := start {}
  input : InputThread := .opening
  processing : ProcessingThread := .popping
  output : OutputThread := .popping
  engine : Nat × MatchingEngine := engineStart
  pushed : List Command := []
  printed : List Text := []

section Calls

def inputCall : InputThread → Option (QueueCall Command)
  | .reading (line :: _) =>
      match parseLineToCommand line with
      | .error _ => none
      | .ok cmd => if cmd.type = .invalid then none else some (.push cmd)
  | .closing => some .shutdown
  | _ => none

def inputResumes : InputThread → InputThread
  | .reading (_ :: lines) => .reading lines
  | .closing => .returned
  | i => i

def processingCall : ProcessingThread → Option (QueueCall Text)
  | .pushing (line :: _) => some (.push line)
  | .closing => some .shutdown
  | _ => none

def processingResumes : ProcessingThread → ProcessingThread
  | .pushing (_ :: outputs) => .pushing outputs
  | .closing => .returned
  | t => t

/-- How the loop of the processing thread goes on after `pop`. -/
def processingPopped (v : Nat → VisitOrder) (engine : Nat × MatchingEngine) :
    QueueResult Command → (Nat × MatchingEngine) × ProcessingThread
  | .item cmd => ((engineLines v engine cmd).1, .pushing (engineLines v engine cmd).2)
  | _ => (engine, .closing)

def outputPopped : QueueResult Text → OutputThread
  | .item line => .printing line
  | _ => .returned

end Calls

namespace LockedProcess

variable (v : Nat → VisitOrder) (s : LockedProcess)

def callsInput : Thread → Option (QueueCall Command)
  | .input => inputCall s.input
  | .processing => if s.processing = .popping then some .pop else none
  | .output => none

def callsOutput : Thread → Option (QueueCall Text)
  | .input => none
  | .processing => processingCall s.processing
  | .output => if s.output = .popping then some .pop else none

def resumesInput (r : QueueResult Command) : Thread → LockedProcess
  | .input => { s with input := inputResumes s.input }
  | .processing =>
      { s with
        engine := (processingPopped v s.engine r).1
        processing := (processingPopped v s.engine r).2 }
  | .output => s

def resumesOutput (r : QueueResult Text) : Thread → LockedProcess
  | .input => s
  | .processing => { s with processing := processingResumes s.processing }
  | .output => { s with output := outputPopped r }

/-- The process as a thread sees it that is in no call. -/
def unlocked : Process where
  shutdownRequested := s.shutdownRequested
  inputQueue := s.inputQueue.shared
  outputQueue := s.outputQueue.shared
  input := s.input
  processing := s.processing
  output := s.output
  engine := s.engine
  pushed := s.pushed
  printed := s.printed

end LockedProcess

/-- One step of one thread, or a signal. An exception that has left the input thread has
ended the process. -/
inductive LockedStep (v : Nat → VisitOrder) (s : LockedProcess) : LockedProcess → Prop
  | signal : LockedStep v s { s with shutdownRequested := true }
  | input (answer : Answer) (hc : s.callsInput .input = none) :
      LockedStep v s
        { s with
          input := (inputThreadStep answer s.unlocked).input
          shutdownRequested := (inputThreadStep answer s.unlocked).shutdownRequested }
  | resumes (hp : s.processing = .pushing []) : LockedStep v s { s with processing := .popping }
  | prints (line : Text) (ho : s.output = .printing line) :
      LockedStep v s { s with printed := s.printed ++ [line], output := .popping }
  | callsInput (t) (c) (q) (hc : s.callsInput t = some c)
      (hq : Step queueCalls s.inputQueue (some (.call t c)) q) : LockedStep v s { s with inputQueue := q }
  | inputQueue (q) (hq : Step queueCalls s.inputQueue none q) : LockedStep v s { s with inputQueue := q }
  | actsOnInput (t) (c) (r) (q) (hq : Step queueCalls s.inputQueue (some (.acts t c r)) q) :
      LockedStep v s { s with inputQueue := q, pushed := s.pushed ++ pushedItems [(c, r)] }
  | returnsInput (t) (c) (r) (q) (hq : Step queueCalls s.inputQueue (some (.returns t c r)) q) :
      LockedStep v s { s.resumesInput v r t with inputQueue := q }
  | callsOutput (t) (c) (q) (hc : s.callsOutput t = some c)
      (hq : Step queueCalls s.outputQueue (some (.call t c)) q) : LockedStep v s { s with outputQueue := q }
  | outputQueue (q) (hq : Step queueCalls s.outputQueue none q) : LockedStep v s { s with outputQueue := q }
  | actsOnOutput (t) (c) (r) (q) (hq : Step queueCalls s.outputQueue (some (.acts t c r)) q) :
      LockedStep v s { s with outputQueue := q }
  | returnsOutput (t) (c) (r) (q) (hq : Step queueCalls s.outputQueue (some (.returns t c r)) q) :
      LockedStep v s { s.resumesOutput r t with outputQueue := q }

inductive Locked (v : Nat → VisitOrder) : LockedProcess → Prop
  | start : Locked v {}
  | step {s s'} (h : Locked v s) (hrun : s.input ≠ .threw) (hs : LockedStep v s s') : Locked v s'

section Coherence

variable {v : Nat → VisitOrder} {s s' : LockedProcess}

/-- A thread that is in a call stands at that call in its code, and each mutex is with the
thread inside. -/
structure Coherent (s : LockedProcess) : Prop where
  inputQueue : Exclusive queueCalls s.inputQueue
  outputQueue : Exclusive queueCalls s.outputQueue
  atInput : ∀ t c r, s.inputQueue.pending t = some (c, r) → s.callsInput t = some c
  atOutput : ∀ t c r, s.outputQueue.pending t = some (c, r) → s.callsOutput t = some c

theorem Coherent.outsideInput (h : Coherent s) {t : Thread} (hc : s.callsInput t = none) :
    s.inputQueue.pending t = none := by
  cases hp : s.inputQueue.pending t with
  | none => rfl
  | some a =>
      obtain ⟨c, r⟩ := a
      rw [h.atInput t c r hp] at hc
      cases hc

theorem Coherent.outsideOutput (h : Coherent s) {t : Thread} (hc : s.callsOutput t = none) :
    s.outputQueue.pending t = none := by
  cases hp : s.outputQueue.pending t with
  | none => rfl
  | some a =>
      obtain ⟨c, r⟩ := a
      rw [h.atOutput t c r hp] at hc
      cases hc

theorem coherent_start : Coherent {} := by
  refine ⟨exclusive_start _ _, exclusive_start _ _, ?_, ?_⟩
  · intro t c r h
    cases h
  · intro t c r h
    cases h

section Queues

variable {α : Type} {q q' : LockedQueue α} {t u : Thread} {c d : QueueCall α} {r : QueueResult α}
  {o : Option (QueueResult α)}

/-- A step of a queue keeps its threads at their calls: at a call that begins, and at the same
ones otherwise. -/
theorem step_at (calls : Thread → Option (QueueCall α)) (hx : Exclusive queueCalls q)
    (h : ∀ t c o, q.pending t = some (c, o) → calls t = some c)
    {e : Option (Event Thread (QueueCall α) (QueueResult α))} (hq : Step queueCalls q e q')
    (he : ∀ t c, e = some (.call t c) → calls t = some c) (hu : q'.pending u = some (d, o)) :
    calls u = some d := by
  have honce := step_atOnce hx hq
  cases e with
  | none =>
      rw [(atOnce_rests honce).2] at hu
      exact h u d o hu
  | some e =>
      cases e with
      | call t c =>
          rw [(atOnce_call honce).2.2] at hu
          by_cases hut : u = t
          · rw [hut, Function.update_self] at hu
            cases hu
            rw [hut]
            exact he t d rfl
          · rw [Function.update_of_ne hut] at hu
            exact h u d o hu
      | acts t c r =>
          obtain ⟨ht, -, -, hp⟩ := atOnce_acts honce
          rw [hp] at hu
          by_cases hut : u = t
          · rw [hut, Function.update_self] at hu
            cases hu
            rw [hut]
            exact h t d none ht
          · rw [Function.update_of_ne hut] at hu
            exact h u d o hu
      | returns t c r =>
          rw [(atOnce_returns honce).2.2] at hu
          by_cases hut : u = t
          · rw [hut, Function.update_self] at hu
            cases hu
          · rw [Function.update_of_ne hut] at hu
            exact h u d o hu

end Queues

theorem callsOutput_of_input {t : Thread} {c : QueueCall Command} (h : s.callsInput t = some c) :
    s.callsOutput t = none := by
  cases t with
  | input => rfl
  | processing =>
      have hp : s.processing = .popping := by
        by_contra hp
        rw [LockedProcess.callsInput, if_neg hp] at h
        cases h
      rw [LockedProcess.callsOutput, hp]
      rfl
  | output => cases h

theorem callsInput_of_output {t : Thread} {c : QueueCall Text} (h : s.callsOutput t = some c) :
    s.callsInput t = none := by
  cases hc : s.callsInput t with
  | none => rfl
  | some d =>
      rw [callsOutput_of_input hc] at h
      cases h

theorem resumesInput_callsOther (r : QueueResult Command) {t u : Thread} (hu : u ≠ t) :
    (s.resumesInput v r t).callsInput u = s.callsInput u ∧
      (s.resumesInput v r t).callsOutput u = s.callsOutput u := by
  cases t <;> cases u <;> first | exact ⟨rfl, rfl⟩ | exact absurd rfl hu

theorem resumesOutput_callsOther (r : QueueResult Text) {t u : Thread} (hu : u ≠ t) :
    (s.resumesOutput r t).callsInput u = s.callsInput u ∧
      (s.resumesOutput r t).callsOutput u = s.callsOutput u := by
  cases t <;> cases u <;> first | exact ⟨rfl, rfl⟩ | exact absurd rfl hu

theorem Coherent.goesOn (h : Coherent s) (t : Thread) (hi : s.inputQueue.pending t = none)
    (ho : s.outputQueue.pending t = none) (hqi : s'.inputQueue = s.inputQueue)
    (hqo : s'.outputQueue = s.outputQueue)
    (hother : ∀ u, u ≠ t → s'.callsInput u = s.callsInput u ∧ s'.callsOutput u = s.callsOutput u) :
    Coherent s' := by
  constructor
  · rw [hqi]
    exact h.inputQueue
  · rw [hqo]
    exact h.outputQueue
  · intro u c r hu
    rw [hqi] at hu
    have hut : u ≠ t := by
      rintro rfl
      rw [hi] at hu
      cases hu
    rw [(hother u hut).1]
    exact h.atInput u c r hu
  · intro u c r hu
    rw [hqo] at hu
    have hut : u ≠ t := by
      rintro rfl
      rw [ho] at hu
      cases hu
    rw [(hother u hut).2]
    exact h.atOutput u c r hu

theorem Coherent.onInput (h : Coherent s) {e : Option (Event Thread (QueueCall Command) (QueueResult Command))}
    {q : LockedQueue Command} (hq : Step queueCalls s.inputQueue e q)
    (he : ∀ t c, e = some (.call t c) → s.callsInput t = some c) : Coherent { s with inputQueue := q } :=
  ⟨exclusive_step h.inputQueue hq, h.outputQueue,
    fun _ _ _ hu => step_at s.callsInput h.inputQueue h.atInput hq he hu, h.atOutput⟩

theorem Coherent.onOutput (h : Coherent s) {e : Option (Event Thread (QueueCall Text) (QueueResult Text))}
    {q : LockedQueue Text} (hq : Step queueCalls s.outputQueue e q)
    (he : ∀ t c, e = some (.call t c) → s.callsOutput t = some c) : Coherent { s with outputQueue := q } :=
  ⟨h.inputQueue, exclusive_step h.outputQueue hq, h.atInput,
    fun _ _ _ hu => step_at s.callsOutput h.outputQueue h.atOutput hq he hu⟩

theorem coherent_step (h : Coherent s) (hs : LockedStep v s s') : Coherent s' := by
  cases hs with
  | signal => exact ⟨h.inputQueue, h.outputQueue, h.atInput, h.atOutput⟩
  | input answer hc =>
      refine h.goesOn .input (h.outsideInput hc) (h.outsideOutput rfl) (by rfl) (by rfl) fun u hu => ?_
      cases u <;> first | exact ⟨rfl, rfl⟩ | exact absurd rfl hu
  | resumes hp =>
      have hi : s.callsInput .processing = none := if_neg (by rw [hp]; exact fun he => by cases he)
      have ho : s.callsOutput .processing = none := by rw [LockedProcess.callsOutput, hp]; rfl
      refine h.goesOn .processing (h.outsideInput hi) (h.outsideOutput ho) (by rfl) (by rfl) fun u hu => ?_
      cases u <;> first | exact ⟨rfl, rfl⟩ | exact absurd rfl hu
  | prints line hline =>
      have ho : s.callsOutput .output = none := if_neg (by rw [hline]; exact fun he => by cases he)
      refine h.goesOn .output (h.outsideInput rfl) (h.outsideOutput ho) (by rfl) (by rfl) fun u hu => ?_
      cases u <;> first | exact ⟨rfl, rfl⟩ | exact absurd rfl hu
  | callsInput t c q hc hq =>
      apply h.onInput hq
      rintro t c ⟨⟩
      exact hc
  | inputQueue q hq => exact h.onInput hq (fun t c he => by cases he)
  | actsOnInput t c r q hq =>
      have hs := h.onInput hq (fun t c he => by cases he)
      exact ⟨hs.inputQueue, hs.outputQueue, hs.atInput, hs.atOutput⟩
  | returnsInput t c r q hq =>
      obtain ⟨ht, -, hw⟩ := atOnce_returns (step_atOnce h.inputQueue hq)
      have ho := h.outsideOutput (callsOutput_of_input (h.atInput t c _ ht))
      apply (h.onInput hq (fun t c he => by cases he)).goesOn t
      · rw [hw, Function.update_self]
      · exact ho
      · rfl
      · cases t <;> rfl
      · intro u hu
        exact resumesInput_callsOther r hu
  | callsOutput t c q hc hq =>
      apply h.onOutput hq
      rintro t c ⟨⟩
      exact hc
  | outputQueue q hq => exact h.onOutput hq (fun t c he => by cases he)
  | actsOnOutput t c r q hq => exact h.onOutput hq (fun t c he => by cases he)
  | returnsOutput t c r q hq =>
      obtain ⟨ht, -, hw⟩ := atOnce_returns (step_atOnce h.outputQueue hq)
      have hi := h.outsideInput (callsInput_of_output (h.atOutput t c _ ht))
      apply (h.onOutput hq (fun t c he => by cases he)).goesOn t
      · exact hi
      · rw [hw, Function.update_self]
      · cases t <;> rfl
      · rfl
      · intro u hu
        exact resumesOutput_callsOther r hu

theorem coherent_of_locked (h : Locked v s) : Coherent s := by
  induction h with
  | start => exact coherent_start
  | step _ _ hs ih => exact coherent_step ih hs

end Coherence

section AtOnce

variable {v : Nat → VisitOrder} {p : Process}

theorem inputThreadStep_call {c : QueueCall Command} {r : QueueResult Command} {q : ThreadSafeQueue Command}
    (hc : inputCall p.input = some c) (hq : queueCalls.act c p.inputQueue = (q, r)) (answer : Answer) :
    inputThreadStep answer p =
      { p with
        inputQueue := q
        input := inputResumes p.input
        pushed := p.pushed ++ pushedItems [(c, r)] } := by
  cases hp : p.input with
  | reading lines =>
      rw [hp] at hc
      cases lines with
      | nil => cases hc
      | cons line lines =>
          simp only [inputCall] at hc
          cases hparse : parseLineToCommand line with
          | error e =>
              rw [hparse] at hc
              cases hc
          | ok cmd =>
              simp only [hparse] at hc
              by_cases hi : cmd.type = .invalid
              · rw [if_pos hi] at hc
                cases hc
              · rw [if_neg hi] at hc
                cases hc
                cases hq
                simp only [inputThreadStep, hp, hparse, if_neg hi]
                rfl
  | closing =>
      rw [hp] at hc
      cases hc
      cases hq
      simp only [inputThreadStep, hp]
      rw [show pushedItems [(QueueCall.shutdown, QueueResult.done)] = ([] : List Command) from rfl,
        List.append_nil]
      rfl
  | opening | binding | givingUp | polling | receiving | returned | threw =>
      rw [hp] at hc
      cases hc

theorem inputThreadStep_local (hc : inputCall p.input = none) (answer : Answer) (p' : Process)
    (hinput : p'.input = p.input) (hrequested : p'.shutdownRequested = p.shutdownRequested) :
    inputThreadStep answer p =
      { p with
        input := (inputThreadStep answer p').input
        shutdownRequested := (inputThreadStep answer p').shutdownRequested } := by
  obtain ⟨requested, _, _, input, _, _, _, _, _⟩ := p
  obtain ⟨requested', _, _, input', _, _, _, _, _⟩ := p'
  dsimp only at hinput hrequested hc
  subst hinput hrequested
  cases input' with
  | reading lines =>
      cases lines with
      | nil => rfl
      | cons line lines =>
          simp only [inputCall] at hc
          simp only [inputThreadStep]
          cases hparse : parseLineToCommand line with
          | error e => rfl
          | ok cmd =>
              simp only [hparse, ite_eq_left_iff, reduceCtorEq, imp_false, not_not] at hc
              simp only [if_pos hc]
  | binding attempts =>
      simp only [inputThreadStep]
      split_ifs
      · cases answer <;> rfl
      · rfl
  | closing => cases hc
  | opening => cases answer <;> rfl
  | receiving => cases answer <;> rfl
  | givingUp => rfl
  | polling => rfl
  | returned => rfl
  | threw => rfl

theorem pop_act {α : Type} {q q' : ThreadSafeQueue α} {r : QueueResult α}
    (hg : queueCalls.guard .pop q = true) (hq : queueCalls.act .pop q = (q', r)) :
    (∃ a, r = .item a ∧ q.pop = .item a q') ∨ r = .closed ∧ q' = q ∧ q.pop = .closed := by
  cases hp : q.pop with
  | waits =>
      rw [(pop_guard q).mpr hp] at hg
      cases hg
  | closed =>
      rw [pop_closed hp] at hq
      cases hq
      exact Or.inr ⟨rfl, rfl, rfl⟩
  | item a rest =>
      rw [pop_item hp] at hq
      cases hq
      exact Or.inl ⟨a, rfl, rfl⟩

theorem processingThreadStep_pop {r : QueueResult Command} {q : ThreadSafeQueue Command}
    (hp : p.processing = .popping) (hg : queueCalls.guard .pop p.inputQueue = true)
    (hq : queueCalls.act .pop p.inputQueue = (q, r)) :
    processingThreadStep v p =
      { p with
        inputQueue := q
        engine := (processingPopped v p.engine r).1
        processing := (processingPopped v p.engine r).2 } := by
  rcases pop_act hg hq with ⟨cmd, rfl, hpop⟩ | ⟨rfl, rfl, hpop⟩
  · simp only [processingThreadStep, processingThreadStepWith, hp, hpop, processingPopped]
  · simp only [processingThreadStep, processingThreadStepWith, hp, hpop, processingPopped]

theorem processingThreadStep_call {c : QueueCall Text} {r : QueueResult Text} {q : ThreadSafeQueue Text}
    (hc : processingCall p.processing = some c) (hq : queueCalls.act c p.outputQueue = (q, r)) :
    processingThreadStep v p =
      { p with outputQueue := q, processing := processingResumes p.processing } := by
  cases hp : p.processing with
  | pushing outputs =>
      rw [hp] at hc
      cases outputs with
      | nil => cases hc
      | cons line outputs =>
          cases hc
          cases hq
          simp only [processingThreadStep, processingThreadStepWith, hp, processingResumes]
  | closing =>
      rw [hp] at hc
      cases hc
      cases hq
      simp only [processingThreadStep, processingThreadStepWith, hp, processingResumes]
  | popping | returned =>
      rw [hp] at hc
      cases hc

theorem outputThreadStep_pop {r : QueueResult Text} {q : ThreadSafeQueue Text} (ho : p.output = .popping)
    (hg : queueCalls.guard .pop p.outputQueue = true) (hq : queueCalls.act .pop p.outputQueue = (q, r)) :
    outputThreadStep p = { p with outputQueue := q, output := outputPopped r } := by
  rcases pop_act hg hq with ⟨line, rfl, hpop⟩ | ⟨rfl, rfl, hpop⟩
  · simp only [outputThreadStep, ho, hpop, outputPopped]
  · simp only [outputThreadStep, ho, hpop, outputPopped]

end AtOnce

namespace LockedProcess

variable (v : Nat → VisitOrder) (s : LockedProcess)

def settledInput : InputThread :=
  match s.inputQueue.result .input with
  | some _ => inputResumes s.input
  | none => s.input

def settledProcessing : (Nat × MatchingEngine) × ProcessingThread :=
  match s.inputQueue.result .processing, s.outputQueue.result .processing with
  | some r, _ => processingPopped v s.engine r
  | none, some _ => (s.engine, processingResumes s.processing)
  | none, none => (s.engine, s.processing)

def settledOutput : OutputThread :=
  match s.outputQueue.result .output with
  | some r => outputPopped r
  | none => s.output

/-- The process in which every call that has acted has also returned. -/
def atomic : Process where
  shutdownRequested := s.shutdownRequested
  inputQueue := s.inputQueue.shared
  outputQueue := s.outputQueue.shared
  input := s.settledInput
  processing := (s.settledProcessing v).2
  output := s.settledOutput
  engine := (s.settledProcessing v).1
  pushed := s.pushed
  printed := s.printed

end LockedProcess

section Refinement

open LockedProcess

variable {v : Nat → VisitOrder} {s s' : LockedProcess}

/-- Only an action changes what the callers of a queue see. -/
theorem atomic_of_result_input {q : LockedQueue Command} (hshared : q.shared = s.inputQueue.shared)
    (hresult : q.result = s.inputQueue.result) : atomic v { s with inputQueue := q } = s.atomic v := by
  simp only [atomic, settledInput, settledProcessing, settledOutput, hshared, hresult]

theorem atomic_of_result_output {q : LockedQueue Text} (hshared : q.shared = s.outputQueue.shared)
    (hresult : q.result = s.outputQueue.result) :
    atomic v { s with outputQueue := q } = s.atomic v := by
  simp only [atomic, settledInput, settledProcessing, settledOutput, hshared, hresult]

theorem atomic_input_ne (h : s.input ≠ .threw) : (s.atomic v).input ≠ .threw := by
  change s.settledInput ≠ .threw
  rw [settledInput]
  cases s.inputQueue.result .input with
  | none => exact h
  | some r =>
      cases hi : s.input with
      | reading lines => cases lines <;> simp [inputResumes]
      | threw => exact absurd hi h
      | opening | binding | givingUp | polling | receiving | closing | returned => simp [inputResumes]

/-- A step of the process behind its mutexes is nothing, or a step of the process whose calls
act at once. -/
def Matched (v : Nat → VisitOrder) (s s' : LockedProcess) : Prop :=
  s'.atomic v = s.atomic v ∨ ∃ move, s'.atomic v = processStep v (s.atomic v) move

theorem matched_input (h : Coherent s) (hrun : s.input ≠ .threw) (answer : Answer)
    (hc : s.callsInput .input = none) :
    Matched v s
      { s with
        input := (inputThreadStep answer s.unlocked).input
        shutdownRequested := (inputThreadStep answer s.unlocked).shutdownRequested } := by
  have hresult := result_of_outside (h.outsideInput hc)
  have hsettled : s.settledInput = s.input := by rw [settledInput, hresult]
  refine Or.inr ⟨.input answer, ?_⟩
  rw [processStep_of_ne (atomic_input_ne hrun)]
  dsimp only
  rw [inputThreadStep_local (p := s.atomic v) (by rw [← hc]; exact congrArg inputCall hsettled) answer
    s.unlocked hsettled.symm rfl]
  simp only [atomic, settledInput, settledProcessing, settledOutput, hresult]

theorem matched_actsOnInput (h : Coherent s) (hrun : s.input ≠ .threw) {t : Thread} {c : QueueCall Command}
    {r : QueueResult Command} {q : LockedQueue Command}
    (hq : Step queueCalls s.inputQueue (some (.acts t c r)) q) :
    Matched v s { s with inputQueue := q, pushed := s.pushed ++ pushedItems [(c, r)] } := by
  obtain ⟨ht, hg, hact, hw⟩ := atOnce_acts (step_atOnce h.inputQueue hq)
  have hcall := h.atInput t c none ht
  have hbefore := result_of_pending ht
  have hafter := result_update hw
  cases t with
  | input =>
      have hsettled : s.settledInput = s.input := by rw [settledInput, hbefore]
      refine Or.inr ⟨.input .success, ?_⟩
      rw [processStep_of_ne (atomic_input_ne hrun)]
      dsimp only
      rw [inputThreadStep_call (p := s.atomic v) (by rw [← hcall]; exact congrArg inputCall hsettled) hact]
      simp [atomic, settledInput, settledProcessing, settledOutput, hafter, hbefore]
  | processing =>
      have hpopping : s.processing = .popping := by
        by_contra hp
        rw [callsInput, if_neg hp] at hcall
        cases hcall
      have hpop : c = .pop := by
        rw [callsInput, if_pos hpopping] at hcall
        exact (Option.some.inj hcall).symm
      have houtput := result_of_outside (h.outsideOutput (callsOutput_of_input hcall))
      have hsettled : s.settledProcessing v = (s.engine, s.processing) := by
        rw [settledProcessing, hbefore, houtput]
      subst hpop
      refine Or.inr ⟨.processing, ?_⟩
      rw [processStep_of_ne (atomic_input_ne hrun)]
      dsimp only
      rw [processingThreadStep_pop (p := s.atomic v)
        ((congrArg Prod.snd hsettled).trans hpopping) hg hact]
      simp [atomic, settledInput, settledProcessing, settledOutput, hafter, hbefore, houtput, pushedItems,
        pushedItem]
  | output => cases hcall

theorem matched_actsOnOutput (h : Coherent s) (hrun : s.input ≠ .threw) {t : Thread} {c : QueueCall Text}
    {r : QueueResult Text} {q : LockedQueue Text}
    (hq : Step queueCalls s.outputQueue (some (.acts t c r)) q) :
    Matched v s { s with outputQueue := q } := by
  obtain ⟨ht, hg, hact, hw⟩ := atOnce_acts (step_atOnce h.outputQueue hq)
  have hcall := h.atOutput t c none ht
  have hbefore := result_of_pending ht
  have hafter := result_update hw
  cases t with
  | input => cases hcall
  | processing =>
      have hinput := result_of_outside (h.outsideInput (callsInput_of_output hcall))
      have hsettled : s.settledProcessing v = (s.engine, s.processing) := by
        rw [settledProcessing, hinput, hbefore]
      refine Or.inr ⟨.processing, ?_⟩
      rw [processStep_of_ne (atomic_input_ne hrun)]
      dsimp only
      rw [processingThreadStep_call (p := s.atomic v)
        (by rw [← hcall]; exact congrArg (fun x => processingCall x.2) hsettled) hact]
      simp [atomic, settledInput, settledProcessing, settledOutput, hinput, hafter, hbefore]
  | output =>
      have hpopping : s.output = .popping := by
        by_contra hp
        rw [callsOutput, if_neg hp] at hcall
        cases hcall
      have hpop : c = .pop := by
        rw [callsOutput, if_pos hpopping] at hcall
        exact (Option.some.inj hcall).symm
      have hsettled : s.settledOutput = s.output := by rw [settledOutput, hbefore]
      subst hpop
      refine Or.inr ⟨.output, ?_⟩
      rw [processStep_of_ne (atomic_input_ne hrun)]
      dsimp only
      rw [outputThreadStep_pop (p := s.atomic v) (hsettled.trans hpopping) hg hact]
      simp [atomic, settledInput, settledProcessing, settledOutput, hafter]

theorem matched_returnsInput (h : Coherent s) {t : Thread} {c : QueueCall Command}
    {r : QueueResult Command} {q : LockedQueue Command}
    (hq : Step queueCalls s.inputQueue (some (.returns t c r)) q) :
    Matched v s { s.resumesInput v r t with inputQueue := q } := by
  obtain ⟨ht, hshared, hw⟩ := atOnce_returns (step_atOnce h.inputQueue hq)
  have hcall := h.atInput t c _ ht
  have hbefore := result_of_pending ht
  have hafter := result_update hw
  have houtput := result_of_outside (h.outsideOutput (callsOutput_of_input hcall))
  left
  cases t with
  | input =>
      simp [atomic, settledInput, settledProcessing, settledOutput, resumesInput, hafter, hbefore, hshared]
  | processing =>
      simp [atomic, settledInput, settledProcessing, settledOutput, resumesInput, hafter, hbefore, hshared, houtput]
  | output => cases hcall

theorem matched_returnsOutput (h : Coherent s) {t : Thread} {c : QueueCall Text} {r : QueueResult Text}
    {q : LockedQueue Text} (hq : Step queueCalls s.outputQueue (some (.returns t c r)) q) :
    Matched v s { s.resumesOutput r t with outputQueue := q } := by
  obtain ⟨ht, hshared, hw⟩ := atOnce_returns (step_atOnce h.outputQueue hq)
  have hcall := h.atOutput t c _ ht
  have hbefore := result_of_pending ht
  have hafter := result_update hw
  have hinput := result_of_outside (h.outsideInput (callsInput_of_output hcall))
  left
  cases t with
  | input => cases hcall
  | processing =>
      simp [atomic, settledInput, settledProcessing, settledOutput, resumesOutput, hafter, hbefore, hshared, hinput]
  | output =>
      simp [atomic, settledInput, settledProcessing, settledOutput, resumesOutput, hafter, hbefore, hshared]

theorem step_matched (h : Coherent s) (hrun : s.input ≠ .threw) (hs : LockedStep v s s') :
    Matched v s s' := by
  cases hs with
  | signal =>
      refine Or.inr ⟨.signal, ?_⟩
      rw [processStep_of_ne (atomic_input_ne hrun)]
      rfl
  | input answer hc => exact matched_input h hrun answer hc
  | resumes hp =>
      have hi : s.callsInput .processing = none := if_neg (by rw [hp]; exact fun he => by cases he)
      have ho : s.callsOutput .processing = none := by rw [callsOutput, hp]; rfl
      have hinput := result_of_outside (h.outsideInput hi)
      have houtput := result_of_outside (h.outsideOutput ho)
      refine Or.inr ⟨.processing, ?_⟩
      rw [processStep_of_ne (atomic_input_ne hrun)]
      simp [atomic, settledInput, settledProcessing, settledOutput, processingThreadStep, processingThreadStepWith, hinput, houtput, hp]
  | prints line hline =>
      have ho : s.callsOutput .output = none := if_neg (by rw [hline]; exact fun he => by cases he)
      have houtput := result_of_outside (h.outsideOutput ho)
      refine Or.inr ⟨.output, ?_⟩
      rw [processStep_of_ne (atomic_input_ne hrun)]
      simp [atomic, settledInput, settledProcessing, settledOutput, outputThreadStep, houtput, hline]
  | callsInput t c q hc hq =>
      obtain ⟨ht, hshared, hw⟩ := atOnce_call (step_atOnce h.inputQueue hq)
      left
      apply atomic_of_result_input hshared
      rw [result_update hw]
      exact (Function.update_eq_self_iff).mpr (result_of_outside ht).symm
  | inputQueue q hq =>
      obtain ⟨hshared, hw⟩ := atOnce_rests (step_atOnce h.inputQueue hq)
      left
      apply atomic_of_result_input hshared
      funext t
      rw [State.result, State.result, hw]
  | actsOnInput t c r q hq => exact matched_actsOnInput h hrun hq
  | returnsInput t c r q hq => exact matched_returnsInput h hq
  | callsOutput t c q hc hq =>
      obtain ⟨ht, hshared, hw⟩ := atOnce_call (step_atOnce h.outputQueue hq)
      left
      apply atomic_of_result_output hshared
      rw [result_update hw]
      exact (Function.update_eq_self_iff).mpr (result_of_outside ht).symm
  | outputQueue q hq =>
      obtain ⟨hshared, hw⟩ := atOnce_rests (step_atOnce h.outputQueue hq)
      left
      apply atomic_of_result_output hshared
      funext t
      rw [State.result, State.result, hw]
  | actsOnOutput t c r q hq => exact matched_actsOnOutput h hrun hq
  | returnsOutput t c r q hq => exact matched_returnsOutput h hq

theorem locked_refines (h : Locked v s) : ∃ schedule, s.atomic v = processAfter v schedule := by
  induction h with
  | start => exact ⟨[], rfl⟩
  | step hl hrun hs ih =>
      obtain ⟨schedule, hschedule⟩ := ih
      rcases step_matched (coherent_of_locked hl) hrun hs with hm | ⟨move, hm⟩
      · exact ⟨schedule, hm.trans hschedule⟩
      · refine ⟨schedule ++ [move], ?_⟩
        rw [hm, hschedule, processAfter, processAfter, List.foldl_append]
        rfl

end Refinement

section Realization

variable {v : Nat → VisitOrder} {p p' : Process}

def quiet (p : Process) : LockedProcess where
  shutdownRequested := p.shutdownRequested
  inputQueue := start p.inputQueue
  outputQueue := start p.outputQueue
  input := p.input
  processing := p.processing
  output := p.output
  engine := p.engine
  pushed := p.pushed
  printed := p.printed

theorem locked_callInput (h : Locked v (quiet p)) (hrun : p.input ≠ .threw) {t : Thread} {c : QueueCall Command}
    {r : QueueResult Command} {q : ThreadSafeQueue Command} (hc : (quiet p).callsInput t = some c)
    (hg : queueCalls.guard c p.inputQueue = true) (ha : queueCalls.act c p.inputQueue = (q, r)) :
    Locked v { ({ quiet p with pushed := p.pushed ++ pushedItems [(c, r)] } : LockedProcess).resumesInput v r t with
      inputQueue := start q } := by
  obtain ⟨q₁, q₂, q₃, q₄, q₅, hcall, henter, hpass, hact, hleave, hreturn⟩ := start_calls queueCalls t hg ha
  have h₁ := h.step hrun (.callsInput t c q₁ hc hcall)
  have h₂ := h₁.step hrun (.inputQueue q₂ henter)
  have h₃ := h₂.step hrun (.inputQueue q₃ hpass)
  have h₄ := h₃.step hrun (.actsOnInput t c r q₄ hact)
  have h₅ := h₄.step hrun (.inputQueue q₅ hleave)
  have h₆ := h₅.step hrun (.returnsInput t c r (start q) hreturn)
  cases t <;> exact h₆

theorem locked_callOutput (h : Locked v (quiet p)) (hrun : p.input ≠ .threw) {t : Thread} {c : QueueCall Text}
    {r : QueueResult Text} {q : ThreadSafeQueue Text} (hc : (quiet p).callsOutput t = some c)
    (hg : queueCalls.guard c p.outputQueue = true) (ha : queueCalls.act c p.outputQueue = (q, r)) :
    Locked v { (quiet p).resumesOutput r t with outputQueue := start q } := by
  obtain ⟨q₁, q₂, q₃, q₄, q₅, hcall, henter, hpass, hact, hleave, hreturn⟩ := start_calls queueCalls t hg ha
  have h₁ := h.step hrun (.callsOutput t c q₁ hc hcall)
  have h₂ := h₁.step hrun (.outputQueue q₂ henter)
  have h₃ := h₂.step hrun (.outputQueue q₃ hpass)
  have h₄ := h₃.step hrun (.actsOnOutput t c r q₄ hact)
  have h₅ := h₄.step hrun (.outputQueue q₅ hleave)
  have h₆ := h₅.step hrun (.returnsOutput t c r (start q) hreturn)
  cases t <;> exact h₆

theorem inputCall_guard {i : InputThread} {c : QueueCall Command} (h : inputCall i = some c)
    (q : ThreadSafeQueue Command) : queueCalls.guard c q = true := by
  cases c with
  | push cmd => rfl
  | shutdown => rfl
  | pop =>
      cases i with
      | reading lines =>
          cases lines with
          | nil => cases h
          | cons line lines =>
              simp only [inputCall] at h
              cases hparse : parseLineToCommand line with
              | error e => simp [hparse] at h
              | ok cmd => simp [hparse] at h
      | closing => cases h
      | opening | binding | givingUp | polling | receiving | returned | threw => cases h

theorem realized_input (h : Locked v (quiet p)) (hrun : p.input ≠ .threw) (answer : Answer) :
    Locked v (quiet (inputThreadStep answer p)) := by
  cases hc : inputCall p.input with
  | none =>
      rw [inputThreadStep_local hc answer p rfl rfl]
      exact h.step hrun (.input answer hc)
  | some c =>
      cases hact : queueCalls.act c p.inputQueue with
      | mk q r =>
          rw [inputThreadStep_call hc hact answer]
          exact locked_callInput (t := .input) h hrun hc (inputCall_guard hc _) hact

theorem realized_processing (h : Locked v (quiet p)) (hrun : p.input ≠ .threw) :
    Locked v (quiet (processingThreadStep v p)) := by
  cases hp : p.processing with
  | popping =>
      cases hg : queueCalls.guard .pop p.inputQueue with
      | false =>
          -- the thread stays outside, where it would have fallen asleep
          have hwaits := (pop_guard p.inputQueue).mp hg
          have hsame : processingThreadStep v p = p := by simp only [processingThreadStep, processingThreadStepWith, hp, hwaits]
          rwa [hsame]
      | true =>
          cases hact : queueCalls.act .pop p.inputQueue with
          | mk q r =>
              have hcall := locked_callInput (t := .processing) h hrun (if_pos hp) hg hact
              rw [processingThreadStep_pop hp hg hact]
              rw [show p.pushed ++ pushedItems [(QueueCall.pop, r)] = p.pushed from List.append_nil _] at hcall
              exact hcall
  | pushing outputs =>
      cases outputs with
      | nil =>
          have hstep : processingThreadStep v p = { p with processing := .popping } := by
            simp only [processingThreadStep, processingThreadStepWith, hp]
          rw [hstep]
          exact h.step hrun (.resumes hp)
      | cons line outputs =>
          have hc : processingCall p.processing = some (.push line) := by rw [hp]; rfl
          rw [processingThreadStep_call hc rfl]
          exact locked_callOutput (t := .processing) h hrun hc rfl rfl
  | closing =>
      have hc : processingCall p.processing = some .shutdown := by rw [hp]; rfl
      rw [processingThreadStep_call hc rfl]
      exact locked_callOutput (t := .processing) h hrun hc rfl rfl
  | returned =>
      have hsame : processingThreadStep v p = p := by simp only [processingThreadStep, processingThreadStepWith, hp]
      rwa [hsame]

theorem realized_output (h : Locked v (quiet p)) (hrun : p.input ≠ .threw) :
    Locked v (quiet (outputThreadStep p)) := by
  cases ho : p.output with
  | popping =>
      cases hg : queueCalls.guard .pop p.outputQueue with
      | false =>
          have hwaits := (pop_guard p.outputQueue).mp hg
          have hsame : outputThreadStep p = p := by simp only [outputThreadStep, ho, hwaits]
          rwa [hsame]
      | true =>
          cases hact : queueCalls.act .pop p.outputQueue with
          | mk q r =>
              rw [outputThreadStep_pop ho hg hact]
              exact locked_callOutput (t := .output) h hrun (if_pos ho) hg hact
  | printing line =>
      have hstep : outputThreadStep p = { p with printed := p.printed ++ [line], output := .popping } := by
        simp only [outputThreadStep, ho]
      rw [hstep]
      exact h.step hrun (.prints line ho)
  | returned =>
      have hsame : outputThreadStep p = p := by simp only [outputThreadStep, ho]
      rwa [hsame]

theorem locked_realizes (v : Nat → VisitOrder) (schedule : List Move) :
    Locked v (quiet (processAfter v schedule)) := by
  refine List.foldlRecOn schedule (processStep v) (motive := fun p => Locked v (quiet p)) .start
    fun p h move _ => ?_
  by_cases hrun : p.input = .threw
  · rwa [processStep_threw hrun]
  · rw [processStep_of_ne hrun]
    cases move with
    | signal => exact h.step hrun .signal
    | input answer => exact realized_input h hrun answer
    | processing => exact realized_processing h hrun
    | output => exact realized_output h hrun

end Realization

/-- Whatever the threads' steps inside the queues and between them, with every wakeup there may
be, the process does what the process does whose queue calls each act at once: it receives,
pushes and prints the same, and can do all of it. -/
theorem locked_iff (v : Nat → VisitOrder) (p : Process) :
    (∃ s, Locked v s ∧ s.atomic v = p) ↔ ∃ schedule, p = processAfter v schedule := by
  constructor
  · rintro ⟨s, h, rfl⟩
    exact locked_refines h
  · rintro ⟨schedule, rfl⟩
    exact ⟨_, locked_realizes v schedule, rfl⟩

end Orderbook.Locking

import Orderbook.Library.Monitor
import Orderbook.Threads

namespace Orderbook.QueueMonitor

open Threads Library.Monitor

variable {α : Type} {τ : Type*}

inductive QueueCall (α : Type)
  | push (a : α)
  | pop
  | shutdown
  deriving DecidableEq

inductive QueueResult (α : Type)
  | done
  | item (a : α)
  | closed
  deriving DecidableEq

/-- `ThreadSafeQueue` with its mutex `mutex_` and its condition variable `cv_`. -/
def queueCalls : Calls (ThreadSafeQueue α) (QueueCall α) (QueueResult α) where
  guard
    | .pop, q => !q.queue.isEmpty || q.shutdown
    | _, _ => true
  act
    | .push a, q => (q.push a, .done)
    | .pop, q =>
        match q.pop with
        | .item a q' => (q', .item a)
        | _ => (q, .closed)
    | .shutdown, q => (q.shutDown, .done)
  signal
    | .push _ => .one
    | .pop => .none
    | .shutdown => .all

section Pop

variable (q : ThreadSafeQueue α)

theorem pop_guard : queueCalls.guard .pop q = false ↔ q.pop = .waits := by
  obtain ⟨queue, shutdown⟩ := q
  cases queue with
  | nil => cases shutdown <;> simp [queueCalls, ThreadSafeQueue.pop]
  | cons a rest => simp [queueCalls, ThreadSafeQueue.pop]

variable {q}

theorem pop_item {a : α} {q' : ThreadSafeQueue α} (h : q.pop = .item a q') :
    queueCalls.act .pop q = (q', .item a) := by
  simp [queueCalls, h]

theorem pop_closed (h : q.pop = .closed) : queueCalls.act .pop q = (q, .closed) := by
  simp [queueCalls, h]

end Pop

section Serves

def pushedItem : QueueCall α × QueueResult α → Option α
  | (.push a, _) => some a
  | _ => none

def poppedItem : QueueCall α × QueueResult α → Option α
  | (_, .item a) => some a
  | _ => none

def pushedItems (as : List (QueueCall α × QueueResult α)) : List α := as.filterMap pushedItem

def poppedItems (as : List (QueueCall α × QueueResult α)) : List α := as.filterMap poppedItem

def ShutDown (as : List (QueueCall α × QueueResult α)) : Prop := ∃ r, (.shutdown, r) ∈ as

/-- What comes out of the queue is what went in, in the same order, and what has not come
out is in the queue. It is closed to a consumer only after a shutdown, and when everything
that went in has come out. -/
structure Serves (as : List (QueueCall α × QueueResult α)) (q : ThreadSafeQueue α) : Prop where
  fifo : pushedItems as = poppedItems as ++ q.queue
  shutdown : q.shutdown = true ↔ ShutDown as
  closed : ∀ before after, as = before ++ (.pop, .closed) :: after →
    ShutDown before ∧ pushedItems before = poppedItems before

theorem serves_nil : Serves ([] : List (QueueCall α × QueueResult α)) {} := by
  refine ⟨rfl, by simp [ShutDown], fun before after h => ?_⟩
  cases before <;> cases h

variable {as : List (QueueCall α × QueueResult α)} {q : ThreadSafeQueue α}

theorem pushedItems_append (bs : List (QueueCall α × QueueResult α)) :
    pushedItems (as ++ bs) = pushedItems as ++ pushedItems bs := List.filterMap_append

theorem poppedItems_append (bs : List (QueueCall α × QueueResult α)) :
    poppedItems (as ++ bs) = poppedItems as ++ poppedItems bs := List.filterMap_append

theorem shutDown_append (bs : List (QueueCall α × QueueResult α)) :
    ShutDown (as ++ bs) ↔ ShutDown as ∨ ShutDown bs := by
  simp only [ShutDown, List.mem_append, exists_or]

theorem closed_append {a : QueueCall α × QueueResult α} (h : Serves as q)
    (hlast : a = (.pop, .closed) → ShutDown as ∧ pushedItems as = poppedItems as)
    (before after : List (QueueCall α × QueueResult α))
    (hsplit : as ++ [a] = before ++ (.pop, .closed) :: after) :
    ShutDown before ∧ pushedItems before = poppedItems before := by
  rcases List.eq_nil_or_concat after with rfl | ⟨after', b, rfl⟩
  · obtain ⟨rfl, hb⟩ := List.append_inj' hsplit rfl
    exact hlast (List.singleton_inj.mp hb)
  · rw [List.concat_eq_append, ← List.cons_append, ← List.append_assoc] at hsplit
    obtain ⟨has, -⟩ := List.append_inj' hsplit rfl
    exact h.closed before after' has

theorem Serves.push (h : Serves as q) (a : α) : Serves (as ++ [(.push a, .done)]) (q.push a) := by
  constructor
  · rw [pushedItems_append, poppedItems_append, h.fifo]
    change poppedItems as ++ q.queue ++ [a] = poppedItems as ++ [] ++ (q.queue ++ [a])
    rw [List.append_nil, List.append_assoc]
  · rw [shutDown_append, ThreadSafeQueue.push, h.shutdown]
    simp [ShutDown]
  · exact closed_append h (fun ha => by cases ha)

theorem Serves.shutDown (h : Serves as q) : Serves (as ++ [(.shutdown, .done)]) q.shutDown := by
  constructor
  · rw [pushedItems_append, poppedItems_append, h.fifo]
    change poppedItems as ++ q.queue ++ [] = poppedItems as ++ [] ++ q.queue
    rw [List.append_nil, List.append_nil]
  · rw [shutDown_append]
    simp [ShutDown, ThreadSafeQueue.shutDown]
  · exact closed_append h (fun ha => by cases ha)

theorem Serves.pop (h : Serves as q) (hg : queueCalls.guard .pop q = true) :
    Serves (as ++ [(.pop, (queueCalls.act .pop q).2)]) (queueCalls.act .pop q).1 := by
  obtain ⟨queue, shutdown⟩ := q
  cases queue with
  | nil =>
      -- the guard holds without an item, so the queue has been shut down
      have hshut : shutdown = true := by simpa [queueCalls] using hg
      have hact : queueCalls.act .pop ⟨([] : List α), shutdown⟩ = (⟨[], shutdown⟩, .closed) :=
        pop_closed (by simp [ThreadSafeQueue.pop, hshut])
      rw [hact]
      have hfifo := h.fifo
      rw [List.append_nil] at hfifo
      constructor
      · rw [pushedItems_append, poppedItems_append, hfifo]
        exact (List.append_nil _).symm
      · rw [shutDown_append, ← h.shutdown]
        simp [ShutDown]
      · exact closed_append h (fun _ => ⟨h.shutdown.mp hshut, hfifo⟩)
  | cons a rest =>
      have hact : queueCalls.act .pop ⟨a :: rest, shutdown⟩ = (⟨rest, shutdown⟩, .item a) := pop_item rfl
      rw [hact]
      constructor
      · rw [pushedItems_append, poppedItems_append, h.fifo]
        change poppedItems as ++ a :: rest ++ [] = poppedItems as ++ [a] ++ rest
        rw [List.append_nil, List.append_assoc, List.singleton_append]
      · rw [shutDown_append, ← h.shutdown]
        simp [ShutDown]
      · exact closed_append h (fun ha => by cases ha)

theorem serves_of_atomic (h : Atomic queueCalls {} as q) : Serves as q := by
  induction h with
  | refl => exact serves_nil
  | tail c h hg ih =>
      cases c with
      | push a => exact ih.push a
      | pop => exact ih.pop hg
      | shutdown => exact ih.shutDown

end Serves

section Locked

variable [DecidableEq τ] {es : List (Event τ (QueueCall α) (QueueResult α))}
  {s s' : State τ (ThreadSafeQueue α) (QueueCall α) (QueueResult α)}

/-- Whatever threads use the queue and however their steps interleave, each call takes effect
once between its beginning and its end, and these effects are a use of the queue by calls
one after the other. -/
theorem queue_serves (h : Run queueCalls (start {}) es s) :
    Linearizes queueCalls {} es s ∧ Serves (actions es) s.shared :=
  have hlinear := run_linearizes h
  ⟨hlinear, serves_of_atomic hlinear.atomic⟩

theorem queue_serves_sleeper :
    ∃ (es : List (Event Bool (QueueCall Nat) (QueueResult Nat)))
      (s : State Bool (ThreadSafeQueue Nat) (QueueCall Nat) (QueueResult Nat)),
      actions es = [(.push 7, .done), (.pop, .item 7)] ∧
        Linearizes queueCalls {} es s ∧ Serves (actions es) s.shared := by
  have asleep := (Run.refl (m := queueCalls (α := Nat)) (s := start {})).tail (.call _ true .pop rfl)
    |>.tail (.enter _ true .pop rfl rfl) |>.tail (.sleep _ true .pop rfl rfl)
  have pushed := asleep.tail (.call _ false (.push 7) rfl) |>.tail (.enter _ false (.push 7) rfl rfl)
    |>.tail (.pass _ false (.push 7) rfl rfl) |>.tail (.act _ false (.push 7) rfl)
    |>.tail (.leave _ false (.push 7) .done rfl)
    |>.tail (.notifyOne _ false (.push 7) .done rfl rfl true .pop rfl)
  have popped := pushed.tail (.reenter _ true .pop rfl rfl) |>.tail (.pass _ true .pop rfl rfl)
    |>.tail (.act _ true .pop rfl)
  exact ⟨_, _, rfl, queue_serves popped⟩

def isPop : QueueCall α → Bool
  | .pop => true
  | _ => false

def passes (q : ThreadSafeQueue α) : ℕ∞ := if q.shutdown then ⊤ else q.queue.length

theorem queue_notifies : Notifies (queueCalls (α := α)) isPop passes := by
  constructor
  · intro c q hg
    cases c with
    | pop =>
        obtain ⟨hq, hs⟩ : q.queue = [] ∧ q.shutdown = false := by simpa [queueCalls] using hg
        exact ⟨rfl, by simp [passes, hq, hs]⟩
    | push a => cases hg
    | shutdown => cases hg
  · intro c hc
    cases c with
    | pop => rfl
    | push a => cases hc
    | shutdown => cases hc
  · intro c q hc hg
    cases c with
    | pop =>
        obtain ⟨queue, shutdown⟩ := q
        cases shutdown with
        | true => exact le_top
        | false =>
            cases queue with
            | nil => cases hg
            | cons a rest => simp [passes, queueCalls, ThreadSafeQueue.pop]
    | push a => cases hc
    | shutdown => cases hc
  · intro c q hc hs
    cases c with
    | pop => cases hc
    | push a => cases hs
    | shutdown => cases hs
  · intro c q hc hs
    cases c with
    | pop => cases hc
    | push a =>
        obtain ⟨queue, shutdown⟩ := q
        cases shutdown <;> simp [passes, queueCalls, ThreadSafeQueue.push]
    | shutdown => cases hs

/-- No wakeup is lost, and the queue never deadlocks: without new calls and without spurious
wakeups its threads come to rest, and the only calls left then are those of consumers for
which there is nothing and which have not been told to stop. -/
theorem queue_comes_to_rest [Fintype τ] (h : Run queueCalls (start {}) es s) :
    (∀ n s', Working queueCalls s n s' → n ≤ Fintype.card τ * (5 * Fintype.card τ + 10)) ∧
      ∀ n s', Working queueCalls s n s' → (∀ s'', ¬ Works queueCalls s' s'') → ∀ t,
        s'.phase t = .idle ∨
          s'.phase t = .asleep .pop ∧ s'.shared.queue = [] ∧ s'.shared.shutdown = false := by
  obtain ⟨hbound, hrest⟩ := comes_to_rest queue_notifies h
  refine ⟨hbound, fun n s' hw hstuck t => ?_⟩
  have hquiet := hrest n s' hw hstuck
  obtain ⟨fs, hf⟩ := working_run h hw
  rcases hquiet t with ht | ⟨c, ht⟩
  · exact Or.inl ht
  · right
    have hpop := (run_covered queue_notifies hf).waits_of_asleep t c ht
    cases c with
    | pop =>
        have hnone := quiescent_unavailable queue_notifies hf hquiet ⟨t, _, ht⟩
        obtain ⟨hs, hq⟩ : s'.shared.shutdown = false ∧ s'.shared.queue = [] := by
          simpa [passes, ite_eq_iff] using hnone
        exact ⟨ht, hq, hs⟩
    | push a => cases hpop
    | shutdown => cases hpop

end Locked

theorem queue_comes_to_rest_sleeper :
    ∃ (es : List (Event Bool (QueueCall Nat) (QueueResult Nat)))
      (s : State Bool (ThreadSafeQueue Nat) (QueueCall Nat) (QueueResult Nat)),
      Run queueCalls (start {}) es s ∧ s.phase true = .asleep .pop ∧
        (∀ n s', Working queueCalls s n s' → n ≤ 2 * (5 * 2 + 10)) ∧
          ∀ n s', Working queueCalls s n s' → (∀ s'', ¬ Works queueCalls s' s'') → ∀ t,
            s'.phase t = .idle ∨
              s'.phase t = .asleep .pop ∧ s'.shared.queue = [] ∧ s'.shared.shutdown = false := by
  have asleep := (Run.refl (m := queueCalls (α := Nat)) (s := start {})).tail (.call _ true .pop rfl)
    |>.tail (.enter _ true .pop rfl rfl) |>.tail (.sleep _ true .pop rfl rfl)
  exact ⟨_, _, asleep, rfl, queue_comes_to_rest asleep⟩

end Orderbook.QueueMonitor

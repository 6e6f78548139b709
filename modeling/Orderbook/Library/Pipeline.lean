import Orderbook.Library.Runs

namespace Orderbook.Library.Pipeline

open Runs

variable {σ α β : Type*} {m : Machine σ α β} {start : σ}

/-- Inputs on their way into a machine, and its outputs on their way out. Outputs leave
in batches, one a handled input, and `conserved` says that every output of what has been
handled is in exactly one of the three places, in order. -/
structure Flow (m : Machine σ α β) (start : σ) where
  handled : List α := []
  waiting : List α := []
  batch : List β := []
  passing : List β := []
  delivered : List β := []
  conserved : delivered ++ passing ++ batch = output m start handled

namespace Flow

def sent (f : Flow m start) : List α := f.handled ++ f.waiting

def state (f : Flow m start) : σ := final m start f.handled

def init (m : Machine σ α β) (start : σ) : Flow m start where
  conserved := rfl

def send (f : Flow m start) (a : α) : Flow m start :=
  { f with waiting := f.waiting ++ [a] }

def handle (f : Flow m start) (a : α) (rest : List α) (hb : f.batch = []) : Flow m start where
  handled := f.handled ++ [a]
  waiting := rest
  batch := (m f.state a).2
  passing := f.passing
  delivered := f.delivered
  conserved := by
    rw [output_concat, ← f.conserved, hb, List.append_nil]
    rfl

def passOn (f : Flow m start) (b : β) (rest : List β) (hb : f.batch = b :: rest) : Flow m start :=
  { f with
    batch := rest
    passing := f.passing ++ [b]
    conserved := by rw [← f.conserved, hb]; simp }

def deliver (f : Flow m start) (b : β) (rest : List β) (hp : f.passing = b :: rest) : Flow m start :=
  { f with
    passing := rest
    delivered := f.delivered ++ [b]
    conserved := by rw [← f.conserved, hp]; simp }

theorem sent_send (f : Flow m start) (a : α) : (f.send a).sent = f.sent ++ [a] :=
  (List.append_assoc _ _ _).symm

theorem sent_handle {f : Flow m start} {a : α} {rest : List α} (hw : f.waiting = a :: rest)
    (hb : f.batch = []) : (f.handle a rest hb).sent = f.sent := by
  rw [sent, sent, hw]
  exact List.append_assoc _ _ _

theorem state_handle {f : Flow m start} {a : α} {rest : List α} (hb : f.batch = []) :
    (f.handle a rest hb).state = (m f.state a).1 :=
  final_concat m start f.handled a

theorem delivered_begins (f : Flow m start) : f.delivered <+: output m start f.sent := by
  rw [sent, output_append, ← f.conserved, List.append_assoc, List.append_assoc]
  exact List.prefix_append _ _

theorem delivered_all {f : Flow m start} (hw : f.waiting = []) (hb : f.batch = [])
    (hp : f.passing = []) : f.delivered = output m start f.sent := by
  rw [sent, hw, List.append_nil, ← f.conserved, hb, hp, List.append_nil, List.append_nil]

end Flow

end Orderbook.Library.Pipeline

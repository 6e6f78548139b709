import Orderbook.CancelEffect
import Orderbook.Rendering

namespace Orderbook.Broadcast

open Domain Book Engine CancelEffect Rendering

section Symbols

def noteSymbol (known : List Text) (cmd : Command) : List Text :=
  match cmd.type with
  | .newOrder => if cmd.symbol ∈ known then known else known ++ [cmd.symbol]
  | .flush => []
  | .cancel => known
  | .invalid => known

/-- The symbols traded since the start or the last flush. -/
def tradedSymbols (cmds : List Command) : List Text := cmds.foldl noteSymbol []

theorem storeBook_symbols (symbol : Text) (b : SymbolOrderbook) (books : List (Text × SymbolOrderbook)) :
    (storeBook symbol b books).map Prod.fst =
      if symbol ∈ books.map Prod.fst then books.map Prod.fst else books.map Prod.fst ++ [symbol] := by
  induction books with
  | nil => rfl
  | cons entry rest ih =>
      obtain ⟨s, old⟩ := entry
      rw [storeBook]
      by_cases hs : s = symbol
      · simp [hs]
      · simp only [if_neg hs, List.map_cons, ih, List.mem_cons, Ne.symm hs, false_or]
        split_ifs <;> rfl

theorem processCommand_symbols (v : VisitOrder) (cmd : Command) (e : MatchingEngine) :
    (processCommand v cmd e).1.books.map Prod.fst = noteSymbol (e.books.map Prod.fst) cmd := by
  rw [processCommand, noteSymbol]
  cases cmd.type with
  | newOrder => exact storeBook_symbols cmd.symbol _ e.books
  | flush => rfl
  | cancel => exact List.map_map
  | invalid => rfl

theorem engine_symbols (v : Nat → VisitOrder) (cmds : List Command) :
    (engineAfter v cmds).books.map Prod.fst = tradedSymbols cmds := by
  induction cmds using List.reverseRecOn with
  | nil => rfl
  | append_singleton cmds c ih =>
      rw [engineAfter_concat, processCommand_symbols, ih, tradedSymbols, tradedSymbols, List.foldl_concat]

theorem noteSymbol_nodup {known : List Text} (h : known.Nodup) (cmd : Command) :
    (noteSymbol known cmd).Nodup := by
  rw [noteSymbol]
  cases cmd.type with
  | newOrder =>
      simp only
      split_ifs with hs
      · exact h
      · exact List.nodup_append.mpr ⟨h, List.nodup_singleton _, by
          intro a ha b hb
          rw [List.mem_singleton.mp hb]
          exact fun he => hs (he ▸ ha)⟩
  | flush => exact List.nodup_nil
  | cancel => exact h
  | invalid => exact h

theorem tradedSymbols_nodup (cmds : List Command) : (tradedSymbols cmds).Nodup := by
  induction cmds using List.reverseRecOn with
  | nil => exact List.nodup_nil
  | append_singleton cmds c ih =>
      rw [tradedSymbols, List.foldl_concat]
      exact noteSymbol_nodup ih c

end Symbols

section Acks

def ackCount (cancel : Command) (lines : List OutputLine) : Nat :=
  (lines.map render).count (render (.cancelAck cancel.userId cancel.userOrderId))

def CancelsAckedOnce (v : Nat → VisitOrder) (cmds : List Command) : Prop :=
  ∀ pre c post, cmds = pre ++ c :: post → c.type = .cancel →
    ackCount c (engineStep v (engineState v pre) c).2 = 1

theorem ackCount_append (c : Command) (xs ys : List OutputLine) :
    ackCount c (xs ++ ys) = ackCount c xs + ackCount c ys := by
  rw [ackCount, List.map_append, List.count_append]
  rfl

theorem ackCount_topChange (c : Command) (s : Side) (old new : TopOfBook) :
    ackCount c (topChange s old new) = 0 := by
  apply List.count_eq_zero.mpr
  intro h
  obtain ⟨line, hl, hr⟩ := List.mem_map.mp h
  rw [mem_topChange hl] at hr
  exact render_top_ne_cancelAck s new _ _ hr

theorem ackCount_processCancel (c : Command) (b : SymbolOrderbook) :
    ackCount c (processCancel c b).2 = 1 := by
  have htops := ackCount_append c
    (topChange .buy b.currentTopBid (computeTopBid (cancelOrder c.key b)))
    (topChange .sell b.currentTopAsk (computeTopAsk (cancelOrder c.key b)))
  rw [ackCount_topChange, ackCount_topChange] at htops
  rw [processCancel, ackCount, List.map_cons, List.count_cons_self]
  exact congrArg (· + 1) htops

theorem ackCount_broadcast (c : Command) (books : List (Text × SymbolOrderbook)) :
    ackCount c (books.flatMap (fun entry => (processCancel c entry.2).2)) = books.length := by
  induction books with
  | nil => rfl
  | cons entry rest ih =>
      rw [List.flatMap_cons, ackCount_append, ackCount_processCancel, ih, List.length_cons]
      omega

theorem ackCount_processCommand (v : VisitOrder) {c : Command} (hc : c.type = .cancel) (e : MatchingEngine) :
    ackCount c (processCommand v c e).2 = e.books.length := by
  rw [processCommand, hc]
  simp only
  rw [ackCount_broadcast]
  exact (v.perm e.books).length_eq

/-- The cancels of a run are acknowledged once each exactly when at each of them one symbol
has been traded since the start or the last flush. -/
theorem cancels_acked_once_iff (v : Nat → VisitOrder) (cmds : List Command) :
    CancelsAckedOnce v cmds ↔
      ∀ pre c post, cmds = pre ++ c :: post → c.type = .cancel → (tradedSymbols pre).length = 1 := by
  have hstep (pre : List Command) {c : Command} (hc : c.type = .cancel) :
      ackCount c (engineStep v (engineState v pre) c).2 = (tradedSymbols pre).length := by
    rw [← engine_symbols v pre, List.length_map]
    exact ackCount_processCommand _ hc _
  constructor
  · intro h pre c post hcmds hc
    rw [← hstep pre hc]
    exact h pre c post hcmds hc
  · intro h pre c post hcmds hc
    rw [hstep pre hc]
    exact h pre c post hcmds hc

theorem early_cancel_unacked : ¬ CancelsAckedOnce (fun _ => default) [cancelCommand 1 1] := by
  intro h
  have hone := h [] (cancelCommand 1 1) [] rfl rfl
  revert hone
  decide +kernel

end Acks

end Orderbook.Broadcast

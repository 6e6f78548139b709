import Orderbook.SlotCancel

namespace Orderbook.SlotReuse

open Domain SlotPool Ladder Book Reference ReferenceInvariant Slots SlotCancel Library.Runs

variable {b : SymbolOrderbook}

/-- Between two calls: slots are owned and the book read through them is well formed. -/
structure Represents (b : SymbolOrderbook) : Prop extends SlotInvariant b where
  book : BookInvariant (deref b)

theorem represents_empty : Represents {} where
  owned := owned_empty
  queued _ _ h := by cases h
  book := invariant_empty

theorem matchNewOrder_reads (h : SlotInvariant b) (hc : CoreInvariant (deref b)) (cmd : Command) :
    deref (matchNewOrder cmd b).1 = matched cmd (deref b) ∧ SlotInvariant (matchNewOrder cmd b).1 ∧
      (matchNewOrder cmd b).2 = (walk cmd (deref b)).fills.map (fillLine cmd) := by
  have hlines := (orderSweep_reads cmd b h).lines
  have hleft := (orderSweep_reads cmd b h).left
  have hread : deref (absorb cmd.side.opposite b (orderSweep cmd b)) = traded cmd (deref b) :=
    deref_absorb h
  have hslots : SlotInvariant (absorb cmd.side.opposite b (orderSweep cmd b)) := absorb_slots h hc
  rw [matchNewOrder_eq]
  by_cases hp : cmd.price = 0
  · rw [if_pos hp, matchMarket, marketSweep_eq cmd b hp, matched, if_neg (fun hr => hr.1 hp)]
    exact ⟨hread, hslots, hlines⟩
  · rw [if_neg hp, matchLimit, limitSweep_eq cmd b hp h]
    by_cases hq : 0 < (orderSweep cmd b).walk.incomingQty
    · have hcore : CoreInvariant (deref (absorb cmd.side.opposite b (orderSweep cmd b))) := by
        rw [hread]
        exact traded_core hc cmd
      simp only [if_pos hq]
      rw [matched, if_pos ⟨hp, hleft ▸ hq⟩, deref_restRemainder hslots hcore, hread, hleft]
      exact ⟨rfl, restRemainder_slots hslots hcore cmd.side, hlines⟩
    · simp only [if_neg hq]
      rw [matched, if_neg (fun hr => hq (hleft ▸ hr.2))]
      exact ⟨hread, hslots, hlines⟩

theorem update_reads (oldBid oldAsk : TopOfBook) (b : SymbolOrderbook) :
    deref (updateTopOfBookAndEmitChanges oldBid oldAsk b).1 = refreshTops (deref b) ∧
      (updateTopOfBookAndEmitChanges oldBid oldAsk b).2 =
        topChange .buy oldBid (computeTop (deref b).bids) ++
          topChange .sell oldAsk (computeTop (deref b).asks) := by
  constructor
  · simp [deref, updateTopOfBookAndEmitChanges, refreshTops, computeTopBid, computeTopAsk]
  · simp [deref, updateTopOfBookAndEmitChanges, computeTopBid, computeTopAsk]

theorem call_reads (h : Represents b) (c : BookCall) :
    refCall (deref b) c = (deref (call b c).1, (call b c).2) := by
  cases c with
  | processNewOrder cmd =>
      obtain ⟨hread, _, hlines⟩ := matchNewOrder_reads h.toSlotInvariant h.book.toCoreInvariant cmd
      obtain ⟨hr, ht⟩ := update_reads b.currentTopBid b.currentTopAsk (matchNewOrder cmd b).1
      simp only [refCall, refNewOrder, call, processNewOrder, hr, ht, hread, hlines]
      rfl
  | processCancel cmd =>
      have hread := deref_cancelOrder h.toSlotInvariant h.book.toCoreInvariant cmd.key
      obtain ⟨hr, ht⟩ := update_reads b.currentTopBid b.currentTopAsk (cancelOrder cmd.key b)
      simp only [refCall, refCancel, call, processCancel, hr, ht, hread]
      rfl

theorem deref_newOrder (h : Represents b) (cmd : Command) :
    deref (processNewOrder cmd b).1 = refreshTops (matched cmd (deref b)) :=
  (congrArg Prod.fst (call_reads h (.processNewOrder cmd))).symm

theorem newOrder_lines (h : Represents b) (cmd : Command) :
    (processNewOrder cmd b).2 = (refNewOrder cmd (deref b)).2 :=
  (congrArg Prod.snd (call_reads h (.processNewOrder cmd))).symm

theorem deref_cancel (h : Represents b) (cmd : Command) :
    deref (processCancel cmd b).1 = refreshTops (cancelled cmd.key (deref b)) :=
  (congrArg Prod.fst (call_reads h (.processCancel cmd))).symm

theorem cancel_lines (h : Represents b) (cmd : Command) :
    (processCancel cmd b).2 = (refCancel cmd (deref b)).2 :=
  (congrArg Prod.snd (call_reads h (.processCancel cmd))).symm

theorem call_nextSequence (h : Represents b) (c : BookCall) :
    b.nextSequence ≤ (call b c).1.nextSequence ∧ (call b c).1.nextSequence ≤ b.nextSequence + 1 := by
  have hn := refCall_nextSequence (deref b) c
  rwa [call_reads h] at hn

theorem update_slots (oldBid oldAsk : TopOfBook) (h : SlotInvariant b) :
    SlotInvariant (updateTopOfBookAndEmitChanges oldBid oldAsk b).1 := ⟨h.owned, h.queued⟩

theorem call_represents (b : SymbolOrderbook) (c : BookCall) (h : Represents b) :
    Represents (call b c).1 := by
  have hbook : BookInvariant (deref (call b c).1) := by
    have hi := refCall_invariant (deref b) c h.book
    rwa [call_reads h] at hi
  cases c with
  | processNewOrder cmd =>
      have hs := (matchNewOrder_reads h.toSlotInvariant h.book.toCoreInvariant cmd).2.1
      exact ⟨update_slots b.currentTopBid b.currentTopAsk hs, hbook⟩
  | processCancel cmd =>
      have hs := cancelOrder_slots h.toSlotInvariant h.book.toCoreInvariant cmd.key
      exact ⟨update_slots b.currentTopBid b.currentTopAsk hs, hbook⟩

theorem represents_after (calls : List BookCall) : Represents (bookAfter calls) :=
  final_preserves call Represents call_represents calls {} represents_empty

theorem bookAfter_reads (calls : List BookCall) :
    final refCall {} calls = deref (bookAfter calls) ∧ output refCall {} calls = output call {} calls :=
  simulates call refCall Represents deref call_represents (fun _ c h => call_reads h c) calls {}
    represents_empty

/-- Recycling slots cannot be seen in the output. -/
theorem recycling_invisible (calls : List BookCall) :
    output call {} calls = output refCall {} calls := (bookAfter_reads calls).2.symm

end Orderbook.SlotReuse

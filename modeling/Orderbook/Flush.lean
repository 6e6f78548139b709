import Orderbook.SlotReuse

namespace Orderbook.Flush

open Domain SlotPool Matching Book Slots SlotReuse Library.Runs

inductive PublicCall
  | call (c : BookCall)
  | flush

def publicCall : Machine SymbolOrderbook PublicCall OutputLine := fun b c =>
  match c with
  | .call c => call b c
  | .flush => (flush b, [])

def publicAfter (calls : List PublicCall) : SymbolOrderbook := final publicCall {} calls

def restingBook (cmd : Command) (b : SymbolOrderbook) : Option SymbolOrderbook :=
  if cmd.price ≠ 0 ∧ 0 < (limitSweep cmd.side cmd b).walk.incomingQty then
    some (absorb cmd.side.opposite b (limitSweep cmd.side cmd b))
  else none

def HandsOutValid (b : SymbolOrderbook) : Prop :=
  (allocate b.slotPool).1 < (allocate b.slotPool).2.storage.length ∧ (allocate b.slotPool).1 ∉ used b

/-- A flush after `pre` cannot be told from a new book by the calls `post`, and every slot
handed out in them is valid. -/
structure ResetsCompletely (pre post : List PublicCall) : Prop where
  output_eq : output publicCall (flush (publicAfter pre)) post = output publicCall {} post
  slots_valid : ∀ mid cmd rest b, post = mid ++ .call (.processNewOrder cmd) :: rest →
    restingBook cmd (final publicCall (flush (publicAfter pre)) mid) = some b → HandsOutValid b

def FlushesReset (calls : List PublicCall) : Prop :=
  ∀ pre post, calls = pre ++ .flush :: post → ResetsCompletely pre post

def bringsOrder : PublicCall → Bool
  | .call (.processNewOrder cmd) => cmd.price ≠ 0 && decide (0 < cmd.quantity)
  | .call (.processCancel _) => false
  | .flush => false

theorem bringsOrder_iff (cmd : Command) :
    bringsOrder (.call (.processNewOrder cmd)) = true ↔ cmd.price ≠ 0 ∧ 0 < cmd.quantity := by
  simp [bringsOrder]

/-- At no flush of the run does the pool have free slots while an order comes later. -/
def NoStaleSlots (calls : List PublicCall) : Prop :=
  ∀ pre post, calls = pre ++ .flush :: post →
    (publicAfter pre).slotPool.freeList = [] ∨ ∀ c ∈ post, bringsOrder c = false

section Emptied

variable {b : SymbolOrderbook}

theorem flush_flush (b : SymbolOrderbook) : flush (flush b) = flush b := rfl

theorem flush_eq_new (h : b.slotPool.freeList = []) : flush b = {} := by
  simp only [flush, h]

theorem levels_flush (b : SymbolOrderbook) (s : Side) : levels (flush b) s = [] := by
  cases s <;> rfl

theorem limitSweep_flush (s : Side) (cmd : Command) (b : SymbolOrderbook) :
    limitSweep s cmd (flush b) = ⟨[], startWalk cmd (flush b), []⟩ := by
  rw [limitSweep, levels_flush, matchLevelsLimit]

theorem marketSweep_flush (s : Side) (cmd : Command) (b : SymbolOrderbook) :
    marketSweep s cmd (flush b) = ⟨[], startWalk cmd (flush b), []⟩ := by
  rw [marketSweep, levels_flush, matchLevels]

theorem absorb_flush (s : Side) (cmd : Command) (b : SymbolOrderbook) :
    absorb s (flush b) ⟨[], startWalk cmd (flush b), []⟩ = flush b := by
  cases s <;> rfl

def acknowledgement : BookCall → OutputLine
  | .processNewOrder cmd => .ack cmd.userId cmd.userOrderId
  | .processCancel cmd => .cancelAck cmd.userId cmd.userOrderId

theorem matchNewOrder_flush {cmd : Command} (h : bringsOrder (.call (.processNewOrder cmd)) = false)
    (b : SymbolOrderbook) : matchNewOrder cmd (flush b) = (flush b, []) := by
  rw [matchNewOrder_eq]
  by_cases hp : cmd.price = 0
  · rw [if_pos hp, matchMarket, marketSweep_flush, absorb_flush]
  · have hq : ¬ 0 < (limitSweep cmd.side cmd (flush b)).walk.incomingQty := by
      rw [limitSweep_flush]
      change ¬ 0 < cmd.quantity
      simpa [bringsOrder, hp] using h
    rw [if_neg hp, matchLimit]
    simp only [if_neg hq]
    rw [limitSweep_flush, absorb_flush]

theorem call_flush {c : BookCall} (h : bringsOrder (.call c) = false) (b : SymbolOrderbook) :
    call (flush b) c = (flush b, [acknowledgement c]) := by
  cases c with
  | processNewOrder cmd =>
      rw [call, processNewOrder, matchNewOrder_flush h]
      rfl
  | processCancel cmd => rfl

theorem publicCall_flush {c : PublicCall} (h : bringsOrder c = false) (b : SymbolOrderbook) :
    (publicCall (flush b) c).1 = flush b ∧
      (publicCall (flush b) c).2 = (publicCall {} c).2 := by
  cases c with
  | call c =>
      have hnew := call_flush h {}
      rw [publicCall, publicCall, call_flush h b]
      rw [flush_eq_new rfl] at hnew
      rw [hnew]
      exact ⟨rfl, rfl⟩
  | flush => exact ⟨rfl, rfl⟩

theorem restingBook_flush (cmd : Command) (b : SymbolOrderbook) :
    restingBook cmd (flush b) =
      if bringsOrder (.call (.processNewOrder cmd)) then some (flush b) else none := by
  rw [restingBook, limitSweep_flush, absorb_flush]
  by_cases h : bringsOrder (.call (.processNewOrder cmd)) = true
  · rw [if_pos h]
    exact if_pos ((bringsOrder_iff cmd).mp h)
  · rw [if_neg h]
    exact if_neg (fun hq => h ((bringsOrder_iff cmd).mpr hq))

theorem run_flush {calls : List PublicCall} (h : ∀ c ∈ calls, bringsOrder c = false)
    (b : SymbolOrderbook) :
    final publicCall (flush b) calls = flush b ∧
      output publicCall (flush b) calls = output publicCall {} calls := by
  induction calls with
  | nil => exact ⟨rfl, rfl⟩
  | cons c calls ih =>
      obtain ⟨hf, ho⟩ := ih (fun d hd => h d (List.mem_cons_of_mem c hd))
      obtain ⟨hb, hl⟩ := publicCall_flush (h c List.mem_cons_self) b
      obtain ⟨hn, _⟩ := publicCall_flush (h c List.mem_cons_self) {}
      rw [flush_eq_new rfl] at hn
      rw [final_cons, output_cons, output_cons, hb, hl, hn]
      exact ⟨hf, congrArg _ ho⟩

end Emptied

theorem publicAfter_flush (pre mid : List PublicCall) :
    publicAfter (pre ++ .flush :: mid) = final publicCall (flush (publicAfter pre)) mid := by
  rw [publicAfter, final_append, final_cons]
  rfl

theorem handsOutValid_of_represents {b : SymbolOrderbook} (h : Represents b) {cmd : Command}
    {b' : SymbolOrderbook} (hr : restingBook cmd b = some b') : HandsOutValid b' := by
  rw [restingBook] at hr
  split_ifs at hr with hrest
  obtain ⟨hp, _⟩ := hrest
  rw [Option.some.injEq, limitSweep_eq cmd b hp h.toSlotInvariant] at hr
  obtain ⟨ho, hnew, _⟩ := allocate_spec (absorb_slots h.toSlotInvariant h.book.toCoreInvariant).owned
  rw [hr] at ho hnew
  exact ⟨owned_lt ho List.mem_cons_self, hnew⟩

/-- After every part of such a run the book is well formed, or it has been emptied and the
rest of the run brings no order. -/
theorem publicAfter_cases {calls : List PublicCall} (h : NoStaleSlots calls)
    {pre post : List PublicCall} (hc : calls = pre ++ post) :
    Represents (publicAfter pre) ∨
      (flush (publicAfter pre) = publicAfter pre ∧ ∀ c ∈ post, bringsOrder c = false) := by
  induction pre using List.reverseRecOn generalizing post with
  | nil => exact Or.inl represents_empty
  | append_singleton pre c ih =>
      rw [List.append_assoc, List.singleton_append] at hc
      rw [publicAfter, final_concat]
      change Represents (publicCall (publicAfter pre) c).1 ∨
        (flush (publicCall (publicAfter pre) c).1 = (publicCall (publicAfter pre) c).1 ∧ _)
      cases c with
      | call c =>
          rcases ih hc with hr | ⟨he, hq⟩
          · exact Or.inl (call_represents _ c hr)
          · right
            have hb := (publicCall_flush (hq _ List.mem_cons_self) (publicAfter pre)).1
            rw [he] at hb
            rw [hb]
            exact ⟨he, fun d hd => hq d (List.mem_cons_of_mem _ hd)⟩
      | flush =>
          rcases h pre post hc with hf | hq
          · -- without free slots the flush starts over
            left
            change Represents (flush (publicAfter pre))
            rw [flush_eq_new hf]
            exact represents_empty
          · exact Or.inr ⟨flush_flush _, hq⟩

theorem resetsCompletely_of_noStaleSlots {calls pre post : List PublicCall}
    (h : NoStaleSlots calls) (hc : calls = pre ++ .flush :: post) : ResetsCompletely pre post := by
  constructor
  · rcases h pre post hc with hf | hq
    · rw [flush_eq_new hf]
    · exact (run_flush hq _).2
  · intro mid cmd rest b hpost hr
    have hsplit : calls = (pre ++ .flush :: mid) ++ .call (.processNewOrder cmd) :: rest := by
      rw [hc, hpost, List.append_assoc, List.cons_append]
    rw [← publicAfter_flush] at hr
    rcases publicAfter_cases h hsplit with hb | ⟨he, hq⟩
    · exact handsOutValid_of_represents hb hr
    · rw [← he, restingBook_flush, hq _ List.mem_cons_self] at hr
      cases hr

theorem not_handsOutValid_flush {b : SymbolOrderbook} (h : b.slotPool.freeList ≠ []) :
    ¬ HandsOutValid (flush b) := by
  obtain ⟨it, rest, hf⟩ := List.exists_cons_of_ne_nil h
  rintro ⟨hlt, _⟩
  have he : (allocate (flush b).slotPool).2.storage.length = 0 := by
    simp [flush, allocate, hf]
  rw [he] at hlt
  exact Nat.not_lt_zero _ hlt

theorem noStaleSlots_of_flushesReset {calls : List PublicCall} (h : FlushesReset calls) :
    NoStaleSlots calls := by
  intro pre post hc
  by_contra hn
  obtain ⟨hfree, hex⟩ := not_or.mp hn
  push Not at hex
  obtain ⟨c, hmem, hbring⟩ := hex
  -- the first call of `post` that brings an order
  obtain ⟨c, hfirst⟩ : ∃ c, post.find? bringsOrder = some c := by
    rw [← Option.isSome_iff_exists, List.find?_isSome]
    exact ⟨c, hmem, by simpa using hbring⟩
  obtain ⟨hb, mid, rest, hpost, hmid⟩ := List.find?_eq_some_iff_append.mp hfirst
  have hstate := (run_flush (fun d hd => by simpa using hmid d hd) (publicAfter pre)).1
  match c, hb with
  | .call (.processNewOrder cmd), hb =>
      apply not_handsOutValid_flush hfree
      apply (h pre post hc).slots_valid mid cmd rest _ hpost
      rw [hstate, restingBook_flush, if_pos hb]

/-- The flushes of a run are complete resets exactly if none of them leaves free slots
behind for a later order. -/
theorem flushes_reset_iff (calls : List PublicCall) : FlushesReset calls ↔ NoStaleSlots calls :=
  ⟨noStaleSlots_of_flushesReset, fun h _ _ hc => resetsCompletely_of_noStaleSlots h hc⟩

def cancelFlushOrder : List PublicCall :=
  [.call (.processNewOrder (newOrderCommand [] .buy 1 1 10 5)),
    .call (.processCancel (cancelCommand 1 1)),
    .flush,
    .call (.processNewOrder (newOrderCommand [] .buy 2 2 10 5))]

theorem flush_keeps_free_slots : ¬ FlushesReset cancelFlushOrder := by
  intro h
  have hr := h (cancelFlushOrder.take 2) (cancelFlushOrder.drop 3) rfl
  apply not_handsOutValid_flush (b := publicAfter (cancelFlushOrder.take 2))
  · decide +kernel
  · apply hr.slots_valid [] (newOrderCommand [] .buy 2 2 10 5) [] _ rfl
    exact restingBook_flush _ _

end Orderbook.Flush

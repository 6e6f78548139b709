import Orderbook.Engine
import Orderbook.Priority

namespace Orderbook.CancelEffect

open Domain SlotPool Ladder Book Reference ReferenceInvariant Slots SlotReuse Orderbook.Representation
  Observations Priority Engine Library.QueueFill Library.Runs

def KeyAbsent (key : OrderKey) (b : SymbolOrderbook) : Prop := ∀ o ∈ allResting b, o.key ≠ key

def NoneResting (key : OrderKey) (e : MatchingEngine) : Prop := ∀ entry ∈ e.books, KeyAbsent key entry.2

instance (key : OrderKey) (b : SymbolOrderbook) : Decidable (KeyAbsent key b) :=
  inferInstanceAs (Decidable (∀ o ∈ allResting b, _))

instance (key : OrderKey) (e : MatchingEngine) : Decidable (NoneResting key e) :=
  inferInstanceAs (Decidable (∀ entry ∈ e.books, KeyAbsent key entry.2))

/-- A trade line names `key` as the resting side. The incoming order of a trade has the
sequence number 0. -/
def namesResting (key : OrderKey) : OutputLine → Prop
  | .trade buy sell _ _ => (buy.sequence ≠ 0 ∧ buy.key = key) ∨ (sell.sequence ≠ 0 ∧ sell.key = key)
  | _ => False

/-- In each book the lookup map names every resting order that has the key. -/
def Covered (key : OrderKey) (e : MatchingEngine) : Prop :=
  ∀ entry ∈ e.books, ∀ it ∈ used entry.2,
    (orderAt entry.2 it).key = key → entry.2.ordersByKey key = some it

def engineState (v : Nat → VisitOrder) (cmds : List Command) : Nat × MatchingEngine :=
  final (engineStep v) engineStart cmds

def CancelsEffective (v : Nat → VisitOrder) (cmds : List Command) : Prop :=
  ∀ pre c mid post, cmds = pre ++ c :: (mid ++ post) → c.type = .cancel →
    (∀ d ∈ mid, d.type = .newOrder → d.key ≠ c.key) →
      NoneResting c.key (engineAfter v (pre ++ c :: mid)) ∧
        ∀ line ∈ output (engineStep v) (engineState v (pre ++ [c])) mid, ¬ namesResting c.key line

section Reference

variable {r : ReferenceBook} {key : OrderKey}

theorem cancelled_clears_iff (h : CoreInvariant r) :
    (∀ o ∈ allOrders (cancelled key r), o.key ≠ key) ↔
      ∀ o ∈ allOrders r, o.key = key → r.instances key = some o.sequence := by
  cases hk : r.instances key with
  | none =>
      rw [cancelled, hk]
      constructor
      · exact fun ha o ho hok => absurd hok (ha o ho)
      · exact fun hc o ho hok => absurd (hc o ho hok) (by simp)
  | some n =>
      rw [allOrders_cancelled h hk]
      constructor
      · intro ha o ho hok
        by_contra hn
        have hne : o.sequence ≠ n := fun he => hn (congrArg some he.symm)
        exact ha o (List.mem_filter.mpr ⟨ho, by simpa using hne⟩) hok
      · intro hc o ho hok
        have hn := Option.some.inj (hc o (List.mem_of_mem_filter ho) hok)
        have hne : o.sequence ≠ n := by simpa using List.of_mem_filter ho
        exact hne hn.symm

theorem matched_absent (h : CoreInvariant r) {cmd : Command} (hne : cmd.key ≠ key)
    (ha : ∀ o ∈ allOrders r, o.key ≠ key) : ∀ o ∈ allOrders (matched cmd r), o.key ≠ key := by
  intro o ho
  rcases mem_matched h ho with ⟨_, rfl⟩ | ho | ⟨_, p, hp, he⟩
  · exact hne
  · exact ha o ((mem_allOrders cmd.side).mpr (Or.inl ho))
  · rw [he]
    exact ha p ((mem_allOrders cmd.side).mpr (Or.inr hp))

theorem cancelled_absent (h : CoreInvariant r) (k : OrderKey) (ha : ∀ o ∈ allOrders r, o.key ≠ key) :
    ∀ o ∈ allOrders (cancelled k r), o.key ≠ key := by
  intro o ho
  exact ha o (mem_cancelled h ho)

theorem topChanges_names (r new : ReferenceBook) : ∀ line ∈ topChanges r new, ¬ namesResting key line := by
  intro line hl
  obtain ⟨s, rfl⟩ := mem_topChanges hl
  exact id

theorem fill_rested (h : CoreInvariant r) (cmd : Command) {f : Fill Order} (hf : f ∈ (walk cmd r).fills) :
    ∃ p ∈ resting (sideLevels r cmd.side.opposite),
      p.key = f.item.key ∧ p.sequence = f.item.sequence := by
  obtain ⟨p, hp, _, _, _, hi⟩ := walk_named (within cmd.side cmd) cmd.userId cmd.quantity
    (h.side cmd.side.opposite) f hf
  exact ⟨p, hp, by rw [hi]; rfl, by rw [hi]⟩

theorem refNewOrder_names (h : CoreInvariant r) {cmd : Command} (ha : ∀ o ∈ allOrders r, o.key ≠ key) :
    ∀ line ∈ (refNewOrder cmd r).2, ¬ namesResting key line := by
  intro line hl
  rcases List.mem_cons.mp hl with rfl | hl
  · exact id
  · rcases List.mem_append.mp hl with hl | hl
    · obtain ⟨f, hf, rfl⟩ := List.mem_map.mp hl
      obtain ⟨p, hp, hpk, _⟩ := fill_rested h cmd hf
      have hitem : f.item.key ≠ key := by
        rw [← hpk]
        exact ha p ((mem_allOrders cmd.side).mpr (Or.inr hp))
      have hz : (makeIncomingOrder cmd).sequence = 0 := rfl
      rw [fillLine]
      cases cmd.side with
      | buy =>
          rintro (⟨hs, _⟩ | ⟨_, hk⟩)
          · exact hs hz
          · exact hitem hk
      | sell =>
          rintro (⟨_, hk⟩ | ⟨hs, _⟩)
          · exact hitem hk
          · exact hs hz
    · exact topChanges_names r _ line hl

theorem refCancel_names (cmd : Command) : ∀ line ∈ (refCancel cmd r).2, ¬ namesResting key line := by
  intro line hl
  rcases List.mem_cons.mp hl with rfl | hl
  · exact id
  · exact topChanges_names r _ line hl

end Reference

section Book

variable {b : SymbolOrderbook} {key : OrderKey}

theorem keyAbsent_iff : KeyAbsent key b ↔ ∀ o ∈ allOrders (deref b), o.key ≠ key := by
  rw [KeyAbsent, allResting_eq]

theorem instances_iff (h : Represents b) {it : OrderIterator} (hit : it ∈ used b) :
    (deref b).instances key = some (get b.slotPool it).sequence ↔ b.ordersByKey key = some it := by
  constructor
  · intro hi
    cases hk : b.ordersByKey key with
    | none => simp [deref, hk] at hi
    | some jt =>
        simp only [deref, hk, Option.map_some, Option.some.injEq] at hi
        rw [slot_inj h.book.toCoreInvariant (h.queued key jt hk) hit hi]
  · intro hk
    simp [deref, hk]

theorem processCancel_clears_iff (h : Represents b) (cmd : Command) :
    KeyAbsent cmd.key (processCancel cmd b).1 ↔
      ∀ it ∈ used b, (orderAt b it).key = cmd.key → b.ordersByKey cmd.key = some it := by
  rw [keyAbsent_iff, deref_cancel h, allOrders_refreshTops]
  apply (cancelled_clears_iff h.book.toCoreInvariant).trans
  rw [allOrders_deref]
  constructor
  · intro hc it hit hk
    exact (instances_iff h hit).mp (hc _ (List.mem_map_of_mem hit) hk)
  · intro hc o ho hk
    obtain ⟨it, hit, rfl⟩ := List.mem_map.mp ho
    exact (instances_iff h hit).mpr (hc it hit hk)

theorem processNewOrder_absent (h : Represents b) {cmd : Command} (hne : cmd.key ≠ key)
    (ha : KeyAbsent key b) : KeyAbsent key (processNewOrder cmd b).1 ∧
      ∀ line ∈ (processNewOrder cmd b).2, ¬ namesResting key line := by
  rw [keyAbsent_iff] at ha ⊢
  rw [deref_newOrder h, allOrders_refreshTops, newOrder_lines h]
  exact ⟨matched_absent h.book.toCoreInvariant hne ha, refNewOrder_names h.book.toCoreInvariant ha⟩

theorem processCancel_absent (h : Represents b) (cmd : Command) (ha : KeyAbsent key b) :
    KeyAbsent key (processCancel cmd b).1 ∧
      ∀ line ∈ (processCancel cmd b).2, ¬ namesResting key line := by
  rw [keyAbsent_iff] at ha ⊢
  rw [deref_cancel h, allOrders_refreshTops, cancel_lines h]
  exact ⟨cancelled_absent h.book.toCoreInvariant cmd.key ha, refCancel_names cmd⟩

end Book

section Engine

variable {e : MatchingEngine} {key : OrderKey}

theorem processCommand_absent (h : EngineInvariant e) (v : VisitOrder) {cmd : Command}
    (hne : cmd.type = .newOrder → cmd.key ≠ key) (ha : NoneResting key e) :
    NoneResting key (processCommand v cmd e).1 ∧
      ∀ line ∈ (processCommand v cmd e).2, ¬ namesResting key line := by
  have hboth : ∀ entry ∈ e.books, Represents entry.2 ∧ KeyAbsent key entry.2 :=
    fun entry hentry => ⟨h entry hentry, ha entry hentry⟩
  obtain ⟨hbooks, hlines⟩ := processCommand_preserves (P := fun b => Represents b ∧ KeyAbsent key b)
    (Q := fun line => ¬ namesResting key line) v cmd ⟨represents_empty, fun _ h => by cases h⟩
    (fun ht ⟨hb, hk⟩ => by
      obtain ⟨hnext, hl⟩ := processNewOrder_absent hb (hne ht) hk
      exact ⟨⟨call_represents _ (.processNewOrder cmd) hb, hnext⟩, hl⟩)
    (fun b ⟨hb, hk⟩ => by
      obtain ⟨hnext, hl⟩ := processCancel_absent hb cmd hk
      exact ⟨⟨call_represents b (.processCancel cmd) hb, hnext⟩, hl⟩)
    hboth
  exact ⟨fun entry hentry => (hbooks entry hentry).2, hlines⟩

theorem run_absent (v : Nat → VisitOrder) {s : Nat × MatchingEngine} (h : EngineInvariant s.2)
    (ha : NoneResting key s.2) (mid : List Command)
    (hmid : ∀ d ∈ mid, d.type = .newOrder → d.key ≠ key) :
    NoneResting key (final (engineStep v) s mid).2 ∧
      ∀ line ∈ output (engineStep v) s mid, ¬ namesResting key line := by
  induction mid generalizing s with
  | nil => exact ⟨ha, fun _ h => by cases h⟩
  | cons d mid ih =>
      obtain ⟨hbook, hlines⟩ := processCommand_absent h (v s.1) (hmid d List.mem_cons_self) ha
      obtain ⟨hfinal, hrest⟩ := ih (engineStep_invariant v s d h) hbook
        (fun c hc => hmid c (List.mem_cons_of_mem d hc))
      refine ⟨hfinal, ?_⟩
      intro line hl
      rcases List.mem_append.mp hl with hl | hl
      · exact hlines line hl
      · exact hrest line hl

theorem cancel_clears_iff (h : EngineInvariant e) (v : VisitOrder) {c : Command} (hc : c.type = .cancel) :
    NoneResting c.key (processCommand v c e).1 ↔ Covered c.key e := by
  rw [processCommand, hc]
  constructor
  · intro ha entry hentry
    exact (processCancel_clears_iff (h entry hentry) c).mp (ha _ (List.mem_map_of_mem hentry))
  · intro hcov entry hentry
    obtain ⟨old, hold, rfl⟩ := List.mem_map.mp hentry
    exact (processCancel_clears_iff (h old hold) c).mpr (hcov old hold)

end Engine

theorem engineAfter_concat (v : Nat → VisitOrder) (pre : List Command) (c : Command) :
    engineAfter v (pre ++ [c]) = (processCommand (v (engineState v pre).1) c (engineAfter v pre)).1 := by
  rw [engineAfter, final_concat]
  rfl

theorem cancels_effective_of_covered (v : Nat → VisitOrder) (cmds : List Command)
    (hcov : ∀ pre c post, cmds = pre ++ c :: post → c.type = .cancel → Covered c.key (engineAfter v pre)) :
    CancelsEffective v cmds := by
  intro pre c mid post hcmds hc hmid
  have hclear := (cancel_clears_iff (engine_invariant v pre) (v (engineState v pre).1) hc).mpr
    (hcov pre c (mid ++ post) hcmds hc)
  rw [← engineAfter_concat] at hclear
  obtain ⟨hnone, hlines⟩ := run_absent v (engine_invariant v (pre ++ [c])) hclear mid hmid
  refine ⟨?_, hlines⟩
  have happ : pre ++ c :: mid = pre ++ [c] ++ mid := by simp
  rw [engineAfter, happ, final_append]
  exact hnone

/-- The cancels of a run are effective exactly when at each of them the lookup maps name
every resting order that has its key. -/
theorem cancels_effective_iff (v : Nat → VisitOrder) (cmds : List Command) :
    CancelsEffective v cmds ↔
      ∀ pre c post, cmds = pre ++ c :: post → c.type = .cancel → Covered c.key (engineAfter v pre) := by
  refine ⟨?_, cancels_effective_of_covered v cmds⟩
  intro heff pre c post hcmds hc
  have hnone := (heff pre c [] post hcmds hc (fun _ h => by cases h)).1
  rw [engineAfter_concat] at hnone
  exact (cancel_clears_iff (engine_invariant v pre) _ hc).mp hnone

def duplicateOrder : List Command :=
  [newOrderCommand ['I', 'B', 'M'] .buy 1 1 100 10, newOrderCommand ['I', 'B', 'M'] .buy 1 1 100 10,
    cancelCommand 1 1]

theorem duplicate_survives_cancel : ¬ CancelsEffective (fun _ => default) duplicateOrder := by
  intro h
  have hnone := (h (duplicateOrder.take 2) (cancelCommand 1 1) [] [] rfl rfl (fun _ h => by cases h)).1
  revert hnone
  decide +kernel

section FreshKeys

def MapCovers (r : ReferenceBook) : Prop := ∀ o ∈ allOrders r, r.instances o.key = some o.sequence

variable {r : ReferenceBook}

theorem MapCovers.refreshed (h : MapCovers r) : MapCovers (refreshTops r) := h

theorem matched_instances (cmd : Command) : (matched cmd r).instances =
    if rests cmd r then Function.update (forget (walk cmd r).fills r.instances) cmd.key (some r.nextSequence)
    else forget (walk cmd r).fills r.instances := by
  rw [matched]
  split_ifs
  · rw [← traded_nextSequence cmd r]
    rfl
  · rfl

theorem forget_keeps (h : CoreInvariant r) (hc : MapCovers r) (cmd : Command) {o : Order}
    (ho : o ∈ allOrders r)
    (hgone : ∀ f ∈ (walk cmd r).fills, f.item.quantity = 0 → o.sequence ≠ f.item.sequence) :
    forget (walk cmd r).fills r.instances o.key = some o.sequence := by
  rw [forget_apply, if_neg, hc o ho]
  rintro ⟨f, hf, hz, hk⟩
  obtain ⟨p, hp, hpk, hps⟩ := fill_rested h cmd hf
  have hcp := hc p ((mem_allOrders cmd.side).mpr (Or.inr hp))
  rw [hpk, hk, hc o ho] at hcp
  exact hgone f hf hz ((Option.some.inj hcp).trans hps)

theorem matched_keeps (h : CoreInvariant r) (hc : MapCovers r) {cmd : Command}
    (hfresh : ∀ o ∈ allOrders r, o.key ≠ cmd.key) {o : Order} (ho : o ∈ allOrders r)
    (hgone : ∀ f ∈ (walk cmd r).fills, f.item.quantity = 0 → o.sequence ≠ f.item.sequence) :
    (matched cmd r).instances o.key = some o.sequence := by
  rw [matched_instances]
  split_ifs
  · rw [Function.update_of_ne (hfresh o ho)]
    exact forget_keeps h hc cmd ho hgone
  · exact forget_keeps h hc cmd ho hgone

theorem matched_keeps_own (h : CoreInvariant r) (hc : MapCovers r) {cmd : Command}
    (hfresh : ∀ o ∈ allOrders r, o.key ≠ cmd.key) {o : Order}
    (ho : o ∈ resting (sideLevels r cmd.side)) :
    (matched cmd r).instances o.key = some o.sequence := by
  apply matched_keeps h hc hfresh ((mem_allOrders cmd.side).mpr (Or.inl ho))
  intro f hf _ he
  obtain ⟨p, hp, _, hps⟩ := fill_rested h cmd hf
  exact h.one_side ho hp (he.trans hps.symm)

theorem matched_covers (h : CoreInvariant r) (hc : MapCovers r) {cmd : Command}
    (hfresh : ∀ o ∈ allOrders r, o.key ≠ cmd.key) : MapCovers (matched cmd r) := by
  intro o ho
  rcases mem_matched h ho with ⟨hr, rfl⟩ | ho | ⟨ho, p, hp, he⟩
  · rw [matched_instances, if_pos hr]
    exact Function.update_self ..
  · exact matched_keeps_own h hc hfresh ho
  · have hgone := fun f hf hz => walk_filled_gone (within cmd.side cmd) cmd.userId cmd.quantity
      (h.side_nodup cmd.side.opposite) (f := f) hf hz o ho
    have hpa : p ∈ allOrders r := (mem_allOrders cmd.side).mpr (Or.inr hp)
    rw [he] at hgone ⊢
    have hkept := matched_keeps h hc hfresh hpa hgone
    exact hkept

theorem cancelled_covers (h : CoreInvariant r) (hc : MapCovers r) (key : OrderKey) :
    MapCovers (cancelled key r) := by
  cases hk : r.instances key with
  | none => rwa [cancelled, hk]
  | some n =>
      intro o ho
      rw [allOrders_cancelled h hk] at ho
      have hne : o.sequence ≠ n := by simpa using List.of_mem_filter ho
      have hco := hc o (List.mem_of_mem_filter ho)
      have hkey : o.key ≠ key := by
        intro he
        rw [he, hk] at hco
        exact hne (Option.some.inj hco).symm
      simp only [cancelled, hk]
      rw [Function.update_of_ne hkey, hco]

/-- No new order of the run has a key that rests in its symbol's book. -/
def FreshKeys (v : Nat → VisitOrder) (cmds : List Command) : Prop :=
  ∀ pre c post, cmds = pre ++ c :: post → c.type = .newOrder →
    KeyAbsent c.key (bookOf c.symbol (engineAfter v pre).books)

theorem processNewOrder_covers {b : SymbolOrderbook} (h : Represents b) (hc : MapCovers (deref b))
    {cmd : Command} (hfresh : KeyAbsent cmd.key b) : MapCovers (deref (processNewOrder cmd b).1) := by
  rw [deref_newOrder h]
  exact (matched_covers h.book.toCoreInvariant hc (keyAbsent_iff.mp hfresh)).refreshed

theorem processCancel_covers {b : SymbolOrderbook} (h : Represents b) (hc : MapCovers (deref b))
    (cmd : Command) : MapCovers (deref (processCancel cmd b).1) := by
  rw [deref_cancel h]
  exact (cancelled_covers h.book.toCoreInvariant hc cmd.key).refreshed

def EngineCovers (e : MatchingEngine) : Prop :=
  ∀ entry ∈ e.books, Represents entry.2 ∧ MapCovers (deref entry.2)

theorem processCommand_covers {e : MatchingEngine} (hc : EngineCovers e) (v : VisitOrder) (cmd : Command)
    (hfresh : cmd.type = .newOrder → KeyAbsent cmd.key (bookOf cmd.symbol e.books)) :
    EngineCovers (processCommand v cmd e).1 := by
  refine (processCommand_preserves (P := fun b => Represents b ∧ MapCovers (deref b))
    (Q := fun _ => True) v cmd ⟨represents_empty, fun _ h => by cases h⟩ ?_ ?_ hc).1
  · rintro ht ⟨hb, hm⟩
    exact ⟨⟨call_represents _ (.processNewOrder cmd) hb, processNewOrder_covers hb hm (hfresh ht)⟩,
      fun _ _ => trivial⟩
  · rintro b ⟨hb, hm⟩
    exact ⟨⟨call_represents b (.processCancel cmd) hb, processCancel_covers hb hm cmd⟩,
      fun _ _ => trivial⟩

theorem covers_of_fresh {v : Nat → VisitOrder} {cmds : List Command} (hfresh : FreshKeys v cmds) :
    ∀ pre, pre <+: cmds → EngineCovers (engineAfter v pre) := by
  rintro pre ⟨post, rfl⟩
  refine final_preserves_of (engineStep v) (fun s => EngineCovers s.2)
    (fun s c => c.type = .newOrder → KeyAbsent c.key (bookOf c.symbol s.2.books)) ?_ pre engineStart ?_ ?_
  · exact fun s c hc hf => processCommand_covers hc (v s.1) c hf
  · exact fun _ h => by cases h
  · rintro front c back rfl
    exact hfresh front c (back ++ post) (by simp)

/-- Where clients keep their keys unique among resting orders, every cancel is effective. -/
theorem cancels_effective_of_fresh {v : Nat → VisitOrder} {cmds : List Command}
    (hfresh : FreshKeys v cmds) : CancelsEffective v cmds := by
  apply cancels_effective_of_covered
  intro pre c post hcmds _ entry hentry it hit hk
  have hcov := (covers_of_fresh hfresh pre ⟨c :: post, hcmds.symm⟩ entry hentry).2
  have hi := hcov _ (get_mem_allOrders hit)
  rw [show (get entry.2.slotPool it).key = c.key from hk] at hi
  exact (instances_iff (engine_invariant v pre entry hentry) hit).mp hi

end FreshKeys

end Orderbook.CancelEffect

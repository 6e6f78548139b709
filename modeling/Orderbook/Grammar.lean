import Orderbook.CommandParser

namespace Orderbook.Grammar

open Domain Library.Numerals StringUtil CommandParser

/-- The lines of the input format with integers of any size. A price is not negative, a
quantity is positive. -/
def grammar : List Text → Option Command
  | [['F']] => some { type := .flush }
  | [['C'], userId, userOrderId] => do
      let userId ← wholeInteger userId
      let userOrderId ← wholeInteger userOrderId
      return cancelCommand userId userOrderId
  | [['N'], userId, symbol, price, quantity, side, userOrderId] => do
      let userId ← wholeInteger userId
      let price ← (wholeInteger price).filter (0 ≤ ·)
      let quantity ← (wholeInteger quantity).filter (0 < ·)
      let side ← sideField side
      let userOrderId ← wholeInteger userOrderId
      return newOrderCommand symbol side userId userOrderId price quantity
  | _ => none

def InGrammar (line : Text) : Prop := (grammar (lineFields line)).isSome

instance (line : Text) : Decidable (InGrammar line) :=
  inferInstanceAs (Decidable (_ = true))

structure AcceptsGrammarOnly (line : Text) : Prop where
  exact_values : ∀ cmd, parseLineToCommand line = .ok cmd → cmd.type ≠ .invalid →
    grammar (lineFields line) = some cmd
  otherwise_invalid : ¬ InGrammar line →
    ∃ cmd, parseLineToCommand line = .ok cmd ∧ cmd.type = .invalid

theorem wholeInteger_ne_nil {n : Int} {field : Text} (h : wholeInteger field = some n) : field ≠ [] := by
  rintro rfl
  exact absurd h (by simp [wholeInteger, splitSign, signed])

theorem convert_exact {bound n m : Int} {field : Text} (hw : wholeInteger field = some n)
    (hc : convert bound field = .ok m) : m = n := by
  rw [convert, leadingInteger_of_whole hw] at hc
  simp only at hc
  split_ifs at hc
  exact (Except.ok.inj hc).symm

theorem parseCancel_exact {userId userOrderId : Text} {u o : Int} {cmd : Command}
    (hu : wholeInteger userId = some u) (ho : wholeInteger userOrderId = some o)
    (h : parseCancel [userId, userOrderId] = .ok cmd) : cmd = cancelCommand u o := by
  obtain ⟨_, _, u', o', hf, hu', ho', rfl⟩ := parseCancel_accepts rfl h
  cases hf
  rw [convert_exact hu hu', convert_exact ho ho']

theorem parseNewOrder_exact {userId symbol price quantity side userOrderId : Text} {u p q o : Int}
    {s : Side} {cmd : Command} (hu : wholeInteger userId = some u) (hp : wholeInteger price = some p)
    (hq : wholeInteger quantity = some q) (hs : sideField side = some s)
    (ho : wholeInteger userOrderId = some o)
    (h : parseNewOrder [userId, symbol, price, quantity, side, userOrderId] = .ok cmd) :
    cmd = newOrderCommand symbol s u o p q := by
  obtain ⟨_, _, _, _, _, _, u', p', q', o', hf, hu', hp', hq', ho', rfl⟩ := parseNewOrder_accepts rfl h
  cases hf
  rw [convert_exact hu hu', convert_exact hp hp', convert_exact hq hq', convert_exact ho ho',
    readSide_sideField hs]

theorem grammar_cases {fields : List Text} {cmd : Command} (h : grammar fields = some cmd) :
    fields = [['F']] ∧ cmd = { type := .flush } ∨
    (∃ userId userOrderId u o, fields = [['C'], userId, userOrderId] ∧
      wholeInteger userId = some u ∧ wholeInteger userOrderId = some o ∧ cmd = cancelCommand u o) ∨
    ∃ userId symbol price quantity side userOrderId u p q s o,
      fields = [['N'], userId, symbol, price, quantity, side, userOrderId] ∧
      wholeInteger userId = some u ∧ wholeInteger price = some p ∧ wholeInteger quantity = some q ∧
      sideField side = some s ∧ wholeInteger userOrderId = some o ∧
      cmd = newOrderCommand symbol s u o p q := by
  rw [grammar.eq_def] at h
  split at h
  · exact Or.inl ⟨rfl, (Option.some.inj h).symm⟩
  · obtain ⟨u, hu, h⟩ := Option.bind_eq_some_iff.mp h
    obtain ⟨o, ho, h⟩ := Option.bind_eq_some_iff.mp h
    exact Or.inr (Or.inl ⟨_, _, u, o, rfl, hu, ho, (Option.some.inj h).symm⟩)
  · obtain ⟨u, hu, h⟩ := Option.bind_eq_some_iff.mp h
    obtain ⟨p, hp, h⟩ := Option.bind_eq_some_iff.mp h
    obtain ⟨q, hq, h⟩ := Option.bind_eq_some_iff.mp h
    obtain ⟨s, hs, h⟩ := Option.bind_eq_some_iff.mp h
    obtain ⟨o, ho, h⟩ := Option.bind_eq_some_iff.mp h
    have hp' := (Option.filter_eq_some_iff.mp hp).1
    have hq' := (Option.filter_eq_some_iff.mp hq).1
    exact Or.inr (Or.inr ⟨_, _, _, _, _, _, u, p, q, s, o, rfl, hu, hp', hq', hs, ho,
      (Option.some.inj h).symm⟩)
  · cases h

theorem parse_exact {line : Text} {cmd parsed : Command} (hg : grammar (lineFields line) = some cmd)
    (h : parseLineToCommand line = .ok parsed) : parsed = cmd := by
  rcases grammar_cases hg with ⟨hf, rfl⟩ | ⟨userId, userOrderId, u, o, hf, hu, ho, rfl⟩ |
    ⟨userId, symbol, price, quantity, side, userOrderId, u, p, q, s, o, hf, hu, hp, hq, hs, ho, rfl⟩
  · have ht : splitCsv line = [] ++ [['F']] := splitCsv_eq (List.cons_ne_nil _ _) hf
    rw [parseLineToCommand, ht] at h
    exact (Except.ok.inj h).symm
  · have ht : splitCsv line = [['C'], userId] ++ [userOrderId] :=
      splitCsv_eq (wholeInteger_ne_nil ho) hf
    rw [parseLineToCommand, ht] at h
    exact parseCancel_exact hu ho h
  · have ht : splitCsv line = [['N'], userId, symbol, price, quantity, side] ++ [userOrderId] :=
      splitCsv_eq (wholeInteger_ne_nil ho) hf
    rw [parseLineToCommand, ht] at h
    exact parseNewOrder_exact hu hp hq hs ho h

/-- The parser accepts nothing but its grammar on a line exactly when the line is in the
grammar or the tests of the tag and of the number of tokens turn it away. -/
theorem acceptsGrammarOnly_iff (line : Text) :
    AcceptsGrammarOnly line ↔ InGrammar line ∨ ¬ Recognised (splitCsv line) := by
  constructor
  · intro h
    by_contra hcon
    rw [not_or, not_not] at hcon
    obtain ⟨cmd, hp, hi⟩ := h.otherwise_invalid hcon.1
    exact parse_accepts hcon.2 hp hi
  · rintro (hg | hr)
    · obtain ⟨cmd, hg⟩ := Option.isSome_iff_exists.mp hg
      refine ⟨fun parsed hp _ => ?_, fun hn => absurd (Option.isSome_iff_exists.mpr ⟨cmd, hg⟩) hn⟩
      rw [parse_exact hg hp, hg]
    · refine ⟨fun parsed hp hi => ?_, fun _ => ⟨{}, parse_rejects hr, rfl⟩⟩
      rw [parse_rejects hr] at hp
      exact absurd (Except.ok.inj hp ▸ rfl) hi

def fractionalPrice : Text :=
  ['N', ',', '1', ',', 'X', ',', '0', '.', '5', ',', '9', ',', 'B', ',', '1']

theorem fraction_accepted : ¬ ∀ line, AcceptsGrammarOnly line := by
  intro h
  have hp : parseLineToCommand fractionalPrice = .ok (newOrderCommand ['X'] .buy 1 1 0 9) := by
    decide +kernel
  have hg := (h fractionalPrice).exact_values _ hp CommandType.noConfusion
  revert hg
  decide +kernel

end Orderbook.Grammar

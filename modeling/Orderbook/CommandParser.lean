import Orderbook.StringUtil
import Mathlib.Algebra.Ring.Int.Defs

namespace Orderbook.CommandParser

open Domain Library.Numerals StringUtil

inductive ConversionError
  | invalidArgument
  | outOfRange
  deriving DecidableEq

/-- The leading integer of a token, if the token has one and it lies in the range of
the type. What follows the integer is ignored. -/
def convert (bound : Int) (token : Text) : Except ConversionError Int :=
  match leadingInteger token with
  | none => .error .invalidArgument
  | some n => if -bound ≤ n ∧ n < bound then .ok n else .error .outOfRange

def stoi (token : Text) : Except ConversionError Int := convert (2 ^ 31) token

def stoll (token : Text) : Except ConversionError Int := convert (2 ^ 63) token

/-- The `N` branch. The tag is not among the fields, so seven tokens are six fields. -/
def parseNewOrder : List Text → Except ConversionError Command
  | [userId, symbol, price, quantity, side, userOrderId] => do
      let userId ← stoi userId
      let price ← stoll price
      let quantity ← stoll quantity
      let userOrderId ← stoi userOrderId
      return newOrderCommand symbol (if side = ['S'] then .sell else .buy) userId userOrderId
        price quantity
  | _ => .ok {}

def parseCancel : List Text → Except ConversionError Command
  | [userId, userOrderId] => do
      let userId ← stoi userId
      let userOrderId ← stoi userOrderId
      return cancelCommand userId userOrderId
  | _ => .ok {}

/-- An error stands for the exception that leaves the function. -/
def parseLineToCommand (line : Text) : Except ConversionError Command :=
  match splitCsv line with
  | [] => .ok {}
  | tag :: fields =>
      if tag = ['F'] then .ok { type := .flush }
      else if tag = ['N'] then parseNewOrder fields
      else if tag = ['C'] then parseCancel fields
      else .ok {}

section Grammar

def lineFields (line : Text) : List Text := (line.splitOn ',').map trim

def integerField (lo hi : Int) (field : Text) : Option Int :=
  (wholeInteger field).filter fun n => lo ≤ n ∧ n < hi

def intField (field : Text) : Option Int := integerField (-2 ^ 31) (2 ^ 31) field

def sideField (field : Text) : Option Side :=
  if field = ['B'] then some .buy else if field = ['S'] then some .sell else none

/-- The documented input format: the command that the fields of a line stand for. -/
def documented : List Text → Option Command
  | [['F']] => some { type := .flush }
  | [['C'], userId, userOrderId] => do
      let userId ← intField userId
      let userOrderId ← intField userOrderId
      return cancelCommand userId userOrderId
  | [['N'], userId, symbol, price, quantity, side, userOrderId] => do
      let userId ← intField userId
      let price ← integerField 0 (2 ^ 63) price
      let quantity ← integerField 1 (2 ^ 63) quantity
      let side ← sideField side
      let userOrderId ← intField userOrderId
      return newOrderCommand symbol side userId userOrderId price quantity
  | _ => none

def WellFormed (line : Text) : Prop := (documented (lineFields line)).isSome

instance (line : Text) : Decidable (WellFormed line) :=
  inferInstanceAs (Decidable (_ = true))

end Grammar

theorem integerField_eq_some {lo hi n : Int} {field : Text} :
    integerField lo hi field = some n ↔ wholeInteger field = some n ∧ lo ≤ n ∧ n < hi := by
  rw [integerField, Option.filter_eq_some_iff]
  simp

theorem integerField_ne_nil {lo hi n : Int} {field : Text} (h : integerField lo hi field = some n) :
    field ≠ [] := by
  rintro rfl
  exact absurd (integerField_eq_some.mp h).1 (by simp [wholeInteger, splitSign, signed])

theorem convert_integerField {lo hi bound n : Int} {field : Text} (hlo : -bound ≤ lo)
    (hhi : hi ≤ bound) (h : integerField lo hi field = some n) : convert bound field = .ok n := by
  obtain ⟨hw, hl, hr⟩ := integerField_eq_some.mp h
  rw [convert, leadingInteger_of_whole hw]
  exact if_pos ⟨Int.le_trans hlo hl, Int.lt_of_lt_of_le hr hhi⟩

theorem stoi_intField {n : Int} {field : Text} (h : intField field = some n) : stoi field = .ok n :=
  convert_integerField (Int.le_refl _) (Int.le_refl _) h

theorem stoll_integerField {lo n : Int} {field : Text} (hlo : 0 ≤ lo)
    (h : integerField lo (2 ^ 63) field = some n) : stoll field = .ok n :=
  convert_integerField (Int.le_trans (by decide) hlo) (Int.le_refl _) h

theorem readSide_sideField {side : Side} {field : Text} (h : sideField field = some side) :
    (if field = ['S'] then Side.sell else Side.buy) = side := by
  rw [sideField] at h
  split_ifs at h with hb hs
  · rw [hb, ← Option.some.inj h]
    rfl
  · rw [if_pos hs, ← Option.some.inj h]

theorem documented_cases {fields : List Text} {cmd : Command} (h : documented fields = some cmd) :
    fields = [['F']] ∧ cmd = { type := .flush } ∨
    (∃ userId userOrderId u o, fields = [['C'], userId, userOrderId] ∧
      intField userId = some u ∧ intField userOrderId = some o ∧ cmd = cancelCommand u o) ∨
    ∃ userId symbol price quantity side userOrderId u p q s o,
      fields = [['N'], userId, symbol, price, quantity, side, userOrderId] ∧
      intField userId = some u ∧ integerField 0 (2 ^ 63) price = some p ∧
      integerField 1 (2 ^ 63) quantity = some q ∧ sideField side = some s ∧
      intField userOrderId = some o ∧ cmd = newOrderCommand symbol s u o p q := by
  rw [documented.eq_def] at h
  split at h
  · exact Or.inl ⟨rfl, (Option.some.inj h).symm⟩
  · obtain ⟨u, hu, h⟩ := Option.bind_eq_some_iff.mp h
    obtain ⟨o, ho, h⟩ := Option.bind_eq_some_iff.mp h
    exact Or.inr (Or.inl ⟨_, _, u, o, rfl, hu, ho, (Option.some.inj h).symm⟩)
  · obtain ⟨u, hu, h⟩ := Option.bind_eq_some_iff.mp h
    obtain ⟨p, hp, h⟩ := Option.bind_eq_some_iff.mp h
    obtain ⟨q, hq, h⟩ := Option.bind_eq_some_iff.mp h
    obtain ⟨s, hs, h⟩ := Option.bind_eq_some_iff.mp h
    obtain ⟨o, ho, h⟩ := Option.bind_eq_some_iff.mp h
    exact Or.inr (Or.inr ⟨_, _, _, _, _, _, u, p, q, s, o, rfl, hu, hp, hq, hs, ho,
      (Option.some.inj h).symm⟩)
  · cases h

theorem parse_documented {line : Text} {cmd : Command}
    (h : documented (lineFields line) = some cmd) : parseLineToCommand line = .ok cmd := by
  rcases documented_cases h with ⟨hf, rfl⟩ | ⟨userId, userOrderId, u, o, hf, hu, ho, rfl⟩ |
    ⟨userId, symbol, price, quantity, side, userOrderId, u, p, q, s, o, hf, hu, hp, hq, hs, ho, rfl⟩
  · have ht : splitCsv line = [] ++ [['F']] := splitCsv_eq (by simp) hf
    rw [parseLineToCommand, ht]
    rfl
  · have ht : splitCsv line = [['C'], userId] ++ [userOrderId] :=
      splitCsv_eq (integerField_ne_nil ho) hf
    rw [parseLineToCommand, ht]
    change parseCancel [userId, userOrderId] = _
    rw [parseCancel, stoi_intField hu, stoi_intField ho]
    rfl
  · have ht : splitCsv line = [['N'], userId, symbol, price, quantity, side] ++ [userOrderId] :=
      splitCsv_eq (integerField_ne_nil ho) hf
    rw [parseLineToCommand, ht]
    change parseNewOrder [userId, symbol, price, quantity, side, userOrderId] = _
    rw [parseNewOrder, stoi_intField hu, stoll_integerField (Int.le_refl 0) hp,
      stoll_integerField (by decide) hq, stoi_intField ho, readSide_sideField hs]
    rfl

section Rejection

/-- The tokens on which the parser goes past its tests of the tag and of the number of
tokens. -/
def Recognised : List Text → Prop
  | [] => False
  | tag :: fields =>
      tag = ['F'] ∨ tag = ['N'] ∧ fields.length = 6 ∨ tag = ['C'] ∧ fields.length = 2

instance : (tokens : List Text) → Decidable (Recognised tokens)
  | [] => inferInstanceAs (Decidable False)
  | _ :: _ => inferInstanceAs (Decidable (_ ∨ _))

theorem parseNewOrder_rejects {fields : List Text} (h : fields.length ≠ 6) :
    parseNewOrder fields = .ok {} := by
  rw [parseNewOrder.eq_def]
  split
  · exact absurd rfl h
  · rfl

theorem parseCancel_rejects {fields : List Text} (h : fields.length ≠ 2) :
    parseCancel fields = .ok {} := by
  rw [parseCancel.eq_def]
  split
  · exact absurd rfl h
  · rfl

theorem parse_rejects {line : Text} (h : ¬ Recognised (splitCsv line)) :
    parseLineToCommand line = .ok {} := by
  rw [parseLineToCommand]
  split
  · rfl
  · rename_i tag fields ht
    rw [ht, Recognised, not_or, not_or] at h
    obtain ⟨hF, hN, hC⟩ := h
    rw [if_neg hF]
    split_ifs with hn hc
    · exact parseNewOrder_rejects fun hl => hN ⟨hn, hl⟩
    · exact parseCancel_rejects fun hl => hC ⟨hc, hl⟩
    · rfl

theorem bind_eq_ok {ε α β : Type} {x : Except ε α} {f : α → Except ε β} {b : β}
    (h : (x >>= f) = .ok b) : ∃ a, x = .ok a ∧ f a = .ok b := by
  cases x with
  | error e => cases h
  | ok a => exact ⟨a, rfl, h⟩

theorem parseNewOrder_accepts {fields : List Text} {cmd : Command} (hl : fields.length = 6)
    (h : parseNewOrder fields = .ok cmd) :
    ∃ userId symbol price quantity side userOrderId u p q o,
      fields = [userId, symbol, price, quantity, side, userOrderId] ∧
      stoi userId = .ok u ∧ stoll price = .ok p ∧ stoll quantity = .ok q ∧
      stoi userOrderId = .ok o ∧
      cmd = newOrderCommand symbol (if side = ['S'] then .sell else .buy) u o p q := by
  match fields, hl with
  | [_, _, _, _, _, _], _ =>
      obtain ⟨u, hu, h⟩ := bind_eq_ok h
      obtain ⟨p, hp, h⟩ := bind_eq_ok h
      obtain ⟨q, hq, h⟩ := bind_eq_ok h
      obtain ⟨o, ho, h⟩ := bind_eq_ok h
      exact ⟨_, _, _, _, _, _, u, p, q, o, rfl, hu, hp, hq, ho, (Except.ok.inj h).symm⟩

theorem parseCancel_accepts {fields : List Text} {cmd : Command} (hl : fields.length = 2)
    (h : parseCancel fields = .ok cmd) :
    ∃ userId userOrderId u o, fields = [userId, userOrderId] ∧ stoi userId = .ok u ∧
      stoi userOrderId = .ok o ∧ cmd = cancelCommand u o := by
  match fields, hl with
  | [_, _], _ =>
      obtain ⟨u, hu, h⟩ := bind_eq_ok h
      obtain ⟨o, ho, h⟩ := bind_eq_ok h
      exact ⟨_, _, u, o, rfl, hu, ho, (Except.ok.inj h).symm⟩

theorem parse_accepts {line : Text} {cmd : Command} (hr : Recognised (splitCsv line))
    (h : parseLineToCommand line = .ok cmd) : cmd.type ≠ .invalid := by
  rw [parseLineToCommand] at h
  cases ht : splitCsv line with
  | nil =>
      rw [ht] at hr
      exact absurd hr (by simp [Recognised])
  | cons tag fields =>
      rw [ht] at h hr
      rcases hr with rfl | ⟨rfl, hl⟩ | ⟨rfl, hl⟩
      · cases h
        exact CommandType.noConfusion
      · obtain ⟨_, _, _, _, _, _, _, _, _, _, _, _, _, _, _, rfl⟩ := parseNewOrder_accepts hl h
        exact CommandType.noConfusion
      · obtain ⟨_, _, _, _, _, _, _, rfl⟩ := parseCancel_accepts hl h
        exact CommandType.noConfusion

end Rejection

section Contract

def bufferSize : Nat := 4096

def inputLines (datagram : Text) : List Text :=
  ((getlines '\n' (datagram.take bufferSize)).map trim).filter (· ≠ [])

def ParsesSafely (line : Text) : Prop :=
  ∃ cmd, parseLineToCommand line = .ok cmd ∧ (¬ WellFormed line → cmd.type = .invalid)

theorem parsesSafely_iff (line : Text) :
    ParsesSafely line ↔ WellFormed line ∨ ¬ Recognised (splitCsv line) := by
  constructor
  · rintro ⟨cmd, hp, hi⟩
    by_contra hcon
    rw [not_or, not_not] at hcon
    exact parse_accepts hcon.2 hp (hi hcon.1)
  · rintro (hw | hr)
    · obtain ⟨cmd, hd⟩ := Option.isSome_iff_exists.mp hw
      exact ⟨cmd, parse_documented hd, fun hn => absurd hw hn⟩
    · exact ⟨{}, parse_rejects hr, fun _ => rfl⟩

theorem line_escapes :
    ¬ ∀ datagram, ∀ line ∈ inputLines datagram, ParsesSafely line := by
  intro h
  have hs := h ['C', ',', ' ', '1', ',', ' ', 'x', '\n'] ['C', ',', ' ', '1', ',', ' ', 'x']
    (by decide +kernel)
  obtain ⟨cmd, hp, -⟩ := hs
  have he : parseLineToCommand ['C', ',', ' ', '1', ',', ' ', 'x'] = .error .invalidArgument := by
    decide +kernel
  cases he.symm.trans hp

end Contract

end Orderbook.CommandParser

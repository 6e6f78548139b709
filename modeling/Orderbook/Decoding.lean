import Orderbook.Encoding
import Orderbook.EndToEnd

namespace Orderbook.Decoding

open Domain Engine CommandParser Threads Agreement Rendering Encoding StringUtil
open Library.Numerals Library.Runs

inductive Message
  | ack (userId userOrderId : Int)
  | cancelAck (userId userOrderId : Int)
  | trade (buyUserId buyUserOrderId sellUserId sellUserOrderId price quantity : Int)
  | top (side : Side) (best : Option (Int × Int))
  deriving DecidableEq

def message : OutputLine → Message
  | .ack userId userOrderId => .ack userId userOrderId
  | .cancelAck userId userOrderId => .cancelAck userId userOrderId
  | .trade buy sell tradePrice tradeQty =>
      .trade buy.userId buy.userOrderId sell.userId sell.userOrderId tradePrice tradeQty
  | .top side tob => .top side (if tob.valid then some (tob.price, tob.totalQuantity) else none)

def decodeBest (price quantity : Text) : Option (Option (Int × Int)) :=
  if price = ['-'] ∧ quantity = ['-'] then some none
  else do
    let price ← wholeInteger price
    let quantity ← wholeInteger quantity
    return some (price, quantity)

def decodeSide (side : Text) : Option Side :=
  if side = ['B'] then some .buy else if side = ['S'] then some .sell else none

/-- A reader of the standard output. -/
def decode (line : Text) : Option Message :=
  match lineFields line with
  | [['A'], userId, userOrderId] => do
      return .ack (← wholeInteger userId) (← wholeInteger userOrderId)
  | [['C'], userId, userOrderId] => do
      return .cancelAck (← wholeInteger userId) (← wholeInteger userOrderId)
  | [['T'], buyUserId, buyUserOrderId, sellUserId, sellUserOrderId, price, quantity] => do
      return .trade (← wholeInteger buyUserId) (← wholeInteger buyUserOrderId) (← wholeInteger sellUserId)
        (← wholeInteger sellUserOrderId) (← wholeInteger price) (← wholeInteger quantity)
  | [['B'], side, price, quantity] => do
      return .top (← decodeSide side) (← decodeBest price quantity)
  | _ => none

section Lines

theorem plain_decimal (n : Int) : Plain (decimal n) := ⟨decimal_comma n, decimal_trim n⟩

theorem lineFields_plain {field : Text} (h : Plain field) : lineFields field = [field] := by
  rw [lineFields, List.splitOn_eq_singleton h.1, List.map_singleton, h.2]

theorem lineFields_comma {field : Text} (h : Plain field) (rest : Text) :
    lineFields (field ++ (comma ++ rest)) = field :: lineFields rest := by
  have hblank : ∀ c ∈ [' '], isSpace c = true := List.forall_mem_singleton.mpr rfl
  rw [← lineFields_blank_append hblank rest, lineFields]
  change ((field ++ ',' :: (' ' :: rest)).splitOn ',').map trim = _
  rw [List.splitOn_append_cons_self_of_not_mem h.1, List.map_cons, h.2]
  rfl

theorem decodeBest_decimal (price quantity : Int) :
    decodeBest (decimal price) (decimal quantity) = some (some (price, quantity)) := by
  rw [decodeBest, if_neg (fun h => decimal_ne_dash price h.1), wholeInteger_decimal, wholeInteger_decimal]
  rfl

theorem decodeSide_sideTag (side : Side) : decodeSide (sideTag side) = some side := by
  cases side <;> rfl

theorem plain_sideTag (side : Side) : Plain (sideTag side) := by
  cases side <;> exact ⟨by decide, by decide⟩

theorem decode_render (line : OutputLine) : decode (render line) = some (message line) := by
  cases line with
  | ack userId userOrderId =>
      have hfields : lineFields (render (.ack userId userOrderId)) =
          [['A'], decimal userId, decimal userOrderId] := by
        simp only [render, List.append_assoc]
        rw [lineFields_comma ⟨by decide, by decide⟩, lineFields_comma (plain_decimal _),
          lineFields_plain (plain_decimal _)]
      rw [decode, hfields]
      simp only [wholeInteger_decimal]
      rfl
  | cancelAck userId userOrderId =>
      have hfields : lineFields (render (.cancelAck userId userOrderId)) =
          [['C'], decimal userId, decimal userOrderId] := by
        simp only [render, List.append_assoc]
        rw [lineFields_comma ⟨by decide, by decide⟩, lineFields_comma (plain_decimal _),
          lineFields_plain (plain_decimal _)]
      rw [decode, hfields]
      simp only [wholeInteger_decimal]
      rfl
  | trade buy sell tradePrice tradeQty =>
      have hfields : lineFields (render (.trade buy sell tradePrice tradeQty)) =
          [['T'], decimal buy.userId, decimal buy.userOrderId, decimal sell.userId,
            decimal sell.userOrderId, decimal tradePrice, decimal tradeQty] := by
        simp only [render, List.append_assoc]
        rw [lineFields_comma ⟨by decide, by decide⟩, lineFields_comma (plain_decimal _),
          lineFields_comma (plain_decimal _), lineFields_comma (plain_decimal _),
          lineFields_comma (plain_decimal _), lineFields_comma (plain_decimal _),
          lineFields_plain (plain_decimal _)]
      rw [decode, hfields]
      simp only [wholeInteger_decimal]
      rfl
  | top side tob =>
      have hfields : lineFields (render (.top side tob)) = ['B'] :: sideTag side :: lineFields (topFields tob) := by
        have htag : Plain ['B'] := ⟨by decide, by decide⟩
        rw [render_top, ← lineFields_comma (plain_sideTag side)]
        exact lineFields_comma htag _
      rw [decode, hfields, message, topFields]
      cases tob.valid with
      | false => cases side <;> rfl
      | true =>
          rw [if_pos rfl, if_pos rfl, List.append_assoc, lineFields_comma (plain_decimal _),
            lineFields_plain (plain_decimal _)]
          simp only [decodeSide_sideTag, decodeBest_decimal]
          rfl

theorem newline_not_decimal (n : Int) : '\n' ∉ decimal n := by
  intro hc
  rcases mem_toString hc with h | h
  · exact absurd h (by decide)
  · exact absurd h (by decide)

theorem newline_not_render (line : OutputLine) : '\n' ∉ render line := by
  have hcomma : '\n' ∉ comma := by decide
  have hside (side : Side) : '\n' ∉ sideTag side := by cases side <;> decide
  cases line with
  | ack userId userOrderId | cancelAck userId userOrderId =>
      simp [render, newline_not_decimal, hcomma]
  | trade buy sell tradePrice tradeQty => simp [render, newline_not_decimal, hcomma]
  | top side tob =>
      cases hv : tob.valid <;> simp [render, newline_not_decimal, hcomma, hside, hv]

end Lines

section Streams

def standardOutput (printed : List Text) : Text := printed.flatMap (· ++ ['\n'])

def decodeOutput (text : Text) : List (Option Message) := (getlines '\n' text).map decode

theorem getlines_line {line : Text} (h : '\n' ∉ line) (rest : Text) :
    getlines '\n' (line ++ '\n' :: rest) = line :: getlines '\n' rest := by
  induction line with
  | nil => rw [List.nil_append, getlines, if_pos rfl]
  | cons c line ih =>
      rw [List.mem_cons, not_or] at h
      rw [List.cons_append, getlines, if_neg (fun hc => h.1 hc.symm), ih h.2]

theorem decodeOutput_render (lines : List OutputLine) :
    decodeOutput (standardOutput (lines.map render)) = lines.map (fun line => some (message line)) := by
  induction lines with
  | nil => rfl
  | cons line lines ih =>
      rw [List.map_cons, standardOutput, List.flatMap_cons, List.append_assoc, List.singleton_append, decodeOutput,
        getlines_line (newline_not_render line), List.map_cons, List.map_cons, decode_render, ← ih]
      rfl

theorem printed_lines (step : Machine (Nat × MatchingEngine) Command OutputLine) (schedule : List Move) :
    ∃ lines, lines <+: output step engineStart (processAfterWith (mapOutput step render) schedule).pushed ∧
      (processAfterWith (mapOutput step render) schedule).printed = lines.map render ∧
      (Returned (processAfterWith (mapOutput step render) schedule) →
        lines = output step engineStart (processAfterWith (mapOutput step render) schedule).pushed) := by
  have hprinted := printedWith_begins (mapOutput step render) schedule
  rw [output_mapOutput, List.prefix_iff_eq_take, ← List.map_take] at hprinted
  refine ⟨_, List.take_prefix _ _, hprinted, fun hr => ?_⟩
  rw [printedWith_of_returned hr, output_mapOutput, List.length_map, List.take_length]

/-- A reader of the standard output gets, at every moment and under every interleaving, what the
engine has said to the first commands, message by message, and all it has said when the
threads have returned. -/
theorem output_decodes (v : Nat → VisitOrder) (schedule : List Move) :
    ∃ lines, lines <+: output (engineStep v) engineStart (processAfter v schedule).pushed ∧
      decodeOutput (standardOutput (processAfter v schedule).printed) =
        lines.map (fun line => some (message line)) ∧
      (Returned (processAfter v schedule) →
        lines = output (engineStep v) engineStart (processAfter v schedule).pushed) := by
  obtain ⟨lines, hbegins, hprinted, hall⟩ := printed_lines (engineStep v) schedule
  refine ⟨lines, hbegins, ?_, hall⟩
  change decodeOutput (standardOutput (processAfterWith (mapOutput (engineStep v) render) schedule).printed) = _
  rw [hprinted, decodeOutput_render]

end Streams

end Orderbook.Decoding

import Orderbook.CommandParser
import Orderbook.Rendering

namespace Orderbook.Encoding

open Domain Library.Numerals StringUtil CommandParser Rendering

structure Blank where
  text : Text
  blank : ∀ c ∈ text, isSpace c = true

structure Symbol where
  text : Text
  no_comma : ',' ∉ text
  no_leading : ∀ c, text.head? = some c → isSpace c = false
  no_trailing : ∀ c, text.getLast? = some c → isSpace c = false

structure Padding where
  before : Blank
  after : Blank

inductive Request
  | flush
  | cancel (userId userOrderId : Int32)
  | newOrder (userId : Int32) (symbol : Symbol) (price quantity : Int64) (side : Side)
      (userOrderId : Int32)

def Request.command : Request → Command
  | .flush => { type := .flush }
  | .cancel userId userOrderId => cancelCommand userId.toInt userOrderId.toInt
  | .newOrder userId symbol price quantity side userOrderId =>
      newOrderCommand symbol.text side userId.toInt userOrderId.toInt price.toInt quantity.toInt

def Request.fields : Request → List Text
  | .flush => [['F']]
  | .cancel userId userOrderId => [['C'], decimal userId.toInt, decimal userOrderId.toInt]
  | .newOrder userId symbol price quantity side userOrderId =>
      [['N'], decimal userId.toInt, symbol.text, decimal price.toInt, decimal quantity.toInt,
        sideTag side, decimal userOrderId.toInt]

def padded (p : Padding) (field : Text) : Text := p.before.text ++ field ++ p.after.text

/-- The line of a request, each field with white space of its own around it. -/
def encode (pads : Nat → Padding) (r : Request) : Text :=
  [','].intercalate (r.fields.mapIdx (fun i field => padded (pads i) field))

theorem comma_not_blank {s : Text} (h : ∀ c ∈ s, isSpace c = true) : ',' ∉ s :=
  fun hc => absurd (h ',' hc) (by decide)

theorem lineFields_blank_append {l : Text} (hl : ∀ c ∈ l, isSpace c = true) (s : Text) :
    lineFields (l ++ s) = lineFields s := by
  induction l with
  | nil => rfl
  | cons c l ih =>
      have hc := hl c List.mem_cons_self
      have hne : c ≠ ',' := fun he => comma_not_blank hl (he ▸ List.mem_cons_self)
      have htrim (t : Text) : trim (c :: t) = trim t :=
        trim_blank_append (l := [c]) (List.forall_mem_singleton.mpr hc) t
      rw [← ih (fun d hd => hl d (List.mem_cons_of_mem c hd)), List.cons_append, lineFields,
        List.splitOn_cons_eq_if_modifyHead, if_neg (by simpa using hne), lineFields]
      cases (l ++ s).splitOn ',' with
      | nil => rfl
      | cons t ts => rw [List.modifyHead_cons, List.map_cons, List.map_cons, htrim]

theorem splitOn_append_last {r : Text} (hr : ',' ∉ r) (s : Text) :
    ∃ front last, s.splitOn ',' = front ++ [last] ∧ (s ++ r).splitOn ',' = front ++ [last ++ r] := by
  obtain ⟨front, last, first, back, hs, hrest, hall⟩ := splitOn_append ',' s r
  rw [List.splitOn_eq_singleton hr] at hrest
  obtain ⟨rfl, rfl⟩ := List.cons.inj hrest
  exact ⟨front, last, hs, hall⟩

theorem lineFields_append_blank {r : Text} (hr : ∀ c ∈ r, isSpace c = true) (s : Text) :
    lineFields (s ++ r) = lineFields s := by
  obtain ⟨front, last, hs, hsr⟩ := splitOn_append_last (comma_not_blank hr) s
  rw [lineFields, lineFields, hs, hsr, List.map_append, List.map_append]
  simp only [List.map_singleton, trim_append_blank hr]

theorem lineFields_trim (s : Text) : lineFields (trim s) = lineFields s := by
  have hfront : lineFields (s.dropWhile isSpace) = lineFields s := by
    conv_rhs => rw [← List.takeWhile_append_dropWhile (p := isSpace) (l := s)]
    rw [lineFields_blank_append]
    exact fun c hc => List.mem_takeWhile_imp hc
  rw [← hfront, trim]
  conv_rhs => rw [← List.rdropWhile_append_rtakeWhile (p := isSpace) (l := s.dropWhile isSpace)]
  rw [lineFields_append_blank]
  exact fun c hc => List.mem_rtakeWhile_imp hc

theorem trim_padded (p : Padding) {field : Text} (h : trim field = field) : trim (padded p field) = field := by
  rw [padded, trim_append_blank p.after.blank, trim_blank_append p.before.blank, h]

theorem comma_not_padded (p : Padding) {field : Text} (h : ',' ∉ field) : ',' ∉ padded p field := by
  rw [padded, List.mem_append, List.mem_append, not_or, not_or]
  exact ⟨⟨comma_not_blank p.before.blank, h⟩, comma_not_blank p.after.blank⟩

theorem decimal_trim (n : Int) : trim (decimal n) = decimal n := by
  apply trim_eq_self
  · exact fun c hc => isSpace_of_mem_toString (List.mem_of_head? hc)
  · exact fun c hc => isSpace_of_mem_toString (List.mem_of_getLast? hc)

theorem convert_decimal {bound n : Int} (hlo : -bound ≤ n) (hhi : n < bound) :
    convert bound (decimal n) = .ok n := by
  rw [convert, leadingInteger_of_whole (wholeInteger_decimal n)]
  exact if_pos ⟨hlo, hhi⟩

theorem stoi_decimal (n : Int32) : stoi (decimal n.toInt) = .ok n.toInt :=
  convert_decimal n.le_toInt n.toInt_lt

theorem stoll_decimal (n : Int64) : stoll (decimal n.toInt) = .ok n.toInt :=
  convert_decimal n.le_toInt n.toInt_lt

def Plain (field : Text) : Prop := ',' ∉ field ∧ trim field = field

theorem fields_plain (r : Request) : ∀ field ∈ r.fields, Plain field := by
  have hnum (n : Int) : Plain (decimal n) := ⟨decimal_comma n, decimal_trim n⟩
  cases r with
  | flush =>
      rw [Request.fields, List.forall_mem_singleton]
      exact ⟨by decide, by decide⟩
  | cancel userId userOrderId =>
      simp only [Request.fields, List.forall_mem_cons]
      exact ⟨⟨by decide, by decide⟩, hnum _, hnum _, fun _ h => by cases h⟩
  | newOrder userId symbol price quantity side userOrderId =>
      have hsymbol : Plain symbol.text :=
        ⟨symbol.no_comma, trim_eq_self symbol.no_leading symbol.no_trailing⟩
      have hside : Plain (sideTag side) := by
        cases side
        · exact ⟨by decide, by decide⟩
        · exact ⟨by decide, by decide⟩
      simp only [Request.fields, List.forall_mem_cons]
      exact ⟨⟨by decide, by decide⟩, hnum _, hsymbol, hnum _, hnum _, hside, hnum _,
        fun _ h => by cases h⟩

theorem lineFields_intercalate {fields : List Text} (pads : Nat → Padding) (hne : fields ≠ [])
    (h : ∀ field ∈ fields, Plain field) :
    lineFields ([','].intercalate (fields.mapIdx (fun i field => padded (pads i) field))) = fields := by
  rw [lineFields, List.splitOn_intercalate]
  · apply List.ext_getElem
    · simp
    · intro i hi hj
      simp only [List.getElem_map, List.getElem_mapIdx]
      exact trim_padded (pads i) (h _ (List.getElem_mem hj)).2
  · intro piece hp
    obtain ⟨i, hi, rfl⟩ := List.mem_mapIdx.mp hp
    exact comma_not_padded (pads i) (h _ (List.getElem_mem hi)).1
  · simpa using hne

theorem splitCsv_encode (pads : Nat → Padding) (r : Request) :
    splitCsv (trim (encode pads r)) = r.fields := by
  have hfields : lineFields (trim (encode pads r)) = r.fields := by
    rw [lineFields_trim, encode]
    apply lineFields_intercalate pads
    · cases r <;> simp [Request.fields]
    · exact fields_plain r
  cases r with
  | flush => exact @splitCsv_eq _ [] _ (List.cons_ne_nil _ _) hfields
  | cancel userId userOrderId =>
      exact @splitCsv_eq _ [['C'], decimal userId.toInt] _ (decimal_ne_nil _) hfields
  | newOrder userId symbol price quantity side userOrderId =>
      exact @splitCsv_eq _ [['N'], decimal userId.toInt, symbol.text, decimal price.toInt,
        decimal quantity.toInt, sideTag side] _ (decimal_ne_nil _) hfields

/-- Whatever a client encodes, the parser reads back. -/
theorem parse_encode (pads : Nat → Padding) (r : Request) :
    parseLineToCommand (trim (encode pads r)) = .ok r.command := by
  rw [parseLineToCommand, splitCsv_encode]
  cases r with
  | flush => rfl
  | cancel userId userOrderId =>
      change parseCancel [decimal userId.toInt, decimal userOrderId.toInt] = _
      rw [parseCancel, stoi_decimal, stoi_decimal]
      rfl
  | newOrder userId symbol price quantity side userOrderId =>
      change parseNewOrder [decimal userId.toInt, symbol.text, decimal price.toInt,
        decimal quantity.toInt, sideTag side, decimal userOrderId.toInt] = _
      rw [parseNewOrder, stoi_decimal, stoll_decimal, stoll_decimal, stoi_decimal]
      cases side <;> rfl

end Orderbook.Encoding

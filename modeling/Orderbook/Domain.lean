import Mathlib.Data.List.Basic
import Mathlib.Order.Defs.Unbundled

namespace Orderbook.Domain

/-- A `std::string`, as the list of its characters. -/
abbrev Text := List Char

inductive Side
  | buy
  | sell
  deriving DecidableEq

inductive CommandType
  | newOrder
  | cancel
  | flush
  | invalid
  deriving DecidableEq

/-- A parsed input line. The numbers are exact integers; the parser keeps them
inside the ranges of `int` and `int64_t`. -/
structure Command where
  type : CommandType := .invalid
  userId : Int := 0
  symbol : Text := []
  price : Int := 0
  quantity : Int := 0
  side : Side := .buy
  userOrderId : Int := 0
  deriving DecidableEq

structure Order where
  userId : Int := 0
  userOrderId : Int := 0
  side : Side := .buy
  price : Int := 0
  quantity : Int := 0
  sequence : Nat := 0
  deriving DecidableEq

structure OrderKey where
  userId : Int
  userOrderId : Int
  deriving DecidableEq

structure TopOfBook where
  valid : Bool := false
  price : Int := 0
  totalQuantity : Int := 0
  deriving DecidableEq

def Order.key (o : Order) : OrderKey := ⟨o.userId, o.userOrderId⟩

def Command.key (cmd : Command) : OrderKey := ⟨cmd.userId, cmd.userOrderId⟩

def newOrderCommand (symbol : Text) (side : Side) (userId userOrderId price quantity : Int) : Command where
  type := .newOrder
  userId := userId
  symbol := symbol
  price := price
  quantity := quantity
  side := side
  userOrderId := userOrderId

def cancelCommand (userId userOrderId : Int) : Command where
  type := .cancel
  userId := userId
  userOrderId := userOrderId

/-- One line handed to `outputLines`, before it is formatted. A trade keeps the
two orders that `emitTrade` receives. -/
inductive OutputLine
  | ack (userId userOrderId : Int)
  | cancelAck (userId userOrderId : Int)
  | trade (buy sell : Order) (tradePrice tradeQty : Int)
  | top (side : Side) (tob : TopOfBook)
  deriving DecidableEq

def decimal (n : Int) : Text := (toString n).toList

def comma : Text := [',', ' ']

def sideTag : Side → Text
  | .buy => ['B']
  | .sell => ['S']

def render : OutputLine → Text
  | .ack userId userOrderId => ['A'] ++ comma ++ decimal userId ++ comma ++ decimal userOrderId
  | .cancelAck userId userOrderId =>
      ['C'] ++ comma ++ decimal userId ++ comma ++ decimal userOrderId
  | .trade buy sell tradePrice tradeQty =>
      ['T'] ++ comma ++ decimal buy.userId ++ comma ++ decimal buy.userOrderId ++ comma ++
        decimal sell.userId ++ comma ++ decimal sell.userOrderId ++ comma ++
        decimal tradePrice ++ comma ++ decimal tradeQty
  | .top side tob =>
      ['B'] ++ comma ++ sideTag side ++ comma ++
        if tob.valid then decimal tob.price ++ comma ++ decimal tob.totalQuantity
        else ['-'] ++ comma ++ ['-']

namespace Side

def opposite : Side → Side
  | .buy => .sell
  | .sell => .buy

/-- `s.ahead p q`: on side `s` a level of price `p` stands before one of price `q`.
Bids descend and asks ascend. -/
def ahead : Side → Int → Int → Prop
  | .buy, p, q => q < p
  | .sell, p, q => p < q

instance : (s : Side) → (p q : Int) → Decidable (s.ahead p q)
  | .buy, p, q => inferInstanceAs (Decidable (q < p))
  | .sell, p, q => inferInstanceAs (Decidable (p < q))

theorem ne_opposite (s : Side) : s ≠ s.opposite := by cases s <;> decide

theorem ahead_irrefl (s : Side) (p : Int) : ¬ s.ahead p p := by
  cases s <;> exact Int.lt_irrefl p

theorem ahead_trans (s : Side) {p q r : Int} (hpq : s.ahead p q) (hqr : s.ahead q r) :
    s.ahead p r := by
  cases s with
  | buy => exact Int.lt_trans hqr hpq
  | sell => exact Int.lt_trans hpq hqr

theorem ahead_trichotomy (s : Side) (p q : Int) : s.ahead p q ∨ p = q ∨ s.ahead q p := by
  cases s with
  | buy => simp only [ahead]; omega
  | sell => simp only [ahead]; omega

instance (s : Side) : IsStrictTotalOrder Int s.ahead where
  trichotomous p q hpq hqp := ((s.ahead_trichotomy p q).resolve_left hpq).resolve_right hqp
  irrefl := s.ahead_irrefl
  trans _ _ _ := s.ahead_trans

theorem ahead_asymm (s : Side) {p q : Int} (h : s.ahead p q) : ¬ s.ahead q p :=
  fun h' => s.ahead_irrefl p (s.ahead_trans h h')

theorem ne_of_ahead (s : Side) {p q : Int} (h : s.ahead p q) : p ≠ q := by
  rintro rfl
  exact s.ahead_irrefl p h

theorem nodup_of_ahead (s : Side) {prices : List Int} (h : prices.Pairwise s.ahead) : prices.Nodup :=
  h.imp s.ne_of_ahead

end Side

end Orderbook.Domain

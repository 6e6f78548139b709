import Orderbook.Ladder
import Orderbook.Library.Numerals

namespace Orderbook.Rendering

open Domain Ladder Library.Numerals

theorem decimal_comma (n : Int) : ',' ∉ decimal n := by
  intro hc
  rcases mem_toString hc with h | h
  · exact absurd h (by decide)
  · exact absurd h (by decide)

theorem wholeInteger_decimal (n : Int) : wholeInteger (decimal n) = some n := wholeInteger_toString n

theorem decimal_ne_nil (n : Int) : decimal n ≠ [] := by
  intro h
  have hw := wholeInteger_decimal n
  rw [h] at hw
  cases hw

theorem decimal_ne_dash (n : Int) : decimal n ≠ ['-'] := by
  intro h
  have hw := wholeInteger_decimal n
  rw [h] at hw
  cases hw

theorem decimal_injective : Function.Injective decimal := by
  intro m n h
  have hw := wholeInteger_decimal m
  rw [h, wholeInteger_decimal] at hw
  exact (Option.some.inj hw).symm

theorem fields_injective {a b x y : Text} (ha : ',' ∉ a) (hx : ',' ∉ x)
    (h : a ++ comma ++ x = b ++ comma ++ y) : a = b ∧ x = y := by
  simp only [comma, List.append_assoc, List.cons_append, List.nil_append] at h
  have hx' : ',' ∉ ' ' :: x := by
    rw [List.mem_cons, not_or]
    exact ⟨by decide, hx⟩
  obtain ⟨hab, -, hxy⟩ := (List.append_cons_inj_of_notMem ha hx').mp h
  exact ⟨hab, (List.cons.inj hxy).2⟩

def topFields (tob : TopOfBook) : Text :=
  if tob.valid then decimal tob.price ++ comma ++ decimal tob.totalQuantity
  else ['-'] ++ comma ++ ['-']

theorem topFields_injective {t u : TopOfBook} (h : topFields t = topFields u) : topEqual t u = true := by
  rw [topEqual_iff]
  rw [topFields, topFields] at h
  cases ht : t.valid with
  | false =>
      cases hu : u.valid with
      | false => exact ⟨rfl, fun hc => by cases hc⟩
      | true =>
          simp only [ht, hu, if_true, Bool.false_eq_true, if_false] at h
          obtain ⟨hp, -⟩ := fields_injective (by decide) (by decide) h
          exact absurd hp.symm (decimal_ne_dash _)
  | true =>
      cases hu : u.valid with
      | false =>
          simp only [ht, hu, if_true, Bool.false_eq_true, if_false] at h
          obtain ⟨hp, -⟩ := fields_injective (decimal_comma _) (decimal_comma _) h
          exact absurd hp (decimal_ne_dash _)
      | true =>
          simp only [ht, hu, if_true] at h
          obtain ⟨hp, hq⟩ := fields_injective (decimal_comma _) (decimal_comma _) h
          exact ⟨rfl, fun _ => ⟨decimal_injective hp, decimal_injective hq⟩⟩

theorem render_top (s : Side) (tob : TopOfBook) :
    render (.top s tob) = ['B', ',', ' '] ++ (sideTag s ++ (comma ++ topFields tob)) := by
  simp only [render, topFields, comma, List.append_assoc]
  rfl

theorem sideTag_length (s : Side) : (sideTag s).length = 1 := by
  cases s <;> rfl

/-- A `B` line says which side it is about and what its best level is. -/
theorem render_top_injective {s s' : Side} {t u : TopOfBook}
    (h : render (.top s t) = render (.top s' u)) : s = s' ∧ topEqual t u = true := by
  rw [render_top, render_top] at h
  have htail := List.append_cancel_left h
  obtain ⟨hs, hq⟩ := List.append_inj htail ((sideTag_length s).trans (sideTag_length s').symm)
  constructor
  · cases s <;> cases s' <;> first | rfl | exact absurd hs (by decide)
  · exact topFields_injective (List.append_cancel_left hq)

theorem render_top_ne_cancelAck (s : Side) (tob : TopOfBook) (userId userOrderId : Int) :
    render (.top s tob) ≠ render (.cancelAck userId userOrderId) := by
  intro h
  rw [render_top] at h
  exact absurd (List.cons.inj h).1 (by decide)

end Orderbook.Rendering

import Orderbook.Domain
import Orderbook.Library.Numerals
import Mathlib.Data.List.DropRight

namespace Orderbook.StringUtil

open Domain Library.Numerals

def trim (s : Text) : Text := (s.dropWhile isSpace).rdropWhile isSpace

theorem trim_blank_append {l : Text} (hl : ∀ c ∈ l, isSpace c = true) (s : Text) : trim (l ++ s) = trim s := by
  rw [trim, List.dropWhile_append_of_pos hl, trim]

theorem trim_append_blank {r : Text} (hr : ∀ c ∈ r, isSpace c = true) (s : Text) : trim (s ++ r) = trim s := by
  have hback (t : Text) : (t ++ r).rdropWhile isSpace = t.rdropWhile isSpace := by
    rw [List.rdropWhile, List.reverse_append, List.dropWhile_append_of_pos, List.rdropWhile]
    exact fun c hc => hr c (List.mem_reverse.mp hc)
  rw [trim, List.dropWhile_append]
  split_ifs with he
  · rw [List.dropWhile_eq_nil_iff.mpr hr, trim, List.isEmpty_iff.mp he]
  · rw [hback, trim]

theorem trim_eq_nil_iff (s : Text) : trim s = [] ↔ ∀ c ∈ s, isSpace c = true := by
  rw [trim, List.rdropWhile_eq_nil_iff]
  constructor
  · intro h c hc
    rw [← List.takeWhile_append_dropWhile (p := isSpace) (l := s)] at hc
    rcases List.mem_append.mp hc with hc | hc
    · exact List.mem_takeWhile_imp hc
    · exact h c hc
  · exact fun h c hc => h c ((List.dropWhile_sublist isSpace).mem hc)

theorem trim_eq_self {s : Text} (hhead : ∀ c, s.head? = some c → isSpace c = false)
    (hlast : ∀ c, s.getLast? = some c → isSpace c = false) : trim s = s := by
  have hfront : s.dropWhile isSpace = s := by
    cases s with
    | nil => rfl
    | cons c s => exact List.dropWhile_cons_of_neg (by simp [hhead c rfl])
  rw [trim, hfront, List.rdropWhile_eq_self_iff]
  intro hs
  rw [hlast _ (List.getLast?_eq_some_getLast hs)]
  decide

/-- The pieces that a loop of `std::getline` over the text extracts. A delimiter at the
very end does not start one more piece. -/
def getlines (delim : Char) : Text → List Text
  | [] => []
  | c :: cs =>
      if c = delim then [] :: getlines delim cs
      else
        match getlines delim cs with
        | [] => [[c]]
        | piece :: pieces => (c :: piece) :: pieces

def splitCsv (line : Text) : List Text := (getlines ',' line).map trim

theorem getlines_eq (delim : Char) (s : Text) :
    s.splitOn delim = getlines delim s ∨ s.splitOn delim = getlines delim s ++ [[]] := by
  induction s with
  | nil => exact Or.inr rfl
  | cons c cs ih =>
      rw [List.splitOn_cons_eq_if_modifyHead, getlines]
      by_cases hc : c = delim
      · simp only [hc, beq_self_eq_true, if_true]
        rcases ih with ih | ih
        · exact Or.inl (congrArg _ ih)
        · exact Or.inr (congrArg _ ih)
      · simp only [beq_iff_eq, hc, if_false]
        cases hg : getlines delim cs with
        | nil =>
            rw [hg] at ih
            rcases ih with ih | ih
            · exact absurd ih (List.splitOn_ne_nil delim cs)
            · exact Or.inl (by rw [ih]; rfl)
        | cons piece pieces =>
            rw [hg] at ih
            rcases ih with ih | ih
            · exact Or.inl (by rw [ih]; rfl)
            · exact Or.inr (by rw [ih]; rfl)

theorem splitOn_append (delim : Char) (s rest : Text) :
    ∃ front last first back, s.splitOn delim = front ++ [last] ∧ rest.splitOn delim = first :: back ∧
      (s ++ rest).splitOn delim = front ++ (last ++ first) :: back := by
  obtain ⟨first, back, hrest⟩ := List.exists_cons_of_ne_nil (List.splitOn_ne_nil delim rest)
  induction s with
  | nil => exact ⟨[], [], first, back, rfl, hrest, hrest⟩
  | cons c s ih =>
      obtain ⟨front, last, first', back', hs, hrest', hall⟩ := ih
      rw [List.cons_append, List.splitOn_cons_eq_if_modifyHead, List.splitOn_cons_eq_if_modifyHead, hs, hall]
      by_cases hc : c = delim
      · exact ⟨[] :: front, last, first', back', by simp [hc], hrest', by simp [hc]⟩
      · cases front with
        | nil => exact ⟨[], c :: last, first', back', by simp [hc], hrest', by simp [hc]⟩
        | cons f fs => exact ⟨(c :: f) :: fs, last, first', back', by simp [hc], hrest', by simp [hc]⟩

/-- A line whose last field is not blank gives all its fields. -/
theorem splitCsv_eq {line : Text} {fields : List Text} {last : Text} (hl : last ≠ [])
    (hf : (line.splitOn ',').map trim = fields ++ [last]) : splitCsv line = fields ++ [last] := by
  rcases getlines_eq ',' line with h | h
  · rw [splitCsv, ← h, hf]
  · rw [h, List.map_append] at hf
    have hlast := (List.append_inj' hf rfl).2
    exact absurd (List.singleton_inj.mp hlast).symm hl

end Orderbook.StringUtil

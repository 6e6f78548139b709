import Mathlib.Data.List.TakeWhile

namespace Orderbook.Library.Numerals

/-- The white space of the C locale. -/
def isSpace (c : Char) : Bool := c.toNat = 32 || (9 ≤ c.toNat && c.toNat ≤ 13)

def digitsValue (ds : List Char) : Nat := ds.foldl (fun n c => 10 * n + (c.toNat - 48)) 0

def splitSign : List Char → Int × List Char
  | '-' :: rest => (-1, rest)
  | '+' :: rest => (1, rest)
  | rest => (1, rest)

def signed (sign : Int) (ds : List Char) : Option Int :=
  if ds.isEmpty then none else some (sign * digitsValue ds)

/-- The integer that a text begins with: white space, a sign, and the longest run of
digits. What follows the digits is ignored. -/
def leadingInteger (s : List Char) : Option Int :=
  let (sign, rest) := splitSign (s.dropWhile isSpace)
  signed sign (rest.takeWhile Char.isDigit)

def wholeInteger (s : List Char) : Option Int :=
  let (sign, rest) := splitSign s
  if rest.all Char.isDigit then signed sign rest else none

theorem isDigit_of_isSpace {c : Char} (h : isSpace c = true) : c.isDigit = false := by
  simp only [isSpace, Bool.or_eq_true, Bool.and_eq_true, decide_eq_true_eq] at h
  have hv : c.toNat = c.val.toNat := rfl
  simp only [Char.isDigit, Bool.and_eq_false_iff, decide_eq_false_iff_not, ge_iff_le, UInt32.le_iff_toNat_le]
  left
  change ¬ 48 ≤ c.val.toNat
  omega

theorem splitSign_of_isSpace {c : Char} (h : isSpace c = true) (rest : List Char) :
    splitSign (c :: rest) = (1, c :: rest) := by
  rw [splitSign.eq_def]
  split
  · rename_i he
    cases he
    exact absurd h (by decide)
  · rename_i he
    cases he
    exact absurd h (by decide)
  · rfl

theorem dropWhile_of_whole {s : List Char} {n : Int} (h : wholeInteger s = some n) :
    s.dropWhile isSpace = s := by
  cases s with
  | nil => rfl
  | cons c rest =>
      cases hc : isSpace c with
      | false => rw [List.dropWhile_cons_of_neg (by simp [hc])]
      | true =>
          rw [wholeInteger, splitSign_of_isSpace hc] at h
          simp [isDigit_of_isSpace hc] at h

theorem leadingInteger_of_whole {s : List Char} {n : Int} (h : wholeInteger s = some n) :
    leadingInteger s = some n := by
  rw [leadingInteger, dropWhile_of_whole h]
  rw [wholeInteger] at h
  rcases hs : splitSign s with ⟨sign, rest⟩
  simp only [hs] at h ⊢
  split_ifs at h with hd
  rw [List.takeWhile_eq_self_iff.mpr (List.all_eq_true.mp hd), h]

theorem digitsValue_toDigits (n : Nat) : digitsValue (Nat.toDigits 10 n) = n := by
  have h : digitsValue (Nat.toDigits 10 n) = Nat.ofDigitChars 10 (Nat.toDigits 10 n) 0 := rfl
  rw [h, Nat.ofDigitChars_ten_toDigits]

theorem all_isDigit_toDigits (n : Nat) : (Nat.toDigits 10 n).all Char.isDigit = true := by
  apply List.all_eq_true.mpr
  intro c hc
  exact Nat.isDigit_of_mem_toDigits (by decide) (by decide) hc

theorem signed_toDigits (sign : Int) (n : Nat) :
    signed sign (Nat.toDigits 10 n) = some (sign * n) := by
  rw [signed, digitsValue_toDigits, if_neg]
  simp [Nat.toDigits_ne_nil]

theorem splitSign_toDigits (n : Nat) : splitSign (Nat.toDigits 10 n) = (1, Nat.toDigits 10 n) := by
  have h := all_isDigit_toDigits n
  rw [splitSign.eq_def]
  split
  · rename_i he
    rw [he] at h
    simp at h
  · rename_i he
    rw [he] at h
    simp at h
  · rfl

theorem toString_cases (n : Int) :
    (∃ m : Nat, n = m ∧ (toString n).toList = Nat.toDigits 10 m) ∨
      ∃ m : Nat, n = -m ∧ (toString n).toList = '-' :: Nat.toDigits 10 m := by
  cases n with
  | ofNat n => exact Or.inl ⟨n, rfl, Nat.toList_repr⟩
  | negSucc n =>
      refine Or.inr ⟨n + 1, Int.negSucc_eq n, ?_⟩
      have hr : toString (Int.negSucc n) = "-" ++ Nat.repr (n + 1) := rfl
      rw [hr, String.toList_append, Nat.toList_repr]
      rfl

theorem wholeInteger_toString (n : Int) : wholeInteger (toString n).toList = some n := by
  rcases toString_cases n with ⟨m, rfl, ht⟩ | ⟨m, rfl, ht⟩
  · rw [ht, wholeInteger, splitSign_toDigits]
    simp only [all_isDigit_toDigits, if_true, signed_toDigits, Int.one_mul]
  · rw [ht, wholeInteger]
    simp only [splitSign, all_isDigit_toDigits, if_true, signed_toDigits, Int.neg_mul, Int.one_mul]

theorem mem_toString {n : Int} {c : Char} (h : c ∈ (toString n).toList) :
    c = '-' ∨ c.isDigit = true := by
  have hdigit (m : Nat) (hc : c ∈ Nat.toDigits 10 m) : c.isDigit = true :=
    List.all_eq_true.mp (all_isDigit_toDigits m) c hc
  rcases toString_cases n with ⟨m, -, ht⟩ | ⟨m, -, ht⟩
  · rw [ht] at h
    exact Or.inr (hdigit m h)
  · rw [ht] at h
    exact (List.mem_cons.mp h).imp_right (hdigit m)

theorem isSpace_of_mem_toString {n : Int} {c : Char} (h : c ∈ (toString n).toList) :
    isSpace c = false := by
  rcases mem_toString h with rfl | hd
  · rfl
  · cases hs : isSpace c with
    | false => rfl
    | true => exact absurd hd (by simp [isDigit_of_isSpace hs])

end Orderbook.Library.Numerals

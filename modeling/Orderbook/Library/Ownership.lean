import Mathlib.Data.List.Range
import Mathlib.Data.List.Nodup

namespace Orderbook.Library.Ownership

variable {used used' free : List Nat} {n s : Nat}

/-- The cells `0 .. n-1` are split between the used ones and the free ones: none
occurs twice and none is missing. -/
def Owns (used free : List Nat) (n : Nat) : Prop := (used ++ free).Perm (List.range n)

theorem owns_nil : Owns [] [] 0 := List.Perm.refl _

theorem Owns.nodup (h : Owns used free n) : (used ++ free).Nodup :=
  h.nodup_iff.mpr List.nodup_range

theorem Owns.used_nodup (h : Owns used free n) : used.Nodup := (List.nodup_append.mp h.nodup).1

theorem Owns.free_nodup (h : Owns used free n) : free.Nodup := (List.nodup_append.mp h.nodup).2.1

theorem Owns.disjoint (h : Owns used free n) : List.Disjoint used free :=
  List.disjoint_of_nodup_append h.nodup

theorem Owns.lt_of_used (h : Owns used free n) (hs : s ∈ used) : s < n :=
  List.mem_range.mp (h.mem_iff.mp (List.mem_append_left free hs))

theorem Owns.lt_iff (h : Owns used free n) : s < n ↔ s ∈ used ∨ s ∈ free := by
  rw [← List.mem_append, h.mem_iff, List.mem_range]

theorem Owns.length_eq (h : Owns used free n) : used.length + free.length = n := by
  rw [← List.length_append, List.Perm.length_eq h, List.length_range]

theorem Owns.perm (h : Owns used free n) (hp : used.Perm used') : Owns used' free n :=
  (hp.symm.append_right free).trans h

theorem Owns.reuse (h : Owns used (s :: free) n) : Owns (s :: used) free n :=
  List.perm_middle.symm.trans h

theorem Owns.grow (h : Owns used [] n) : Owns (n :: used) [] (n + 1) := by
  rw [Owns, List.append_nil] at h ⊢
  rw [List.range_succ]
  exact (h.cons n).trans (List.perm_append_singleton n _).symm

theorem Owns.release {gone free' : List Nat} (h : Owns used free n)
    (hp : (used' ++ gone).Perm used) (hf : free'.Perm (gone ++ free)) : Owns used' free' n := by
  have h1 : (used' ++ free').Perm (used' ++ gone ++ free) := by
    rw [List.append_assoc]
    exact hf.append_left used'
  exact h1.trans ((hp.append_right free).trans h)

end Orderbook.Library.Ownership

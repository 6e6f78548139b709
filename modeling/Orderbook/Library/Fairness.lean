import Mathlib.Data.Prod.Lex
import Mathlib.Order.WellFounded

namespace Orderbook.Library.Fairness

variable {ι σ α : Type*} {s : ℕ → σ} {actor : ℕ → Option ι} {i : ι} {P Q : σ → Prop}

def Fair (actor : ℕ → Option ι) (i : ι) : Prop := ∀ n, ∃ m, n ≤ m ∧ actor m = some i

def LeadsTo (s : ℕ → σ) (P Q : σ → Prop) : Prop := ∀ n, P (s n) → ∃ m, n ≤ m ∧ Q (s m)

section Rank

variable [Preorder α] {rank : σ → α}

/-- Until the goal is reached, no step raises the rank, and every step of `i` lowers it. -/
def Lowers (s : ℕ → σ) (actor : ℕ → Option ι) (i : ι) (P Q : σ → Prop) (rank : σ → α) : Prop :=
  ∀ n, P (s n) → ¬ Q (s n) → Q (s (n + 1)) ∨
    P (s (n + 1)) ∧ rank (s (n + 1)) ≤ rank (s n) ∧ (actor n = some i → rank (s (n + 1)) < rank (s n))

theorem Lowers.stays (h : Lowers s actor i P Q rank) {n : ℕ} (hp : P (s n)) {k : ℕ}
    (hq : ∀ j, j ≤ k → ¬ Q (s (n + j))) : P (s (n + k)) ∧ rank (s (n + k)) ≤ rank (s n) := by
  induction k with
  | zero => exact ⟨hp, le_rfl⟩
  | succ k ih =>
      obtain ⟨hk, hle⟩ := ih (fun j hj => hq j (hj.trans k.le_succ))
      rcases h (n + k) hk (hq k k.le_succ) with hgoal | ⟨hnext, hrank, -⟩
      · exact absurd hgoal (hq (k + 1) le_rfl)
      · exact ⟨hnext, hrank.trans hle⟩

/-- A rank that one actor lowers leads to the goal when this actor moves again and again. -/
theorem Lowers.leadsTo [WellFoundedLT α] (h : Lowers s actor i P Q rank) (hfair : Fair actor i) :
    LeadsTo s P Q := by
  intro n hp
  induction hr : rank (s n) using WellFoundedLT.induction generalizing n with
  | ind r ih =>
      by_contra hnever
      have hq (m : ℕ) (hm : n ≤ m) : ¬ Q (s m) := fun hgoal => hnever ⟨m, hm, hgoal⟩
      obtain ⟨m, hm, hactor⟩ := hfair n
      obtain ⟨k, rfl⟩ := Nat.exists_eq_add_of_le hm
      obtain ⟨hpk, hle⟩ := h.stays hp (fun j _ => hq (n + j) (Nat.le_add_right n j))
      obtain ⟨hnext, -, hlt⟩ := (h (n + k) hpk (hq _ hm)).resolve_left (hq _ (hm.trans (Nat.le_succ _)))
      obtain ⟨j, hj, hgoal⟩ := ih _ (hr ▸ (hlt hactor).trans_le hle) _ hnext rfl
      exact hq j ((hm.trans (Nat.le_succ _)).trans hj) hgoal

end Rank

end Orderbook.Library.Fairness

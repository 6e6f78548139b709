import Orderbook.Library.Runs
import Mathlib.Data.List.Basic
import Mathlib.Data.Nat.Size
import Mathlib.Order.Defs.Unbundled

namespace Orderbook.Library.SortedSearch

open StateTransition Runs

variable {α κ : Type*} (before : κ → κ → Prop) (key : α → κ)

section Search

variable [DecidableEq κ] [DecidableRel before]

/-- Binary search with an early exit, on the half-open interval `[left, right)`:
the index, and whether the element there has the key. -/
def search (xs : List α) (k : κ) (left right : Nat) (h : right ≤ xs.length) : Nat × Bool :=
  if hlt : left < right then
    let mid := (left + right) / 2
    have hmid : mid < xs.length := by omega
    if key (xs[mid]) = k then (mid, true)
    else if before (key (xs[mid])) k then search xs k (mid + 1) right h
    else search xs k left mid (by omega)
  else (left, false)
termination_by right - left

theorem search_map {β μ : Type*} (before' : μ → μ → Prop) (key' : β → μ) [DecidableEq μ]
    [DecidableRel before'] (f : α → β) (g : κ → μ) (hkey : ∀ x, key' (f x) = g (key x))
    (hg : Function.Injective g) (hbefore : ∀ a b, before' (g a) (g b) ↔ before a b) (xs : List α) (k : κ)
    (left right : Nat) (h : right ≤ xs.length) (h' : right ≤ (xs.map f).length) :
    search before' key' (xs.map f) (g k) left right h' = search before key xs k left right h := by
  fun_induction search before key xs k left right h with
  | case1 left right h hlt mid hmid hk =>
      rw [search, dif_pos hlt]
      simp only [List.getElem_map, hkey]
      rw [if_pos (congrArg g hk)]
  | case2 left right h hlt mid hmid hk hb ih =>
      rw [search, dif_pos hlt]
      simp only [List.getElem_map, hkey]
      rw [if_neg (fun he => hk (hg he)), if_pos ((hbefore _ _).mpr hb)]
      exact ih h'
  | case3 left right h hlt mid hmid hk hb ih =>
      rw [search, dif_pos hlt]
      simp only [List.getElem_map, hkey]
      rw [if_neg (fun he => hk (hg he)), if_neg (fun he => hb ((hbefore _ _).mp he))]
      exact ih _
  | case4 left right h hlt => rw [search, dif_neg hlt]

/-- Where the loop of a search stands. A read behind the end stops it with no result. -/
inductive Cursor
  | looking (left right : Nat)
  | returned (index : Nat) (found : Bool)
  | outOfRange (index : Nat)

def searchStep (xs : List α) (k : κ) : Cursor → Option Cursor
  | .looking left right =>
      if left < right then
        let mid := (left + right) / 2
        match xs[mid]? with
        | some x =>
            if key x = k then some (.returned mid true)
            else if before (key x) k then some (.looking (mid + 1) right)
            else some (.looking left mid)
        | none => some (.outOfRange mid)
      else some (.returned left false)
  | .returned _ _ | .outOfRange _ => none

theorem search_reaches (xs : List α) (k : κ) (left right : Nat) (h : right ≤ xs.length) :
    Reaches (searchStep before key xs k) (.looking left right)
      (.returned (search before key xs k left right h).1 (search before key xs k left right h).2) := by
  fun_induction search before key xs k left right h with
  | case1 left right h hlt mid hmid hk =>
      apply reaches_one
      simp only [searchStep, if_pos hlt]
      rw [List.getElem?_eq_getElem hmid]
      exact if_pos hk
  | case2 left right h hlt mid hmid hk hb ih =>
      refine reaches_cons ?_ ih
      simp only [searchStep, if_pos hlt]
      rw [List.getElem?_eq_getElem hmid]
      exact (if_neg hk).trans (if_pos hb)
  | case3 left right h hlt mid hmid hk hb ih =>
      refine reaches_cons ?_ ih
      simp only [searchStep, if_pos hlt]
      rw [List.getElem?_eq_getElem hmid]
      exact (if_neg hk).trans (if_neg hb)
  | case4 left right h hlt => exact reaches_one (if_neg hlt)

/-- The loop ends with the result of `search`, in any list, sorted or not. -/
theorem search_mem_eval (xs : List α) (k : κ) (left right : Nat) (h : right ≤ xs.length) :
    .returned (search before key xs k left right h).1 (search before key xs k left right h).2 ∈
      eval (searchStep before key xs k) (.looking left right) :=
  eval_of_reaches (search_reaches before key xs k left right h) rfl

theorem size_half {n : Nat} (h : 0 < n) : Nat.size (n / 2) < Nat.size n := by
  rw [Nat.lt_size]
  rcases Nat.eq_zero_or_pos (n / 2) with hz | hp
  · rw [hz]
    exact h
  · obtain ⟨m, hm⟩ := Nat.exists_eq_succ_of_ne_zero (Nat.size_pos.mpr hp).ne'
    have hle : 2 ^ m ≤ n / 2 := Nat.lt_size.mp (hm ▸ Nat.lt_succ_self m)
    rw [hm, Nat.pow_succ]
    omega

/-- Every round halves the interval, so that there are no more rounds than its length has binary digits. -/
theorem search_inTime (xs : List α) (k : κ) (left right : Nat) (h : right ≤ xs.length) :
    Nonempty (EvalsToInTime (searchStep before key xs k) (.looking left right)
      (some (.returned (search before key xs k left right h).1 (search before key xs k left right h).2))
      (Nat.size (right - left) + 1)) := by
  fun_induction search before key xs k left right h with
  | case1 left right h hlt mid hmid hk =>
      apply inTime_one
      simp only [searchStep, if_pos hlt]
      rw [List.getElem?_eq_getElem hmid]
      exact if_pos hk
  | case2 left right h hlt mid hmid hk hb ih =>
      refine inTime_cons ?_ ih ?_
      · simp only [searchStep, if_pos hlt]
        rw [List.getElem?_eq_getElem hmid]
        exact (if_neg hk).trans (if_pos hb)
      · have hhalf := Nat.size_le_size (show right - (mid + 1) ≤ (right - left) / 2 by omega)
        have hsize := size_half (show 0 < right - left by omega)
        omega
  | case3 left right h hlt mid hmid hk hb ih =>
      refine inTime_cons ?_ ih ?_
      · simp only [searchStep, if_pos hlt]
        rw [List.getElem?_eq_getElem hmid]
        exact (if_neg hk).trans (if_neg hb)
      · have hhalf := Nat.size_le_size (show mid - left ≤ (right - left) / 2 by omega)
        have hsize := size_half (show 0 < right - left by omega)
        omega
  | case4 left right h hlt => exact inTime_one (if_neg hlt)

/-- What a search result says: an index that holds the key, or the only index at
which the key can be inserted in order. -/
def Located (xs : List α) (k : κ) : Nat × Bool → Prop
  | (i, true) => ∃ h : i < xs.length, key xs[i] = k
  | (i, false) => i ≤ xs.length ∧ (∀ j (_ : j < xs.length), j < i → before (key xs[j]) k) ∧
      ∀ j (_ : j < xs.length), i ≤ j → before k (key xs[j])

variable [IsStrictTotalOrder κ before]

theorem search_located (xs : List α) (k : κ) (hs : (xs.map key).Pairwise before)
    (left right : Nat) (hle : left ≤ right) (h : right ≤ xs.length)
    (hlow : ∀ j (_ : j < xs.length), j < left → before (key xs[j]) k)
    (hhigh : ∀ j (_ : j < xs.length), right ≤ j → before k (key xs[j])) :
    Located before key xs k (search before key xs k left right h) := by
  have hmono (i j : Nat) (hi : i < xs.length) (hj : j < xs.length) (hij : i < j) :
      before (key xs[i]) (key xs[j]) := by
    have := List.pairwise_iff_getElem.mp hs i j (by simpa using hi) (by simpa using hj) hij
    simpa using this
  fun_induction search before key xs k left right h with
  | case1 left right h hlt mid hmid hk => exact ⟨hmid, hk⟩
  | case2 left right h hlt mid hmid hk hb ih =>
      refine ih (by omega) ?_ hhigh
      intro j hj hjm
      rcases Nat.lt_succ_iff_lt_or_eq.mp hjm with hjm | rfl
      · exact Trans.trans (hmono j mid hj hmid hjm) hb
      · exact hb
  | case3 left right h hlt mid hmid hk hb ih =>
      have hb' : before k (key xs[mid]) :=
        ((trichotomous_of before (key xs[mid]) k).resolve_left hb).resolve_left hk
      refine ih (by omega) hlow ?_
      intro j hj hjm
      rcases Nat.eq_or_lt_of_le hjm with rfl | hjm
      · exact hb'
      · exact Trans.trans hb' (hmono mid j hmid hj hjm)
  | case4 left right h hlt =>
      exact ⟨by omega, hlow, fun j hj hij => hhigh j hj (by omega)⟩

theorem search_spec (xs : List α) (k : κ) (hs : (xs.map key).Pairwise before) :
    Located before key xs k (search before key xs k 0 xs.length (Nat.le_refl _)) :=
  search_located before key xs k hs 0 xs.length (Nat.zero_le _) (Nat.le_refl _)
    (fun _ _ h => absurd h (Nat.not_lt_zero _)) (fun _ hj h => absurd hj (Nat.not_lt_of_le h))

end Search

variable {before key} {xs : List α} {k : κ} {i : Nat}

theorem Located.found_split (h : Located before key xs k (i, true)) :
    ∃ pre x post, xs = pre ++ x :: post ∧ pre.length = i ∧ key x = k := by
  obtain ⟨hi, hk⟩ := h
  refine ⟨xs.take i, xs[i], xs.drop (i + 1), ?_, ?_, hk⟩
  · rw [List.getElem_cons_drop, List.take_append_drop]
  · exact List.length_take_of_le (Nat.le_of_lt hi)

theorem Located.absent_split (h : Located before key xs k (i, false)) :
    ∃ pre post, xs = pre ++ post ∧ pre.length = i ∧ (∀ x ∈ pre, before (key x) k) ∧
      ∀ x ∈ post, before k (key x) := by
  obtain ⟨hi, hlow, hhigh⟩ := h
  refine ⟨xs.take i, xs.drop i, (List.take_append_drop i xs).symm, List.length_take_of_le hi, ?_, ?_⟩
  · intro x hx
    obtain ⟨j, hj, rfl⟩ := List.getElem_of_mem hx
    rw [List.length_take] at hj
    rw [List.getElem_take]
    exact hlow j (by omega) (by omega)
  · intro x hx
    obtain ⟨j, hj, rfl⟩ := List.getElem_of_mem hx
    rw [List.length_drop] at hj
    rw [List.getElem_drop]
    exact hhigh (i + j) (by omega) (by omega)

theorem insertIdx_split (pre post : List κ) (k : κ) :
    (pre ++ post).insertIdx pre.length k = pre ++ k :: post := by
  induction pre with
  | nil => rfl
  | cons x pre ih => simpa using ih

theorem pairwise_insert_iff {pre post : List κ} (hs : (pre ++ post).Pairwise before) (k : κ) :
    (pre ++ k :: post).Pairwise before ↔ (∀ x ∈ pre, before x k) ∧ ∀ x ∈ post, before k x := by
  obtain ⟨hpre, hpost, hcross⟩ := List.pairwise_append.mp hs
  rw [List.pairwise_append, List.pairwise_cons]
  constructor
  · intro h
    exact ⟨fun x hx => h.2.2 x hx k List.mem_cons_self, h.2.1.1⟩
  · intro h
    refine ⟨hpre, ⟨h.2, hpost⟩, ?_⟩
    intro x hx y hy
    rcases List.mem_cons.mp hy with rfl | hy
    · exact h.1 x hx
    · exact hcross x hx y hy

theorem Located.insert_iff [IsStrictTotalOrder κ before] (h : Located before key xs k (i, false))
    (hs : (xs.map key).Pairwise before) (j : Nat) :
    j ≤ xs.length ∧ ((xs.map key).insertIdx j k).Pairwise before ↔ j = i := by
  obtain ⟨hi, hlow, hhigh⟩ := h
  have hkey (j : Nat) (hj : j ≤ xs.length) : ((xs.map key).insertIdx j k).Pairwise before ↔
      (∀ x ∈ xs.take j, before (key x) k) ∧ ∀ x ∈ xs.drop j, before k (key x) := by
    have hsplit : xs.map key = (xs.take j).map key ++ (xs.drop j).map key := by
      rw [← List.map_append, List.take_append_drop]
    have hlen : ((xs.take j).map key).length = j := by simp [hj]
    have hins := insertIdx_split ((xs.take j).map key) ((xs.drop j).map key) k
    rw [hlen, ← hsplit] at hins
    rw [hins, pairwise_insert_iff (hsplit ▸ hs)]
    simp only [List.forall_mem_map]
  constructor
  · rintro ⟨hj, hp⟩
    obtain ⟨hbefore, hbehind⟩ := (hkey j hj).mp hp
    rcases Nat.lt_trichotomy j i with hlt | rfl | hlt
    · have hjl : j < xs.length := by omega
      have hx := hbehind xs[j] (List.mem_drop_iff_getElem.mpr ⟨0, by simpa using hjl, by simp⟩)
      exact absurd (hlow j hjl hlt) (asymm_of before hx)
    · rfl
    · have hil : i < xs.length := by omega
      have hx := hbefore xs[i] (List.mem_take_iff_getElem.mpr ⟨i, by omega, rfl⟩)
      exact absurd (hhigh i hil (Nat.le_refl i)) (asymm_of before hx)
  · rintro rfl
    refine ⟨hi, (hkey j hi).mpr ⟨?_, ?_⟩⟩
    · intro x hx
      obtain ⟨m, hm, rfl⟩ := List.mem_take_iff_getElem.mp hx
      exact hlow m (by omega) (by omega)
    · intro x hx
      obtain ⟨m, hm, rfl⟩ := List.mem_drop_iff_getElem.mp hx
      exact hhigh (j + m) (by omega) (by omega)

variable (before key)

section Upsert

variable [DecidableEq κ] [DecidableRel before] (update : α → α) (new : α)

def upsert (k : κ) : List α → List α
  | [] => [new]
  | x :: xs =>
      if key x = k then update x :: xs
      else if before (key x) k then x :: upsert k xs
      else new :: x :: xs

variable [IsStrictTotalOrder κ before] {before key update new} {pre post : List α} {x : α}

theorem upsert_past (hpre : ∀ y ∈ pre, before (key y) k) (xs : List α) :
    upsert before key update new k (pre ++ xs) = pre ++ upsert before key update new k xs := by
  induction pre with
  | nil => rfl
  | cons y pre ih =>
      have hy := hpre y List.mem_cons_self
      have hne : key y ≠ k := fun he => irrefl_of before k (he ▸ hy)
      simp only [List.cons_append, upsert, hne, hy, if_false, if_true]
      rw [ih (fun z hz => hpre z (List.mem_cons_of_mem y hz))]

theorem upsert_found (hpre : ∀ y ∈ pre, before (key y) k) (hx : key x = k) :
    upsert before key update new k (pre ++ x :: post) = pre ++ update x :: post := by
  rw [upsert_past hpre, upsert, if_pos hx]

theorem upsert_absent (hpre : ∀ y ∈ pre, before (key y) k) (hpost : ∀ y ∈ post, before k (key y)) :
    upsert before key update new k (pre ++ post) = pre ++ new :: post := by
  rw [upsert_past hpre]
  cases post with
  | nil => rfl
  | cons y post =>
      have hy := hpost y List.mem_cons_self
      have hne : key y ≠ k := fun he => irrefl_of before k (he ▸ hy)
      rw [upsert, if_neg hne, if_neg (asymm_of before hy)]

omit [IsStrictTotalOrder κ before] in
theorem mem_upsert {y : α} (h : y ∈ upsert before key update new k xs) :
    y ∈ xs ∨ y = new ∨ ∃ x ∈ xs, key x = k ∧ y = update x := by
  induction xs with
  | nil => exact Or.inr (Or.inl (List.mem_singleton.mp h))
  | cons x xs ih =>
      rw [upsert] at h
      split_ifs at h with hk hb
      · rcases List.mem_cons.mp h with rfl | h
        · exact Or.inr (Or.inr ⟨x, List.mem_cons_self, hk, rfl⟩)
        · exact Or.inl (List.mem_cons_of_mem x h)
      · rcases List.mem_cons.mp h with rfl | h
        · exact Or.inl List.mem_cons_self
        · rcases ih h with h | h | ⟨z, hz, h⟩
          · exact Or.inl (List.mem_cons_of_mem x h)
          · exact Or.inr (Or.inl h)
          · exact Or.inr (Or.inr ⟨z, List.mem_cons_of_mem x hz, h⟩)
      · rcases List.mem_cons.mp h with rfl | h
        · exact Or.inr (Or.inl rfl)
        · exact Or.inl h

theorem upsert_pairwise (hs : (xs.map key).Pairwise before) (hnew : key new = k)
    (hup : ∀ x, key x = k → key (update x) = k) :
    ((upsert before key update new k xs).map key).Pairwise before := by
  induction xs with
  | nil => simp [upsert]
  | cons x xs ih =>
      rw [List.map_cons, List.pairwise_cons] at hs
      obtain ⟨hx, hs⟩ := hs
      rw [upsert]
      split_ifs with hk hb
      · rw [List.map_cons, List.pairwise_cons, hup x hk, ← hk]
        exact ⟨hx, hs⟩
      · rw [List.map_cons, List.pairwise_cons]
        refine ⟨?_, ih hs⟩
        intro m hm
        obtain ⟨y, hy, rfl⟩ := List.mem_map.mp hm
        rcases mem_upsert hy with hy | rfl | ⟨z, hz, hzk, rfl⟩
        · exact hx _ (List.mem_map_of_mem hy)
        · exact hnew ▸ hb
        · exact hup z hzk ▸ hb
      · have hkx : before k (key x) := ((trichotomous_of before (key x) k).resolve_left hb).resolve_left hk
        rw [List.map_cons, List.pairwise_cons, List.map_cons, List.pairwise_cons, hnew]
        refine ⟨?_, hx, hs⟩
        intro m hm
        rcases List.mem_cons.mp hm with rfl | hm
        · exact hkx
        · exact trans_of before hkx (hx m hm)

end Upsert

end Orderbook.Library.SortedSearch

import Mathlib.Algebra.BigOperators.Ring.List
import Mathlib.Data.List.Nodup
import Mathlib.Tactic.Linarith
import Orderbook.Library.QueueFill

namespace Orderbook.Library.GreedyFill

open QueueFill

variable {α : Type*}

/-- Some amount of each offer, not more than it has, and nothing of the offers passed over. -/
structure Allots (r : Rule α) (x : α → Int) (a : α) : Prop where
  nonneg : 0 ≤ x a
  le : x a ≤ r.amount a
  skipped : r.skip a = true → x a = 0

def allotted (x : α → Int) (as : List α) : Int := (as.map x).sum

def cost (price : α → Int) (x : α → Int) (as : List α) : Int := (as.map (fun a => price a * x a)).sum

def fillCost (price : α → Int) (fs : List (Fill α)) : Int := (fs.map (fun f => price f.item * f.taken)).sum

variable {r : Rule α} {price x : α → Int}

theorem Allots.congr {x y : α → Int} {a : α} (h : Allots r x a) (hy : y a = x a) : Allots r y a where
  nonneg := hy ▸ h.nonneg
  le := hy ▸ h.le
  skipped hs := hy.trans (h.skipped hs)

theorem allotted_le (as : List α) (h : ∀ a ∈ as, Allots r x a) :
    0 ≤ allotted x as ∧ allotted x as ≤ amountSum r (offered r as) := by
  induction as with
  | nil => exact ⟨le_rfl, le_rfl⟩
  | cons a as ih =>
      obtain ⟨hnonneg, hle⟩ := ih (fun b hb => h b (List.mem_cons_of_mem a hb))
      have ha := h a List.mem_cons_self
      have hx := ha.nonneg
      simp only [allotted, List.map_cons, List.sum_cons] at hnonneg hle ⊢
      cases hs : r.skip a with
      | true =>
          rw [offered_cons_skip r hs, ha.skipped hs]
          omega
      | false =>
          have hxa := ha.le
          rw [offered_cons_open r hs, amountSum_cons]
          omega

theorem allotted_le_fill {q : Int} {as : List α} (h : ∀ a ∈ as, Allots r x a)
    (hamount : ∀ a ∈ as, 0 ≤ r.amount a) (hq : allotted x as ≤ q) :
    allotted x as ≤ takenSum (fill r q as).fills := by
  obtain ⟨hnonneg, hle⟩ := allotted_le as h
  rw [takenSum_eq_min r (hnonneg.trans hq) hamount]
  exact le_min hq hle

theorem cost_ge {m : Int} (as : List α) (h : ∀ a ∈ as, Allots r x a) (hm : ∀ a ∈ as, m ≤ price a) :
    m * allotted x as ≤ cost price x as := by
  rw [allotted, cost, ← List.sum_map_mul_left]
  apply List.sum_le_sum
  exact fun a ha => mul_le_mul_of_nonneg_right (hm a ha) (h a ha).nonneg

/-- What is allotted beyond the fill costs at least `m` a unit, if no offer is cheaper than `m`. -/
theorem fill_cheapest_beyond (hprice : ∀ a t, price (r.reduce a t) = price a) (q : Int) (as : List α) {m : Int}
    (hsorted : as.Pairwise (fun a b => price a ≤ price b)) (hm : ∀ a ∈ as, m ≤ price a)
    (h : ∀ a ∈ as, Allots r x a) (hle : takenSum (fill r q as).fills ≤ allotted x as) :
    m * (allotted x as - takenSum (fill r q as).fills) ≤
      cost price x as - fillCost price (fill r q as).fills := by
  induction q, as using fill_induction r generalizing m with
  | nil q => simp [allotted, cost, fillCost]
  | done q a as _ =>
      have hall := cost_ge (a :: as) h hm
      simpa [fillCost] using hall
  | skip q a as _ hs ih =>
      obtain ⟨-, hrest⟩ := List.pairwise_cons.mp hsorted
      have hx := (h a List.mem_cons_self).skipped hs
      simp only [allotted, cost, List.map_cons, List.sum_cons, hx, zero_add, mul_zero] at hle ⊢
      exact ih hrest (fun b hb => hm b (List.mem_cons_of_mem a hb))
        (fun b hb => h b (List.mem_cons_of_mem a hb)) hle
  | part q a as _ _ _ =>
      obtain ⟨hfirst, -⟩ := List.pairwise_cons.mp hsorted
      have hbehind := cost_ge as (fun b hb => h b (List.mem_cons_of_mem a hb)) hfirst
      have hfront := hm a List.mem_cons_self
      simp only [allotted, cost, fillCost, List.map_cons, List.map_nil, List.sum_cons, List.sum_nil, hprice,
        takenSum_cons, takenSum_nil, add_zero] at hle hbehind ⊢
      have hstep := mul_le_mul_of_nonneg_right hfront (sub_nonneg.mpr hle)
      linarith
  | whole q a as _ _ _ ih =>
      obtain ⟨hfirst, hrest⟩ := List.pairwise_cons.mp hsorted
      have hfront := hm a List.mem_cons_self
      have ha := (h a List.mem_cons_self).le
      have hi := ih hrest hfirst (fun b hb => h b (List.mem_cons_of_mem a hb))
      simp only [allotted, cost, fillCost, whole, List.map_cons, List.sum_cons, hprice, takenSum_cons] at hle hi ⊢
      have hstep := mul_le_mul_of_nonneg_right hfront (sub_nonneg.mpr hle)
      have hbehind := hi (by linarith)
      linarith

/-- Filling from the cheapest offer on costs least, among all ways to have the same amount. -/
theorem fill_cheapest (hprice : ∀ a t, price (r.reduce a t) = price a) {q : Int} {as : List α}
    (hsorted : as.Pairwise (fun a b => price a ≤ price b)) (h : ∀ a ∈ as, Allots r x a)
    (hsame : allotted x as = takenSum (fill r q as).fills) :
    fillCost price (fill r q as).fills ≤ cost price x as := by
  cases as with
  | nil => simp [fillCost, cost]
  | cons a as =>
      have hm : ∀ b ∈ a :: as, price a ≤ price b := by
        rw [List.forall_mem_cons]
        exact ⟨le_rfl, (List.pairwise_cons.mp hsorted).1⟩
      have hbeyond := fill_cheapest_beyond hprice q (a :: as) hsorted hm h hsame.ge
      rw [hsame, sub_self, mul_zero] at hbeyond
      exact sub_nonneg.mp hbeyond

theorem cost_neg (as : List α) : cost (fun a => -price a) x as = -cost price x as := by
  induction as with
  | nil => rfl
  | cons a as ih =>
      simp only [cost, List.map_cons, List.sum_cons] at ih ⊢
      rw [ih, neg_add, neg_mul]

theorem fillCost_neg (fs : List (Fill α)) : fillCost (fun a => -price a) fs = -fillCost price fs := by
  induction fs with
  | nil => rfl
  | cons f fs ih =>
      simp only [fillCost, List.map_cons, List.sum_cons] at ih ⊢
      rw [ih, neg_add, neg_mul]

theorem sum_map_filter_of_zero (p : α → Prop) [DecidablePred p] {f : α → Int} {as : List α}
    (h : ∀ a ∈ as, ¬ p a → f a = 0) : ((as.filter (fun a => p a)).map f).sum = (as.map f).sum := by
  have hsplit := List.sum_map_filter_add_sum_map_filter_not p f as
  have hzero : ((as.filter (fun a => ¬ p a)).map f).sum = 0 := by
    apply List.sum_eq_zero
    intro n hn
    obtain ⟨a, ha, rfl⟩ := List.mem_map.mp hn
    obtain ⟨ham, hpa⟩ := List.mem_filter.mp ha
    exact h a ham (by simpa using hpa)
  rw [hzero, add_zero] at hsplit
  exact hsplit

section Own

variable {κ : Type*} [DecidableEq κ] {label : α → κ}

/-- What the fills `fs` take of the offer `a`, offers being told apart by `label`. -/
def takenOf (label : α → κ) (fs : List (Fill α)) (a : α) : Int :=
  takenSum (fs.filter (fun f => label f.item = label a))

theorem filter_label {as : List α} (hn : (as.map label).Nodup) {a : α} (ha : a ∈ as) :
    as.filter (fun b => label b = label a) = [a] := by
  induction as with
  | nil => cases ha
  | cons b as ih =>
      obtain ⟨hb, hn⟩ := List.nodup_cons.mp hn
      rcases List.mem_cons.mp ha with rfl | ha
      · have hrest : as.filter (fun b => label b = label a) = [] := by
          rw [List.filter_eq_nil_iff]
          intro b hbm he
          exact hb (of_decide_eq_true he ▸ List.mem_map_of_mem hbm)
        rw [List.filter_cons_of_pos (by simp), hrest]
      · have hne : label b ≠ label a := fun he => hb (he ▸ List.mem_map_of_mem ha)
        rw [List.filter_cons_of_neg (by simpa using hne), ih hn ha]

theorem sum_map_single {as : List α} (hn : (as.map label).Nodup) {a : α} (ha : a ∈ as) (w : α → Int) :
    (as.map (fun b => if label b = label a then w b else 0)).sum = w a := by
  rw [List.sum_map_ite, filter_label hn ha]
  simp

theorem takenOf_cons (f : Fill α) (fs : List (Fill α)) (a : α) :
    takenOf label (f :: fs) a = (if label a = label f.item then f.taken else 0) + takenOf label fs a := by
  rw [takenOf, takenOf]
  by_cases h : label f.item = label a
  · rw [List.filter_cons_of_pos (by simpa using h), takenSum_cons, if_pos h.symm]
  · rw [List.filter_cons_of_neg (by simpa using h), if_neg (Ne.symm h), zero_add]

theorem takenOf_sums {as : List α} (hn : (as.map label).Nodup) {fs : List (Fill α)}
    (hfrom : ∀ f ∈ fs, ∃ a ∈ as, label f.item = label a ∧ price f.item = price a) :
    allotted (takenOf label fs) as = takenSum fs ∧ cost price (takenOf label fs) as = fillCost price fs := by
  induction fs with
  | nil =>
      have hnothing : takenOf label ([] : List (Fill α)) = fun _ => 0 := rfl
      simp [allotted, cost, hnothing, fillCost]
  | cons f fs ih =>
      obtain ⟨⟨a, ha, hlabel, hprice⟩, hrest⟩ := List.forall_mem_cons.mp hfrom
      obtain ⟨hsum, hcost⟩ := ih hrest
      have hone := sum_map_single hn ha (fun _ => f.taken)
      have hpaid := sum_map_single hn ha (fun b => price b * f.taken)
      have hcons : takenOf label (f :: fs) =
          fun a => (if label a = label f.item then f.taken else 0) + takenOf label fs a :=
        funext (takenOf_cons f fs)
      simp only [allotted, cost, fillCost, hcons, hlabel] at hsum hcost ⊢
      constructor
      · rw [List.sum_map_add, hone, hsum, takenSum_cons]
      · simp only [mul_add, mul_ite, mul_zero, List.sum_map_add, hpaid, hcost, List.map_cons, List.sum_cons,
          hprice]

variable (hlabel : ∀ a t, label (r.reduce a t) = label a)

include hlabel

theorem takenOf_le (q : Int) {as : List α} (hn : (as.map label).Nodup) (hpos : ∀ a ∈ as, 0 < r.amount a)
    {a : α} (ha : a ∈ as) : takenOf label (fill r q as).fills a ≤ r.amount a := by
  have hsplit := amountSum_kept_filter r (fun b => decide (label b = label a))
    (fun b t => by rw [hlabel]) q as
  have hkept : 0 ≤ amountSum r ((fill r q as).kept.filter (fun b => label b = label a)) := by
    apply amountSum_nonneg
    intro b hb
    rcases mem_kept r hpos b (List.mem_of_mem_filter hb) with hb | ⟨_, _, _, _, hb⟩
    · exact (hpos b hb).le
    · exact hb.le
  have hall : amountSum r (as.filter (fun b => label b = label a)) = r.amount a := by
    rw [filter_label hn ha]
    exact List.sum_singleton
  rw [hall] at hsplit
  change _ + takenOf label _ a = _ at hsplit
  omega

theorem fill_allots (hprice : ∀ a t, price (r.reduce a t) = price a) (q : Int) (as : List α)
    (hn : (as.map label).Nodup) (hpos : ∀ a ∈ as, 0 < r.amount a) :
    (∀ a ∈ as, Allots r (takenOf label (fill r q as).fills) a) ∧
      allotted (takenOf label (fill r q as).fills) as = takenSum (fill r q as).fills ∧
      cost price (takenOf label (fill r q as).fills) as = fillCost price (fill r q as).fills := by
  have hbounds := fills_bounds r (q := q) hpos
  constructor
  · intro a ha
    constructor
    · apply List.sum_nonneg
      intro t ht
      obtain ⟨f, hf, rfl⟩ := List.mem_map.mp ht
      obtain ⟨_, _, _, _, htaken, _⟩ := hbounds f (List.mem_of_mem_filter hf)
      exact htaken.le
    · exact takenOf_le hlabel q hn hpos ha
    · intro hs
      have hnone : (fill r q as).fills.filter (fun f => label f.item = label a) = [] := by
        rw [List.filter_eq_nil_iff]
        intro f hf he
        obtain ⟨b, hb, hopen, hitem, -⟩ := hbounds f hf
        rw [hitem, hlabel, decide_eq_true_eq] at he
        obtain rfl := List.inj_on_of_nodup_map hn hb ha he
        rw [hs] at hopen
        cases hopen
      rw [takenOf, hnone]
      rfl
  · apply takenOf_sums hn
    intro f hf
    obtain ⟨a, ha, -, hitem, -⟩ := hbounds f hf
    exact ⟨a, ha, by rw [hitem, hlabel], by rw [hitem, hprice]⟩

end Own

end Orderbook.Library.GreedyFill

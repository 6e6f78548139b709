import Mathlib.Algebra.Order.BigOperators.Group.List
import Mathlib.Algebra.Order.Ring.Int
import Mathlib.Data.List.Basic

namespace Orderbook.Library.QueueFill

variable {α κ : Type*}

/-- How a queue of offers is consumed: which offers are passed over, how much one
offers, and what is left of it when a part is taken. -/
structure Rule (α : Type*) where
  skip : α → Bool
  amount : α → Int
  reduce : α → Int → α
  amount_reduce : ∀ a t, amount (reduce a t) = amount a - t

structure Fill (α : Type*) where
  item : α
  taken : Int

structure Filled (α : Type*) where
  kept : List α
  left : Int
  fills : List (Fill α)

variable (r : Rule α)

def take (a : α) (t : Int) (f : Filled α) : Filled α :=
  ⟨if r.amount (r.reduce a t) = 0 then f.kept else r.reduce a t :: f.kept, f.left,
    ⟨r.reduce a t, t⟩ :: f.fills⟩

/-- Serve the demand `q` from the front of the queue. An offer taken whole leaves
the queue; nothing is looked at once the demand is served. -/
def fill : Int → List α → Filled α
  | q, [] => ⟨[], q, []⟩
  | q, a :: as =>
      if 0 < q then
        if r.skip a then ⟨a :: (fill q as).kept, (fill q as).left, (fill q as).fills⟩
        else take r a (min q (r.amount a)) (fill (q - min q (r.amount a)) as)
      else ⟨a :: as, q, []⟩

def takenSum (fs : List (Fill α)) : Int := (fs.map Fill.taken).sum

def amountSum (as : List α) : Int := (as.map r.amount).sum

def offered (as : List α) : List α := as.filter (fun a => !r.skip a)

def whole (a : α) : Fill α := ⟨r.reduce a (r.amount a), r.amount a⟩

/-- What the takings `fs` leave of the offer `a`, offers being told apart by `label`. -/
def remains [DecidableEq κ] (label : α → κ) : List (Fill α) → α → Option α
  | [], a => some a
  | f :: fs, a =>
      if label f.item = label a then
        if r.amount f.item = 0 then none else some f.item
      else remains label fs a

@[simp] theorem takenSum_nil : takenSum ([] : List (Fill α)) = 0 := rfl

@[simp] theorem takenSum_cons (f : Fill α) (fs : List (Fill α)) :
    takenSum (f :: fs) = f.taken + takenSum fs := rfl

@[simp] theorem takenSum_append (fs gs : List (Fill α)) :
    takenSum (fs ++ gs) = takenSum fs + takenSum gs := by
  simp [takenSum]

@[simp] theorem amountSum_nil : amountSum r [] = 0 := rfl

@[simp] theorem amountSum_cons (a : α) (as : List α) :
    amountSum r (a :: as) = r.amount a + amountSum r as := rfl

@[simp] theorem amountSum_append (as bs : List α) :
    amountSum r (as ++ bs) = amountSum r as + amountSum r bs := by
  simp [amountSum]

@[simp] theorem offered_nil : offered r [] = [] := rfl

@[simp] theorem offered_append (as bs : List α) :
    offered r (as ++ bs) = offered r as ++ offered r bs := List.filter_append ..

theorem offered_cons_skip {a : α} (h : r.skip a = true) (as : List α) :
    offered r (a :: as) = offered r as := by
  simp [offered, h]

theorem offered_cons_open {a : α} (h : r.skip a = false) (as : List α) :
    offered r (a :: as) = a :: offered r as := by
  simp [offered, h]

theorem amountSum_nonneg (as : List α) (h : ∀ a ∈ as, 0 ≤ r.amount a) : 0 ≤ amountSum r as := by
  apply List.sum_nonneg
  intro n hn
  obtain ⟨a, ha, rfl⟩ := List.mem_map.mp hn
  exact h a ha

@[simp] theorem fill_nil (q : Int) : fill r q [] = ⟨[], q, []⟩ := rfl

theorem fill_done {q : Int} (hq : q ≤ 0) (as : List α) : fill r q as = ⟨as, q, []⟩ := by
  cases as with
  | nil => rfl
  | cons a as => rw [fill, if_neg (by omega)]

theorem fill_skip {q : Int} (hq : 0 < q) {a : α} (h : r.skip a = true) (as : List α) :
    fill r q (a :: as) = ⟨a :: (fill r q as).kept, (fill r q as).left, (fill r q as).fills⟩ := by
  rw [fill, if_pos hq, if_pos h]

theorem fill_part {q : Int} (hq : 0 < q) {a : α} (h : r.skip a = false) (ha : q < r.amount a)
    (as : List α) : fill r q (a :: as) = ⟨r.reduce a q :: as, 0, [⟨r.reduce a q, q⟩]⟩ := by
  have hm : min q (r.amount a) = q := by omega
  have hr : r.amount (r.reduce a q) ≠ 0 := by rw [r.amount_reduce]; omega
  rw [fill, if_pos hq, if_neg (by simp [h]), hm, Int.sub_self, fill_done r le_rfl, take, if_neg hr]

theorem fill_whole {q : Int} (hq : 0 < q) {a : α} (h : r.skip a = false) (ha : r.amount a ≤ q)
    (as : List α) :
    fill r q (a :: as) = ⟨(fill r (q - r.amount a) as).kept, (fill r (q - r.amount a) as).left,
      whole r a :: (fill r (q - r.amount a) as).fills⟩ := by
  have hm : min q (r.amount a) = r.amount a := by omega
  have hr : r.amount (r.reduce a (r.amount a)) = 0 := by rw [r.amount_reduce]; omega
  rw [fill, if_pos hq, if_neg (by simp [h]), hm, take, if_pos hr]
  rfl

/-- The five ways in which `fill` can go on; every law below is an induction along them. -/
theorem fill_induction {P : Int → List α → Filled α → Prop}
    (nil : ∀ q, P q [] ⟨[], q, []⟩)
    (done : ∀ q a as, q ≤ 0 → P q (a :: as) ⟨a :: as, q, []⟩)
    (skip : ∀ q a as, 0 < q → r.skip a = true → P q as (fill r q as) →
      P q (a :: as) ⟨a :: (fill r q as).kept, (fill r q as).left, (fill r q as).fills⟩)
    (part : ∀ q a as, 0 < q → r.skip a = false → q < r.amount a →
      P q (a :: as) ⟨r.reduce a q :: as, 0, [⟨r.reduce a q, q⟩]⟩)
    (whole : ∀ q a as, 0 < q → r.skip a = false → r.amount a ≤ q →
      P (q - r.amount a) as (fill r (q - r.amount a) as) →
      P q (a :: as) ⟨(fill r (q - r.amount a) as).kept, (fill r (q - r.amount a) as).left,
        whole r a :: (fill r (q - r.amount a) as).fills⟩)
    (q : Int) (as : List α) : P q as (fill r q as) := by
  induction as generalizing q with
  | nil => exact nil q
  | cons a as ih =>
      by_cases hq : 0 < q
      · cases hs : r.skip a with
        | true =>
            rw [fill_skip r hq hs]
            exact skip q a as hq hs (ih q)
        | false =>
            by_cases ha : q < r.amount a
            · rw [fill_part r hq hs ha]
              exact part q a as hq hs ha
            · rw [fill_whole r hq hs (by omega)]
              exact whole q a as hq hs (by omega) (ih _)
      · rw [fill_done r (by omega)]
        exact done q a as (by omega)

theorem takenSum_fill (q : Int) (as : List α) :
    takenSum (fill r q as).fills = q - (fill r q as).left := by
  induction q, as using fill_induction r with
  | nil => simp
  | done => simp
  | skip _ _ _ _ _ ih => exact ih
  | part => simp
  | whole q a as _ _ _ ih => simp only [takenSum_cons, ih, whole]; omega

theorem kept_of_untaken (q : Int) (as : List α) (hf : (fill r q as).fills = []) :
    (fill r q as).kept = as := by
  induction q, as using fill_induction r with
  | nil => rfl
  | done => rfl
  | skip q a as _ _ ih => exact congrArg (a :: ·) (ih hf)
  | part => cases hf
  | whole => cases hf

theorem fill_skipped {q : Int} (hq : 0 < q) {as : List α} (h : ∀ a ∈ as, r.skip a = true) :
    fill r q as = ⟨as, q, []⟩ := by
  induction as with
  | nil => rfl
  | cons a as ih =>
      rw [fill_skip r hq (h a List.mem_cons_self), ih (fun b hb => h b (List.mem_cons_of_mem a hb))]

theorem amountSum_kept_filter (p : α → Bool) (hp : ∀ a t, p (r.reduce a t) = p a) (q : Int) (as : List α) :
    amountSum r ((fill r q as).kept.filter p) +
        takenSum ((fill r q as).fills.filter (fun f => p f.item)) = amountSum r (as.filter p) := by
  induction q, as using fill_induction r with
  | nil => simp
  | done => simp
  | skip q a as _ _ ih =>
      cases ha : p a with
      | true =>
          simp only [List.filter_cons, ha, if_true, amountSum_cons]
          omega
      | false => simpa only [List.filter_cons, ha, Bool.false_eq_true, if_false] using ih
  | part q a as =>
      cases ha : p a with
      | true =>
          simp only [List.filter_cons, hp, ha, if_true, amountSum_cons, r.amount_reduce, List.filter_nil,
            takenSum_cons, takenSum_nil]
          omega
      | false => simp [hp, ha]
  | whole q a as _ _ _ ih =>
      cases ha : p a with
      | true =>
          simp only [List.filter_cons, whole, hp, ha, if_true, amountSum_cons, takenSum_cons]
          omega
      | false => simpa only [List.filter_cons, whole, hp, ha, Bool.false_eq_true, if_false] using ih

theorem amountSum_kept (q : Int) (as : List α) :
    amountSum r (fill r q as).kept + takenSum (fill r q as).fills = amountSum r as := by
  simpa using amountSum_kept_filter r (fun _ => true) (fun _ _ => rfl) q as

theorem left_nonneg {q : Int} (hq : 0 ≤ q) (as : List α) : 0 ≤ (fill r q as).left := by
  induction q, as using fill_induction r with
  | nil => exact hq
  | done => exact hq
  | skip _ _ _ _ _ ih => exact ih hq
  | part => exact le_rfl
  | whole _ _ _ _ _ _ ih => exact ih (by omega)

theorem fill_append (q : Int) (as bs : List α) :
    fill r q (as ++ bs) = ⟨(fill r q as).kept ++ (fill r (fill r q as).left bs).kept,
      (fill r (fill r q as).left bs).left,
      (fill r q as).fills ++ (fill r (fill r q as).left bs).fills⟩ := by
  induction q, as using fill_induction r with
  | nil => rfl
  | done q a as hq => simp only [fill_done r hq, List.nil_append]
  | skip q a as hq hs ih => simp only [List.cons_append, fill_skip r hq hs, ih]
  | part q a as hq hs ha =>
      simp only [List.cons_append, fill_part r hq hs ha, fill_done r le_rfl, List.nil_append]
  | whole q a as hq hs ha ih => simp only [List.cons_append, fill_whole r hq hs ha, ih]

/-- A demand that is not served by the whole queue leaves exactly the offers passed over. -/
theorem kept_of_left_pos {q : Int} {as : List α} (h : 0 < (fill r q as).left) :
    (fill r q as).kept = as.filter r.skip ∧
      (fill r q as).left = q - amountSum r (offered r as) := by
  induction q, as using fill_induction r with
  | nil => simp
  | done q a as hq => simp only at h; omega
  | skip q a as _ hs ih =>
      obtain ⟨hk, hl⟩ := ih h
      exact ⟨by simp [hk, hs], by rw [offered_cons_skip r hs]; exact hl⟩
  | part => simp at h
  | whole q a as _ hs _ ih =>
      obtain ⟨hk, hl⟩ := ih h
      refine ⟨by simp [hk, hs], ?_⟩
      rw [offered_cons_open r hs, amountSum_cons]
      simp only at hl ⊢
      omega

theorem takenSum_eq_min {q : Int} (hq : 0 ≤ q) {as : List α} (h : ∀ a ∈ as, 0 ≤ r.amount a) :
    takenSum (fill r q as).fills = min q (amountSum r (offered r as)) := by
  induction q, as using fill_induction r with
  | nil => simp [hq]
  | done q a as hq' =>
      have := amountSum_nonneg r (offered r (a :: as))
        (fun b hb => h b (List.mem_of_mem_filter hb))
      simp only [takenSum_nil]
      omega
  | skip q a as _ hs ih =>
      rw [offered_cons_skip r hs]
      exact ih hq (fun b hb => h b (List.mem_cons_of_mem a hb))
  | part q a as _ hs ha =>
      have := amountSum_nonneg r (offered r as)
        (fun b hb => h b (List.mem_cons_of_mem a (List.mem_of_mem_filter hb)))
      rw [offered_cons_open r hs, amountSum_cons]
      simp only [takenSum_cons, takenSum_nil]
      omega
  | whole q a as _ hs ha ih =>
      have hi := ih (by omega) (fun b hb => h b (List.mem_cons_of_mem a hb))
      rw [offered_cons_open r hs, amountSum_cons, takenSum_cons, hi]
      simp only [whole]
      omega

theorem dropLast_exhausted (q : Int) (as : List α) :
    ∀ f ∈ (fill r q as).fills.dropLast, r.amount f.item = 0 := by
  induction q, as using fill_induction r with
  | nil => simp
  | done => simp
  | skip _ _ _ _ _ ih => exact ih
  | part => simp
  | whole q a as _ _ _ ih =>
      intro f hf
      cases hfs : (fill r (q - r.amount a) as).fills with
      | nil => simp [hfs] at hf
      | cons g gs =>
          rw [hfs, List.dropLast_cons_cons, List.mem_cons] at hf
          rcases hf with rfl | hf
          · simp [whole, r.amount_reduce]
          · exact ih f (by rwa [hfs])

/-- Where a taking stands in the queue: all offers in front of it that are not passed
over have been taken whole, and these takings are the ones before it. -/
theorem fills_split {q : Int} {as : List α} {pre post : List (Fill α)} {f : Fill α}
    (h : (fill r q as).fills = pre ++ f :: post) :
    ∃ xs a ys, as = xs ++ a :: ys ∧ r.skip a = false ∧ f.item = r.reduce a f.taken ∧
      pre = (offered r xs).map (whole r) := by
  induction q, as using fill_induction r generalizing pre with
  | nil => simp at h
  | done => simp at h
  | skip q a as _ hs ih =>
      obtain ⟨xs, b, ys, rfl, hb, hf, hp⟩ := ih h
      exact ⟨a :: xs, b, ys, rfl, hb, hf, by rw [offered_cons_skip r hs]; exact hp⟩
  | part q a as _ hs _ =>
      cases pre with
      | nil =>
          simp only [List.nil_append, List.cons.injEq] at h
          exact ⟨[], a, as, rfl, hs, by rw [← h.1], rfl⟩
      | cons g pre => simp at h
  | whole q a as _ hs _ ih =>
      cases pre with
      | nil =>
          simp only [List.nil_append, List.cons.injEq] at h
          exact ⟨[], a, as, rfl, hs, by rw [← h.1]; rfl, rfl⟩
      | cons g pre =>
          simp only [List.cons_append, List.cons.injEq] at h
          obtain ⟨xs, b, ys, rfl, hb, hf, hp⟩ := ih h.2
          exact ⟨a :: xs, b, ys, rfl, hb, hf,
            by rw [offered_cons_open r hs, List.map_cons, ← hp, h.1]⟩

theorem fills_bounds {q : Int} {as : List α} (h : ∀ a ∈ as, 0 < r.amount a) :
    ∀ f ∈ (fill r q as).fills, ∃ a ∈ as, r.skip a = false ∧ f.item = r.reduce a f.taken ∧
      0 < f.taken ∧ f.taken ≤ r.amount a := by
  induction q, as using fill_induction r with
  | nil => simp
  | done => simp
  | skip q a as _ _ ih =>
      intro f hf
      obtain ⟨b, hb, hbf⟩ := ih (fun c hc => h c (List.mem_cons_of_mem a hc)) f hf
      exact ⟨b, List.mem_cons_of_mem a hb, hbf⟩
  | part q a as hq hs ha =>
      intro f hf
      obtain rfl := List.mem_singleton.mp hf
      exact ⟨a, List.mem_cons_self, hs, rfl, hq, le_of_lt ha⟩
  | whole q a as hq hs ha ih =>
      intro f hf
      rcases List.mem_cons.mp hf with rfl | hf
      · exact ⟨a, List.mem_cons_self, hs, rfl, h a List.mem_cons_self, le_rfl⟩
      · obtain ⟨b, hb, hbf⟩ := ih (fun c hc => h c (List.mem_cons_of_mem a hc)) f hf
        exact ⟨b, List.mem_cons_of_mem a hb, hbf⟩

theorem taken_le {q : Int} {as : List α} (h : ∀ a ∈ as, 0 < r.amount a) {pre post : List (Fill α)}
    {f : Fill α} (hf : (fill r q as).fills = pre ++ f :: post) : f.taken ≤ q - takenSum pre := by
  by_cases hq : 0 < q
  · have hsum := takenSum_fill r q as
    have hleft := left_nonneg r (Int.le_of_lt hq) as
    have hpost : 0 ≤ takenSum post := by
      apply List.sum_nonneg
      intro t ht
      obtain ⟨g, hg, rfl⟩ := List.mem_map.mp ht
      have hm : g ∈ (fill r q as).fills := hf ▸ List.mem_append_right pre (List.mem_cons_of_mem f hg)
      obtain ⟨_, _, _, _, hpos, _⟩ := fills_bounds r h g hm
      exact Int.le_of_lt hpos
    rw [hf, takenSum_append, takenSum_cons] at hsum
    omega
  · rw [fill_done r (Int.not_lt.mp hq)] at hf
    simp at hf

section Remains

variable [DecidableEq κ] (label : α → κ)

theorem remains_of_not_mem {fs : List (Fill α)} {a : α} (h : label a ∉ fs.map (fun f => label f.item)) :
    remains r label fs a = some a := by
  induction fs with
  | nil => rfl
  | cons f fs ih =>
      rw [List.map_cons, List.mem_cons, not_or] at h
      rw [remains, if_neg (Ne.symm h.1), ih h.2]

theorem remains_label {fs : List (Fill α)} {a b : α} (h : remains r label fs a = some b) :
    label b = label a := by
  induction fs with
  | nil => rw [Option.some.inj h]
  | cons f fs ih =>
      rw [remains] at h
      split_ifs at h with hl hz
      · rw [← Option.some.inj h, hl]
      · exact ih h

theorem remains_of_exhausted {fs : List (Fill α)} {f : Fill α} {a : α}
    (hn : (fs.map (fun f => label f.item)).Nodup) (hf : f ∈ fs) (hz : r.amount f.item = 0)
    (hl : label f.item = label a) : remains r label fs a = none := by
  induction fs with
  | nil => cases hf
  | cons g gs ih =>
      rw [List.map_cons, List.nodup_cons] at hn
      rcases List.mem_cons.mp hf with rfl | hf
      · rw [remains, if_pos hl, if_pos hz]
      · have hg : label g.item ≠ label a := by
          intro he
          exact hn.1 (List.mem_map.mpr ⟨f, hf, hl.trans he.symm⟩)
        rw [remains, if_neg hg, ih hn.2 hf]

theorem filterMap_remains_cons {f : Fill α} {as : List α} (fs : List (Fill α))
    (h : label f.item ∉ as.map label) :
    as.filterMap (remains r label (f :: fs)) = as.filterMap (remains r label fs) := by
  apply List.filterMap_congr
  intro b hb
  have hne : label f.item ≠ label b := by
    intro he
    exact h (List.mem_map.mpr ⟨b, hb, he.symm⟩)
  rw [remains, if_neg hne]

end Remains

section Labels

variable (label : α → κ) (hlabel : ∀ a t, label (r.reduce a t) = label a)

include hlabel

theorem kept_labels (q : Int) (as : List α) :
    ((fill r q as).kept.map label).Sublist (as.map label) := by
  induction q, as using fill_induction r with
  | nil => exact List.Sublist.refl _
  | done => exact List.Sublist.refl _
  | skip _ _ _ _ _ ih => exact ih.cons_cons _
  | part q a as => rw [List.map_cons, List.map_cons, hlabel]
  | whole _ _ _ _ _ _ ih => exact ih.cons _

theorem fills_labels (q : Int) (as : List α) :
    ((fill r q as).fills.map (fun f => label f.item)).Sublist (as.map label) := by
  induction q, as using fill_induction r with
  | nil => exact List.Sublist.refl _
  | done => exact List.nil_sublist _
  | skip _ _ _ _ _ ih => exact ih.cons _
  | part q a as =>
      simp only [List.map_cons, List.map_nil, hlabel]
      exact (List.nil_sublist _).cons_cons _
  | whole q a as _ _ _ ih =>
      simp only [List.map_cons, whole, hlabel]
      exact ih.cons_cons _

theorem kept_eq_filterMap [DecidableEq κ] (q : Int) (as : List α) (hn : (as.map label).Nodup) :
    (fill r q as).kept = as.filterMap (remains r label (fill r q as).fills) := by
  induction q, as using fill_induction r with
  | nil => rfl
  | done q a as => exact List.filterMap_some.symm
  | skip q a as _ hs ih =>
      rw [List.map_cons, List.nodup_cons] at hn
      have ha : remains r label (fill r q as).fills a = some a := by
        apply remains_of_not_mem
        exact fun hm => hn.1 ((fills_labels r label hlabel q as).subset hm)
      rw [List.filterMap_cons_some ha, ← ih hn.2]
  | part q a as _ _ ha =>
      rw [List.map_cons, List.nodup_cons] at hn
      have hr : r.amount (r.reduce a q) ≠ 0 := by
        rw [r.amount_reduce]
        omega
      have hself : remains r label [⟨r.reduce a q, q⟩] a = some (r.reduce a q) := by
        rw [remains, if_pos (hlabel a q), if_neg hr]
      rw [List.filterMap_cons_some hself, filterMap_remains_cons r label [] (by rw [hlabel]; exact hn.1)]
      exact congrArg _ List.filterMap_some.symm
  | whole q a as _ _ _ ih =>
      rw [List.map_cons, List.nodup_cons] at hn
      have hr : r.amount (r.reduce a (r.amount a)) = 0 := by
        rw [r.amount_reduce]
        omega
      have hself : remains r label (whole r a :: (fill r (q - r.amount a) as).fills) a = none := by
        rw [remains, whole, if_pos (hlabel a _), if_pos hr]
      rw [List.filterMap_cons_none hself,
        filterMap_remains_cons r label _ (by rw [whole, hlabel]; exact hn.1), ← ih hn.2]

end Labels

theorem skip_mem_kept {q : Int} {as : List α} {a : α} (ha : a ∈ as) (hs : r.skip a = true) :
    a ∈ (fill r q as).kept := by
  induction q, as using fill_induction r with
  | nil => exact ha
  | done => exact ha
  | skip q b as _ _ ih =>
      rcases List.mem_cons.mp ha with rfl | ha
      · exact List.mem_cons_self
      · exact List.mem_cons_of_mem b (ih ha)
  | part q b as _ hb _ =>
      rcases List.mem_cons.mp ha with rfl | ha
      · rw [hs] at hb
        cases hb
      · exact List.mem_cons_of_mem _ ha
  | whole q b as _ hb _ ih =>
      rcases List.mem_cons.mp ha with rfl | ha
      · rw [hs] at hb
        cases hb
      · exact ih ha

theorem fill_fate (q : Int) (as : List α) : ∀ a ∈ as,
    whole r a ∈ (fill r q as).fills ∨ a ∈ (fill r q as).kept ∨
      ∃ t, r.reduce a t ∈ (fill r q as).kept := by
  induction q, as using fill_induction r with
  | nil => simp
  | done => exact fun a ha => Or.inr (Or.inl ha)
  | skip q b as _ _ ih =>
      intro a ha
      rcases List.mem_cons.mp ha with rfl | ha
      · exact Or.inr (Or.inl List.mem_cons_self)
      · rcases ih a ha with h | h | ⟨t, h⟩
        · exact Or.inl h
        · exact Or.inr (Or.inl (List.mem_cons_of_mem b h))
        · exact Or.inr (Or.inr ⟨t, List.mem_cons_of_mem b h⟩)
  | part q b as =>
      intro a ha
      rcases List.mem_cons.mp ha with rfl | ha
      · exact Or.inr (Or.inr ⟨q, List.mem_cons_self⟩)
      · exact Or.inr (Or.inl (List.mem_cons_of_mem _ ha))
  | whole q b as _ _ _ ih =>
      intro a ha
      rcases List.mem_cons.mp ha with rfl | ha
      · exact Or.inl List.mem_cons_self
      · rcases ih a ha with h | h
        · exact Or.inl (List.mem_cons_of_mem _ h)
        · exact Or.inr h

theorem mem_kept {q : Int} {as : List α} (h : ∀ a ∈ as, 0 < r.amount a) :
    ∀ b ∈ (fill r q as).kept, b ∈ as ∨ ∃ a ∈ as, ∃ t, b = r.reduce a t ∧ 0 < r.amount b := by
  induction q, as using fill_induction r with
  | nil => simp
  | done => exact fun b hb => Or.inl hb
  | skip q a as _ _ ih =>
      intro b hb
      rcases List.mem_cons.mp hb with rfl | hb
      · exact Or.inl List.mem_cons_self
      · rcases ih (fun c hc => h c (List.mem_cons_of_mem a hc)) b hb with hb | ⟨c, hc, hbc⟩
        · exact Or.inl (List.mem_cons_of_mem a hb)
        · exact Or.inr ⟨c, List.mem_cons_of_mem a hc, hbc⟩
  | part q a as _ _ ha =>
      intro b hb
      rcases List.mem_cons.mp hb with rfl | hb
      · exact Or.inr ⟨a, List.mem_cons_self, q, rfl, by rw [r.amount_reduce]; omega⟩
      · exact Or.inl (List.mem_cons_of_mem a hb)
  | whole q a as _ _ _ ih =>
      intro b hb
      rcases ih (fun c hc => h c (List.mem_cons_of_mem a hc)) b hb with hb | ⟨c, hc, hbc⟩
      · exact Or.inl (List.mem_cons_of_mem a hb)
      · exact Or.inr ⟨c, List.mem_cons_of_mem a hc, hbc⟩

section Map

variable {β : Type*} {r : Rule α} {r' : Rule β} {f : α → β} {k : Int}

/-- The same service under other names and in other units. -/
theorem fill_map (hk : 0 < k) (hskip : ∀ a, r'.skip (f a) = r.skip a)
    (hamount : ∀ a, r'.amount (f a) = k * r.amount a)
    (hreduce : ∀ a t, r'.reduce (f a) (k * t) = f (r.reduce a t)) (q : Int) (as : List α) :
    fill r' (k * q) (as.map f) =
      ⟨(fill r q as).kept.map f, k * (fill r q as).left,
        (fill r q as).fills.map (fun x => ⟨f x.item, k * x.taken⟩)⟩ := by
  induction as generalizing q with
  | nil => rfl
  | cons a as ih =>
      rw [List.map_cons, fill, fill, hskip]
      by_cases hq : 0 < q
      · rw [if_pos (Int.mul_pos hk hq), if_pos hq]
        cases hs : r.skip a with
        | true => simp [ih]
        | false =>
            have hmin : min (k * q) (k * r.amount a) = k * min q (r.amount a) :=
              (mul_min_of_nonneg q (r.amount a) hk.le).symm
            have hempty : k * r.amount (r.reduce a (min q (r.amount a))) = 0 ↔
                r.amount (r.reduce a (min q (r.amount a))) = 0 := by
              simp [hk.ne']
            rw [hamount, hmin, ← Int.mul_sub, ih (q - min q (r.amount a))]
            simp only [take, hreduce, hamount, hempty, Bool.false_eq_true, if_false]
            split_ifs <;> rfl
      · rw [if_neg (fun h => hq (pos_of_mul_pos_right h hk.le)), if_neg hq]
        rfl

end Map

end Orderbook.Library.QueueFill

import Mathlib.Computability.StateTransition
import Mathlib.Data.List.Induction

namespace Orderbook.Library.Runs

variable {σ τ α β γ : Type*}

/-- A deterministic machine with output: one input gives the next state and the
outputs that this input adds. -/
abbrev Machine (σ α β : Type*) := σ → α → σ × List β

def final (m : Machine σ α β) (s : σ) : List α → σ
  | [] => s
  | a :: as => final m (m s a).1 as

def output (m : Machine σ α β) (s : σ) : List α → List β
  | [] => []
  | a :: as => (m s a).2 ++ output m (m s a).1 as

@[simp] theorem final_nil (m : Machine σ α β) (s : σ) : final m s [] = s := rfl

@[simp] theorem final_cons (m : Machine σ α β) (s : σ) (a : α) (as : List α) :
    final m s (a :: as) = final m (m s a).1 as := rfl

@[simp] theorem output_nil (m : Machine σ α β) (s : σ) : output m s [] = [] := rfl

@[simp] theorem output_cons (m : Machine σ α β) (s : σ) (a : α) (as : List α) :
    output m s (a :: as) = (m s a).2 ++ output m (m s a).1 as := rfl

theorem final_append (m : Machine σ α β) (s : σ) (as bs : List α) :
    final m s (as ++ bs) = final m (final m s as) bs := by
  induction as generalizing s with
  | nil => rfl
  | cons a as ih => exact ih _

theorem output_append (m : Machine σ α β) (s : σ) (as bs : List α) :
    output m s (as ++ bs) = output m s as ++ output m (final m s as) bs := by
  induction as generalizing s with
  | nil => rfl
  | cons a as ih => rw [List.cons_append, output_cons, ih, output_cons, final_cons, List.append_assoc]

theorem final_concat (m : Machine σ α β) (s : σ) (as : List α) (a : α) :
    final m s (as ++ [a]) = (m (final m s as) a).1 := by
  rw [final_append, final_cons, final_nil]

theorem output_concat (m : Machine σ α β) (s : σ) (as : List α) (a : α) :
    output m s (as ++ [a]) = output m s as ++ (m (final m s as) a).2 := by
  rw [output_append, output_cons, output_nil, List.append_nil]

def mapOutput (m : Machine σ α β) (g : β → γ) : Machine σ α γ :=
  fun s a => ((m s a).1, (m s a).2.map g)

theorem output_mapOutput (m : Machine σ α β) (g : β → γ) (s : σ) (as : List α) :
    output (mapOutput m g) s as = (output m s as).map g := by
  induction as generalizing s with
  | nil => rfl
  | cons a as ih =>
      rw [output_cons, output_cons, List.map_append]
      exact congrArg _ (ih (m s a).1)

theorem final_preserves (m : Machine σ α β) (P : σ → Prop)
    (hstep : ∀ s a, P s → P (m s a).1) (as : List α) (s : σ) (hs : P s) : P (final m s as) := by
  induction as generalizing s with
  | nil => exact hs
  | cons a as ih => exact ih _ (hstep s a hs)

/-- The same for a property that only steps admitted by `A` preserve: every step
of the run, taken in the state where it is taken, has to be admitted. -/
theorem final_preserves_of (m : Machine σ α β) (P : σ → Prop) (A : σ → α → Prop)
    (hstep : ∀ s a, P s → A s a → P (m s a).1) (as : List α) (s : σ) (hs : P s)
    (hA : ∀ pre a post, as = pre ++ a :: post → A (final m s pre) a) : P (final m s as) := by
  induction as using List.reverseRecOn with
  | nil => exact hs
  | append_singleton as a ih =>
      rw [final_concat]
      apply hstep
      · exact ih (fun pre b post h => hA pre b (post ++ [a]) (by simp [h]))
      · exact hA as a [] rfl

theorem forall_steps_iff (m : Machine σ α β) {P : σ → Prop} {A B : σ → α → Prop}
    (hiff : ∀ s a, P s → (A s a ↔ B s a)) (hstep : ∀ s a, P s → B s a → P (m s a).1) {s : σ}
    (hs : P s) (as : List α) :
    (∀ pre a post, as = pre ++ a :: post → A (final m s pre) a) ↔
      ∀ pre a post, as = pre ++ a :: post → B (final m s pre) a := by
  constructor
  · intro h pre a post has
    have hp : P (final m s pre) := by
      apply final_preserves_of m P A _ pre s hs
      · rintro front b back rfl
        exact h front b (back ++ a :: post) (by simp [has])
      · exact fun s a hs ha => hstep s a hs ((hiff s a hs).mp ha)
    exact (hiff _ a hp).mp (h pre a post has)
  · intro h pre a post has
    have hp : P (final m s pre) := by
      apply final_preserves_of m P B hstep pre s hs
      rintro front b back rfl
      exact h front b (back ++ a :: post) (by simp [has])
    exact (hiff _ a hp).mpr (h pre a post has)

/-- `f` maps every run of `m` that starts in `I` to a run of `n` with the same outputs. -/
theorem simulates (m : Machine σ α β) (n : Machine τ α β) (I : σ → Prop) (f : σ → τ)
    (hI : ∀ s a, I s → I (m s a).1)
    (hs : ∀ s a, I s → n (f s) a = (f (m s a).1, (m s a).2)) (as : List α) (s : σ) (h : I s) :
    final n (f s) as = f (final m s as) ∧ output n (f s) as = output m s as := by
  induction as generalizing s with
  | nil => exact ⟨rfl, rfl⟩
  | cons a as ih =>
      obtain ⟨hf, ho⟩ := ih (m s a).1 (hI s a h)
      rw [final_cons, output_cons, hs s a h]
      exact ⟨hf, congrArg _ ho⟩

theorem final_transports {α' : Type*} (m : Machine σ α β) (n : Machine τ α' γ) (I : σ → Prop) (f : σ → τ)
    (g : α → α') (hI : ∀ s a, I s → I (m s a).1) (h : ∀ s a, I s → (n (f s) (g a)).1 = f (m s a).1)
    (as : List α) (s : σ) (hs : I s) : final n (f s) (as.map g) = f (final m s as) := by
  induction as generalizing s with
  | nil => rfl
  | cons a as ih => rw [List.map_cons, final_cons, final_cons, h s a hs, ih _ (hI s a hs)]

theorem final_projects (m : Machine σ α β) (n : Machine τ α γ) (f : σ → τ)
    (h : ∀ s a, (n (f s) a).1 = f (m s a).1) (as : List α) (s : σ) :
    final n (f s) as = f (final m s as) := by
  have hf := final_transports m n (fun _ => True) f id (fun _ _ _ => trivial) (fun s a _ => h s a) as s trivial
  rwa [List.map_id] at hf

theorem final_mapOutput (m : Machine σ α β) (g : β → γ) (as : List α) (s : σ) :
    final (mapOutput m g) s as = final m s as :=
  final_projects m (mapOutput m g) id (fun _ _ => rfl) as s

/-- Machines that go through the same states, with outputs of the same lengths, have the
same output in a run exactly if they have it at each of its steps. -/
theorem output_eq_iff {m n : Machine σ α β} (hstate : ∀ s a, (m s a).1 = (n s a).1)
    (hlength : ∀ s a, (m s a).2.length = (n s a).2.length) (as : List α) (s : σ) :
    output m s as = output n s as ↔
      ∀ pre a post, as = pre ++ a :: post → (m (final m s pre) a).2 = (n (final m s pre) a).2 := by
  induction as generalizing s with
  | nil =>
      refine ⟨fun _ pre a post has => ?_, fun _ => rfl⟩
      cases pre <;> cases has
  | cons a as ih =>
      have hcons : output m s (a :: as) = output n s (a :: as) ↔
          (m s a).2 = (n s a).2 ∧ output m (m s a).1 as = output n (m s a).1 as := by
        rw [output_cons, output_cons, ← hstate]
        exact ⟨fun h => List.append_inj h (hlength s a), fun h => congrArg₂ _ h.1 h.2⟩
      rw [hcons, ih]
      constructor
      · rintro ⟨ha, has⟩ pre b post he
        cases pre with
        | nil =>
            cases he
            exact ha
        | cons c pre =>
            obtain ⟨rfl, hrest⟩ := List.cons.inj he
            exact has pre b post hrest
      · intro h
        exact ⟨h [] a as rfl, fun pre b post he => h (a :: pre) b post (congrArg _ he)⟩

theorem final_filter (m : Machine σ α β) (p : α → Bool) (h : ∀ s a, p a = false → (m s a).1 = s)
    (as : List α) (s : σ) : final m s (as.filter p) = final m s as := by
  induction as generalizing s with
  | nil => rfl
  | cons a as ih =>
      cases hp : p a with
      | false => rw [List.filter_cons_of_neg (by simp [hp]), final_cons, h s a hp, ih]
      | true => rw [List.filter_cons_of_pos hp, final_cons, final_cons, ih]

section Loops

open StateTransition

variable {step : σ → Option σ} {s t u : σ}

theorem reaches_one (h : step s = some t) : Reaches step s t := Relation.ReflTransGen.single h

theorem reaches_cons (h : step s = some t) (hr : Reaches step t u) : Reaches step s u :=
  Relation.ReflTransGen.head h hr

theorem eval_of_reaches (hr : Reaches step s t) (ht : step t = none) : t ∈ eval step s :=
  mem_eval.mpr ⟨hr, ht⟩

theorem inTime_one {n : Nat} (h : step s = some t) : Nonempty (EvalsToInTime step s (some t) (n + 1)) :=
  ⟨⟨⟨1, h⟩, Nat.le_add_left 1 n⟩⟩

theorem inTime_cons {m n : Nat} (h : step s = some t) (hr : Nonempty (EvalsToInTime step t (some u) m)) (hm : m < n) :
    Nonempty (EvalsToInTime step s (some u) n) := by
  obtain ⟨hr⟩ := hr
  refine ⟨⟨⟨hr.steps + 1, ?_⟩, Nat.le_trans (Nat.succ_le_succ hr.steps_le_m) hm⟩⟩
  change (flip bind step)^[hr.steps] (step s) = some u
  rw [h]
  exact hr.evals_in_steps

theorem not_reaches_stuck (h : t ∈ eval step s) (hu : step u = none) (hne : u ≠ t) : ¬ Reaches step s u :=
  fun hr => hne (Part.mem_unique (eval_of_reaches hr hu) h)

end Loops

end Orderbook.Library.Runs

import Mathlib.Algebra.Group.Action.Defs
import Mathlib.Algebra.Order.BigOperators.Group.Finset
import Mathlib.Data.ENat.Basic
import Mathlib.Data.Fintype.Card

namespace Orderbook.Library.Monitor

inductive Signal
  | none
  | one
  | all
  deriving DecidableEq

/-- Data behind a mutex with a condition variable. A call takes the mutex, waits until its
guard holds, acts, releases the mutex and notifies. -/
structure Calls (σ κ ρ : Type*) where
  guard : κ → σ → Bool
  act : κ → σ → σ × ρ
  signal : κ → Signal

inductive Phase (κ ρ : Type*)
  | idle
  | entering (c : κ)
  | checking (c : κ)
  | asleep (c : κ)
  | woken (c : κ)
  | acting (c : κ)
  | leaving (c : κ) (r : ρ)
  | signalling (c : κ) (r : ρ)

structure State (τ σ κ ρ : Type*) where
  shared : σ
  owner : Option τ
  phase : τ → Phase κ ρ

inductive Event (τ κ ρ : Type*)
  | call (t : τ) (c : κ)
  | acts (t : τ) (c : κ) (r : ρ)
  | returns (t : τ) (c : κ) (r : ρ)

variable {τ σ κ ρ : Type*} [DecidableEq τ]

def start (d : σ) : State τ σ κ ρ := ⟨d, none, fun _ => .idle⟩

def State.goto (s : State τ σ κ ρ) (t : τ) (p : Phase κ ρ) : State τ σ κ ρ :=
  { s with phase := Function.update s.phase t p }

def Phase.wake : Phase κ ρ → Phase κ ρ
  | .asleep c => .woken c
  | p => p

/-- One step of one thread. A sleeping thread may wake without having been notified, and
the mutex may be given to any of the threads that want it. -/
inductive Step (m : Calls σ κ ρ) : State τ σ κ ρ → Option (Event τ κ ρ) → State τ σ κ ρ → Prop
  | call (s) (t) (c) (hp : s.phase t = .idle) : Step m s (some (.call t c)) (s.goto t (.entering c))
  | enter (s) (t) (c) (hp : s.phase t = .entering c) (ho : s.owner = none) :
      Step m s none { s.goto t (.checking c) with owner := some t }
  | reenter (s) (t) (c) (hp : s.phase t = .woken c) (ho : s.owner = none) :
      Step m s none { s.goto t (.checking c) with owner := some t }
  | sleep (s) (t) (c) (hp : s.phase t = .checking c) (hg : m.guard c s.shared = false) :
      Step m s none { s.goto t (.asleep c) with owner := none }
  | pass (s) (t) (c) (hp : s.phase t = .checking c) (hg : m.guard c s.shared = true) :
      Step m s none (s.goto t (.acting c))
  | act (s) (t) (c) (hp : s.phase t = .acting c) :
      Step m s (some (.acts t c (m.act c s.shared).2))
        { s.goto t (.leaving c (m.act c s.shared).2) with shared := (m.act c s.shared).1 }
  | leave (s) (t) (c) (r) (hp : s.phase t = .leaving c r) :
      Step m s none { s.goto t (.signalling c r) with owner := none }
  | wake (s) (t) (c) (hp : s.phase t = .asleep c) : Step m s none (s.goto t (.woken c))
  | silent (s) (t) (c) (r) (hp : s.phase t = .signalling c r) (hs : m.signal c = .none) :
      Step m s (some (.returns t c r)) (s.goto t .idle)
  | notifyOne (s) (t) (c) (r) (hp : s.phase t = .signalling c r) (hs : m.signal c = .one) (u) (d)
      (hu : s.phase u = .asleep d) :
      Step m s (some (.returns t c r)) ((s.goto t .idle).goto u (.woken d))
  | notifyNobody (s) (t) (c) (r) (hp : s.phase t = .signalling c r) (hs : m.signal c = .one)
      (hn : ∀ u d, s.phase u ≠ .asleep d) : Step m s (some (.returns t c r)) (s.goto t .idle)
  | notifyAll (s) (t) (c) (r) (hp : s.phase t = .signalling c r) (hs : m.signal c = .all) :
      Step m s (some (.returns t c r))
        { s with phase := fun u => (Function.update s.phase t .idle u).wake }

inductive Run (m : Calls σ κ ρ) (s : State τ σ κ ρ) : List (Event τ κ ρ) → State τ σ κ ρ → Prop
  | refl : Run m s [] s
  | tail {s' s''} {es} {e} (h : Run m s es s') (hs : Step m s' e s'') : Run m s (es ++ e.toList) s''

section Phases

open Finset

variable (s : State τ σ κ ρ) {t u : τ}

@[simp] theorem goto_phase_self (t : τ) (p : Phase κ ρ) : (s.goto t p).phase t = p := by
  simp [State.goto]

theorem goto_phase_of_ne (h : u ≠ t) (p : Phase κ ρ) : (s.goto t p).phase u = s.phase u := by
  simp [State.goto, h]

variable {s} in
theorem notified_phase {c d : κ} {r : ρ} (ht : s.phase t = .signalling c r) (hu : s.phase u = .asleep d)
    (w : τ) : ((s.goto t .idle).goto u (.woken d)).phase w =
      if w = u then ((s.goto t .idle).phase w).wake else (s.goto t .idle).phase w := by
  have hne : u ≠ t := by
    rintro rfl
    rw [ht] at hu
    cases hu
  by_cases hw : w = u
  · rw [hw, goto_phase_self, if_pos rfl, goto_phase_of_ne s hne, hu]
    rfl
  · rw [goto_phase_of_ne _ hw, if_neg hw]

theorem sum_goto [Fintype τ] (t : τ) (p : Phase κ ρ) (f : Phase κ ρ → ℕ) :
    ∑ u, f ((s.goto t p).phase u) + f (s.phase t) = ∑ u, f (s.phase u) + f p := by
  have hrest : ∑ u ∈ univ.erase t, f ((s.goto t p).phase u) = ∑ u ∈ univ.erase t, f (s.phase u) :=
    sum_congr rfl (fun u hu => by rw [goto_phase_of_ne s (ne_of_mem_erase hu)])
  rw [← add_sum_erase univ _ (mem_univ t), ← add_sum_erase univ _ (mem_univ t), hrest, goto_phase_self]
  omega

end Phases

section Exclusion

variable {m : Calls σ κ ρ} {s s' : State τ σ κ ρ} {e : Option (Event τ κ ρ)}

def Phase.holds : Phase κ ρ → Bool
  | .checking _ => true
  | .acting _ => true
  | .leaving _ _ => true
  | _ => false

/-- The mutex is with the thread that is inside, and a guard that was found true stays so
until the thread acts. -/
structure Exclusive (m : Calls σ κ ρ) (s : State τ σ κ ρ) : Prop where
  owner_iff : ∀ t, s.owner = some t ↔ (s.phase t).holds = true
  guarded : ∀ t c, s.phase t = .acting c → m.guard c s.shared = true

omit [DecidableEq τ] in
theorem exclusive_start (m : Calls σ κ ρ) (d : σ) : Exclusive m (start d : State τ σ κ ρ) :=
  ⟨fun t => by simp [start, Phase.holds], fun t c h => by cases h⟩

omit [DecidableEq τ] in
theorem wake_holds (p : Phase κ ρ) : p.wake.holds = p.holds := by
  cases p <;> rfl

omit [DecidableEq τ] in
theorem wake_acting {p : Phase κ ρ} {c : κ} (h : p.wake = .acting c) : p = .acting c := by
  cases p <;> cases h
  rfl

variable {t : τ} {p : Phase κ ρ} (h : Exclusive m s)
include h

omit [DecidableEq τ] in
theorem Exclusive.only {u : τ} (ht : (s.phase t).holds = true) (hu : (s.phase u).holds = true) : u = t := by
  rw [← h.owner_iff] at ht hu
  exact Option.some.inj (hu.symm.trans ht)

omit [DecidableEq τ] in
theorem Exclusive.free (ho : s.owner = none) (u : τ) : (s.phase u).holds = false := by
  rw [← Bool.not_eq_true, ← h.owner_iff, ho]
  exact fun he => by cases he

theorem Exclusive.goto (hh : p.holds = (s.phase t).holds)
    (hg : ∀ c, p = .acting c → m.guard c s.shared = true) : Exclusive m (s.goto t p) := by
  constructor
  · intro u
    by_cases hu : u = t
    · rw [hu, goto_phase_self, hh]
      exact h.owner_iff t
    · rw [goto_phase_of_ne s hu]
      exact h.owner_iff u
  · intro u c hc
    by_cases hu : u = t
    · rw [hu, goto_phase_self] at hc
      exact hg c hc
    · rw [goto_phase_of_ne s hu] at hc
      exact h.guarded u c hc

theorem Exclusive.enter (ho : s.owner = none) (c : κ) :
    Exclusive m { s.goto t (.checking c) with owner := some t } := by
  constructor
  · intro u
    change some t = some u ↔ ((s.goto t (.checking c)).phase u).holds = true
    by_cases hu : u = t
    · rw [hu, goto_phase_self]
      exact ⟨fun _ => rfl, fun _ => rfl⟩
    · rw [goto_phase_of_ne s hu, h.free ho u]
      exact ⟨fun he => absurd (Option.some.inj he).symm hu, Bool.noConfusion⟩
  · intro u d hd
    change (s.goto t (.checking c)).phase u = _ at hd
    by_cases hu : u = t
    · rw [hu, goto_phase_self] at hd
      cases hd
    · rw [goto_phase_of_ne s hu] at hd
      exact h.guarded u d hd

theorem Exclusive.exit (ht : (s.phase t).holds = true) (hp : p.holds = false) :
    Exclusive m { s.goto t p with owner := none } := by
  have hrest (u : τ) : ((s.goto t p).phase u).holds = false := by
    by_cases hu : u = t
    · rw [hu, goto_phase_self, hp]
    · rw [goto_phase_of_ne s hu, ← Bool.not_eq_true]
      exact fun hh => hu (h.only ht hh)
  constructor
  · intro u
    change none = some u ↔ ((s.goto t p).phase u).holds = true
    rw [hrest u]
    exact ⟨fun he => absurd he.symm (Option.some_ne_none u), Bool.noConfusion⟩
  · intro u c hc
    have hh := hrest u
    rw [show (s.goto t p).phase u = .acting c from hc] at hh
    cases hh

theorem Exclusive.act {c : κ} (ht : s.phase t = .acting c) (d : σ) (r : ρ) :
    Exclusive m { s.goto t (.leaving c r) with shared := d } := by
  have hholds : (s.phase t).holds = true := by rw [ht]; rfl
  have hgoto := h.goto (t := t) (p := .leaving c r) (by rw [ht]; rfl) (fun d hd => by cases hd)
  refine ⟨hgoto.owner_iff, fun u e hu => ?_⟩
  -- nobody else is inside, so no other guard has been found true
  change (s.goto t (.leaving c r)).phase u = _ at hu
  by_cases hut : u = t
  · rw [hut, goto_phase_self] at hu
    cases hu
  · rw [goto_phase_of_ne s hut] at hu
    exact absurd (h.only hholds (by rw [hu]; rfl)) hut

theorem exclusive_step (hs : Step m s e s') : Exclusive m s' := by
  have hidle {t : τ} {c : κ} {r : ρ} (hp : s.phase t = .signalling c r) : Exclusive m (s.goto t .idle) :=
    h.goto (by rw [hp]; rfl) (fun d hd => by cases hd)
  cases hs with
  | call t c hp => exact h.goto (by rw [hp]; rfl) (fun d hd => by cases hd)
  | enter t c hp ho => exact h.enter ho c
  | reenter t c hp ho => exact h.enter ho c
  | sleep t c hp hg => exact h.exit (by rw [hp]; rfl) rfl
  | pass t c hp hg =>
      apply h.goto (by rw [hp]; rfl)
      rintro d hd
      cases hd
      exact hg
  | act t c hp => exact h.act hp _ _
  | leave t c r hp => exact h.exit (by rw [hp]; rfl) rfl
  | wake t c hp => exact h.goto (by rw [hp]; rfl) (fun d hd => by cases hd)
  | silent t c r hp hs => exact hidle hp
  | notifyOne t c r hp hs u d hu =>
      have hi := hidle hp
      constructor
      · intro w
        rw [notified_phase hp hu]
        split_ifs
        · rw [wake_holds]
          exact hi.owner_iff w
        · exact hi.owner_iff w
      · intro w e hw
        rw [notified_phase hp hu] at hw
        split_ifs at hw
        · exact hi.guarded w e (wake_acting hw)
        · exact hi.guarded w e hw
  | notifyNobody t c r hp hs hn => exact hidle hp
  | notifyAll t c r hp hs =>
      have hi := hidle hp
      refine ⟨fun u => ?_, fun u d hu => hi.guarded u d (wake_acting hu)⟩
      rw [wake_holds]
      exact hi.owner_iff u

end Exclusion

theorem exclusive_run {m : Calls σ κ ρ} {d : σ} {es : List (Event τ κ ρ)} {s : State τ σ κ ρ}
    (h : Run m (start d) es s) : Exclusive m s := by
  induction h with
  | refl => exact exclusive_start m d
  | tail _ hs ih => exact exclusive_step ih hs

section Service

def Phase.pending : Phase κ ρ → Option (κ × Option ρ)
  | .idle => none
  | .entering c => some (c, none)
  | .checking c => some (c, none)
  | .asleep c => some (c, none)
  | .woken c => some (c, none)
  | .acting c => some (c, none)
  | .leaving c r => some (c, some r)
  | .signalling c r => some (c, some r)

def State.pending (s : State τ σ κ ρ) (t : τ) : Option (κ × Option ρ) := (s.phase t).pending

def State.result (s : State τ σ κ ρ) (t : τ) : Option ρ := (s.pending t).bind Prod.snd

/-- The steps of data whose calls act at once: a call begins, it acts when its guard holds, and
its thread takes the result. -/
inductive AtOnce (m : Calls σ κ ρ) (d : σ) (w : τ → Option (κ × Option ρ)) :
    Option (Event τ κ ρ) → σ → (τ → Option (κ × Option ρ)) → Prop
  | rests : AtOnce m d w none d w
  | call (t) (c) (h : w t = none) :
      AtOnce m d w (some (.call t c)) d (Function.update w t (some (c, none)))
  | acts (t) (c) (h : w t = some (c, none)) (hg : m.guard c d = true) :
      AtOnce m d w (some (.acts t c (m.act c d).2)) (m.act c d).1
        (Function.update w t (some (c, some (m.act c d).2)))
  | returns (t) (c) (r) (h : w t = some (c, some r)) :
      AtOnce m d w (some (.returns t c r)) d (Function.update w t none)

section Inversion

variable {m : Calls σ κ ρ} {d d' : σ} {w w' : τ → Option (κ × Option ρ)} {t : τ} {c : κ} {r : ρ}

theorem atOnce_rests (h : AtOnce m d w none d' w') : d' = d ∧ w' = w := by
  cases h
  exact ⟨rfl, rfl⟩

theorem atOnce_call (h : AtOnce m d w (some (.call t c)) d' w') :
    w t = none ∧ d' = d ∧ w' = Function.update w t (some (c, none)) := by
  cases h with
  | call t c ht => exact ⟨ht, rfl, rfl⟩

theorem atOnce_acts (h : AtOnce m d w (some (.acts t c r)) d' w') :
    w t = some (c, none) ∧ m.guard c d = true ∧ m.act c d = (d', r) ∧
      w' = Function.update w t (some (c, some r)) := by
  cases h with
  | acts t c ht hg => exact ⟨ht, hg, rfl, rfl⟩

theorem atOnce_returns (h : AtOnce m d w (some (.returns t c r)) d' w') :
    w t = some (c, some r) ∧ d' = d ∧ w' = Function.update w t none := by
  cases h with
  | returns t c r ht => exact ⟨ht, rfl, rfl⟩

end Inversion

section Results

variable {s s' : State τ σ κ ρ} {t u : τ} {c : κ} {o : Option ρ}

omit [DecidableEq τ] in
theorem result_of_pending (h : s.pending t = some (c, o)) : s.result t = o := by
  rw [State.result, h]
  rfl

omit [DecidableEq τ] in
theorem result_of_outside (h : s.pending t = none) : s.result t = none := by
  rw [State.result, h]
  rfl

theorem result_update {x : Option (κ × Option ρ)} (h : s'.pending = Function.update s.pending t x) :
    s'.result = Function.update s.result t (x.bind Prod.snd) := by
  funext u
  by_cases hu : u = t
  · rw [hu, Function.update_self, State.result, h, Function.update_self]
  · rw [Function.update_of_ne hu, State.result, h, Function.update_of_ne hu, State.result]

end Results

variable {m : Calls σ κ ρ} {s s' : State τ σ κ ρ} {e : Option (Event τ κ ρ)} {t u : τ} {p : Phase κ ρ}

omit [DecidableEq τ] in
theorem wake_pending (p : Phase κ ρ) : p.wake.pending = p.pending := by
  cases p <;> rfl

theorem pending_goto (s : State τ σ κ ρ) (t : τ) (p : Phase κ ρ) :
    (s.goto t p).pending = Function.update s.pending t p.pending := by
  funext u
  by_cases hu : u = t
  · rw [hu, State.pending, goto_phase_self, Function.update_self]
  · rw [State.pending, goto_phase_of_ne s hu, Function.update_of_ne hu, State.pending]

theorem pending_goto_same (h : (s.phase t).pending = p.pending) : (s.goto t p).pending = s.pending := by
  rw [pending_goto, ← h]
  exact Function.update_eq_self t s.pending

/-- Seen from its callers, the monitor's calls act at once. -/
theorem step_atOnce (hx : Exclusive m s) (hs : Step m s e s') :
    AtOnce m s.shared s.pending e s'.shared s'.pending := by
  have hquiet {t : τ} {p : Phase κ ρ} (h : (s.phase t).pending = p.pending) :
      AtOnce m s.shared s.pending none s.shared (s.goto t p).pending := by
    rw [pending_goto_same h]
    exact .rests
  have hreturn {t : τ} {c : κ} {r : ρ} (hp : s.phase t = .signalling c r) :
      AtOnce m s.shared s.pending (some (.returns t c r)) s.shared (s.goto t .idle).pending := by
    rw [pending_goto]
    exact .returns t c r (by rw [State.pending, hp]; rfl)
  cases hs with
  | call t c hp =>
      rw [pending_goto]
      exact .call t c (by rw [State.pending, hp]; rfl)
  | enter t c hp ho => exact hquiet (by rw [hp]; rfl)
  | reenter t c hp ho => exact hquiet (by rw [hp]; rfl)
  | sleep t c hp hg => exact hquiet (by rw [hp]; rfl)
  | pass t c hp hg => exact hquiet (by rw [hp]; rfl)
  | act t c hp =>
      change AtOnce m s.shared s.pending _ _ (s.goto t (.leaving c (m.act c s.shared).2)).pending
      rw [pending_goto]
      exact .acts t c (by rw [State.pending, hp]; rfl) (hx.guarded t c hp)
  | leave t c r hp => exact hquiet (by rw [hp]; rfl)
  | wake t c hp => exact hquiet (by rw [hp]; rfl)
  | silent t c r hp hs => exact hreturn hp
  | notifyNobody t c r hp hs hn => exact hreturn hp
  | notifyOne t c r hp hs u d hu =>
      have hsame : ((s.goto t .idle).goto u (.woken d)).pending = (s.goto t .idle).pending := by
        funext w
        rw [State.pending, notified_phase hp hu]
        split_ifs
        · exact wake_pending _
        · rfl
      rw [hsame]
      exact hreturn hp
  | notifyAll t c r hp hs =>
      have hsame : (⟨s.shared, s.owner, fun u => (Function.update s.phase t .idle u).wake⟩ :
          State τ σ κ ρ).pending = (s.goto t .idle).pending :=
        funext (fun u => wake_pending _)
      rw [hsame]
      exact hreturn hp

end Service

section Linearization

inductive Atomic (m : Calls σ κ ρ) (d : σ) : List (κ × ρ) → σ → Prop
  | refl : Atomic m d [] d
  | tail {as} {d'} (c) (h : Atomic m d as d') (hg : m.guard c d' = true) :
      Atomic m d (as ++ [(c, (m.act c d').2)]) (m.act c d').1

def Event.thread : Event τ κ ρ → τ
  | .call t _ => t
  | .acts t _ _ => t
  | .returns t _ _ => t

def Event.action : Event τ κ ρ → Option (κ × ρ)
  | .acts _ c r => some (c, r)
  | _ => none

def actions (es : List (Event τ κ ρ)) : List (κ × ρ) := es.filterMap Event.action

def ofThread (t : τ) (es : List (Event τ κ ρ)) : List (Event τ κ ρ) := es.filter (fun e => e.thread = t)

def finished (t : τ) (a : κ × ρ) : List (Event τ κ ρ) :=
  [.call t a.1, .acts t a.1 a.2, .returns t a.1 a.2]

def shown (t : τ) : Option (κ × Option ρ) → List (Event τ κ ρ)
  | none => []
  | some (c, none) => [.call t c]
  | some (c, some r) => [.call t c, .acts t c r]

/-- Every call acts once, between its beginning and its end, and these actions in their
order are calls one after the other. -/
structure Linearizes (m : Calls σ κ ρ) (d : σ) (es : List (Event τ κ ρ)) (s : State τ σ κ ρ) : Prop where
  atomic : Atomic m d (actions es) s.shared
  in_turn : ∀ t, ∃ done : List (κ × ρ), ofThread t es = done.flatMap (finished t) ++ shown t (s.pending t)

variable {m : Calls σ κ ρ} {d d' d₀ : σ} {w w' : τ → Option (κ × Option ρ)} {e : Option (Event τ κ ρ)}
  {es : List (Event τ κ ρ)} {t : τ}

theorem ofThread_append (t : τ) (es fs : List (Event τ κ ρ)) :
    ofThread t (es ++ fs) = ofThread t es ++ ofThread t fs := List.filter_append ..

theorem ofThread_other {ev : Event τ κ ρ} (h : ev.thread ≠ t) : ofThread t [ev] = [] := by
  simp [ofThread, h]

theorem ofThread_self {ev : Event τ κ ρ} (h : ev.thread = t) : ofThread t [ev] = [ev] := by
  simp [ofThread, h]

theorem atOnce_atomic (ha : Atomic m d₀ (actions es) d) (hs : AtOnce m d w e d' w') :
    Atomic m d₀ (actions (es ++ e.toList)) d' := by
  rw [actions, List.filterMap_append, ← actions]
  cases hs with
  | rests | call t c h | returns t c r h =>
      change Atomic m d₀ (actions es ++ []) d
      rwa [List.append_nil]
  | acts t c h hg => exact ha.tail c hg

theorem atOnce_in_turn (hs : AtOnce m d w e d' w') (u : τ) {done : List (κ × ρ)}
    (h : ofThread u es = done.flatMap (finished u) ++ shown u (w u)) :
    ∃ done' : List (κ × ρ), ofThread u (es ++ e.toList) = done'.flatMap (finished u) ++ shown u (w' u) := by
  rw [ofThread_append, h, List.append_assoc]
  cases hs with
  | rests => exact ⟨done, congrArg _ (List.append_nil _)⟩
  | call t c ht =>
      refine ⟨done, congrArg _ ?_⟩
      by_cases hu : u = t
      · rw [hu, ht, Function.update_self]
        exact ofThread_self rfl
      · rw [Function.update_of_ne hu, Option.toList, ofThread_other (fun h => hu h.symm), List.append_nil]
  | acts t c ht hg =>
      refine ⟨done, congrArg _ ?_⟩
      by_cases hu : u = t
      · subst hu
        rw [ht, Function.update_self, Option.toList, ofThread_self (by rfl)]
        rfl
      · rw [Function.update_of_ne hu, Option.toList, ofThread_other (fun h => hu h.symm), List.append_nil]
  | returns t c r ht =>
      by_cases hu : u = t
      · refine ⟨done ++ [(c, r)], ?_⟩
        subst hu
        rw [ht, Function.update_self, Option.toList, ofThread_self (by rfl), List.flatMap_append,
          List.append_assoc]
        rfl
      · refine ⟨done, congrArg _ ?_⟩
        rw [Function.update_of_ne hu, Option.toList, ofThread_other (fun h => hu h.symm), List.append_nil]

theorem run_linearizes {s : State τ σ κ ρ} (h : Run m (start d) es s) : Linearizes m d es s := by
  induction h with
  | refl => exact ⟨.refl, fun t => ⟨[], rfl⟩⟩
  | tail hr hs ih =>
      have honce := step_atOnce (exclusive_run hr) hs
      refine ⟨atOnce_atomic ih.atomic honce, fun t => ?_⟩
      obtain ⟨done, hd⟩ := ih.in_turn t
      exact atOnce_in_turn honce t hd

end Linearization

section Alone

variable (m : Calls σ κ ρ) {d d' : σ} {t : τ} {c : κ} {r : ρ}

theorem start_goto_idle {s : State τ σ κ ρ} (h : ∀ u, u ≠ t → s.phase u = .idle) :
    (s.goto t .idle).phase = fun _ => .idle := by
  funext u
  by_cases hu : u = t
  · rw [hu, goto_phase_self]
  · rw [goto_phase_of_ne s hu, h u hu]

theorem alone_returns {s : State τ σ κ ρ} (hs : s.shared = d) (ho : s.owner = none)
    (hp : s.phase t = .signalling c r) (h : ∀ u, u ≠ t → s.phase u = .idle) :
    Step m s (some (.returns t c r)) (start d) := by
  have hidle := start_goto_idle h
  have hstart : s.goto t .idle = start d := by
    rw [start, ← hs, ← ho, ← hidle]
    rfl
  cases hsig : m.signal c with
  | none =>
      rw [← hstart]
      exact .silent s t c r hp hsig
  | one =>
      rw [← hstart]
      refine .notifyNobody s t c r hp hsig (fun u d hu => ?_)
      by_cases hut : u = t
      · rw [hut, hp] at hu
        cases hu
      · rw [h u hut] at hu
        cases hu
  | all =>
      have hall := Step.notifyAll (m := m) s t c r hp hsig
      have hwake : (fun u => (Function.update s.phase t .idle u).wake) = fun _ => Phase.idle := by
        change (fun u => ((s.goto t .idle).phase u).wake) = _
        rw [hidle]
        rfl
      rw [hwake] at hall
      rw [start, ← hs, ← ho]
      exact hall

theorem start_calls (t : τ) (hg : m.guard c d = true) (ha : m.act c d = (d', r)) :
    ∃ q₁ q₂ q₃ q₄ q₅ : State τ σ κ ρ, Step m (start d) (some (.call t c)) q₁ ∧ Step m q₁ none q₂ ∧
      Step m q₂ none q₃ ∧ Step m q₃ (some (.acts t c r)) q₄ ∧ Step m q₄ none q₅ ∧
        Step m q₅ (some (.returns t c r)) (start d') := by
  obtain ⟨rfl, rfl⟩ := Prod.mk.inj ha
  refine ⟨_, _, _, _, _, .call _ t c rfl, .enter _ t c (goto_phase_self _ t _) rfl,
    .pass _ t c (goto_phase_self _ t _) hg, .act _ t c (goto_phase_self _ t _),
    .leave _ t c _ (goto_phase_self _ t _), alone_returns m rfl rfl (goto_phase_self _ t _) ?_⟩
  intro u hu
  simp [State.goto, start, hu]

end Alone

section Wakeups

open Finset

/-- `avail` counts the waiting calls that the data can let pass. A call that may wait has
its guard while there is one left for it, and uses it up; another call never waits, and
adds no more than it notifies about. -/
structure Notifies (m : Calls σ κ ρ) (waits : κ → Bool) (avail : σ → ℕ∞) : Prop where
  guard : ∀ c d, m.guard c d = false → waits c = true ∧ avail d = 0
  silent : ∀ c, waits c = true → m.signal c = .none
  uses : ∀ c d, waits c = true → m.guard c d = true → avail (m.act c d).1 + 1 ≤ avail d
  adds_none : ∀ c d, waits c = false → m.signal c = .none → avail (m.act c d).1 ≤ avail d
  adds_one : ∀ c d, waits c = false → m.signal c = .one → avail (m.act c d).1 ≤ avail d + 1

section Credits

variable (m : Calls σ κ ρ) (waits : κ → Bool)

/-- A thread on its way to its guard, or with a notification to give, will look after one
waiting call. -/
def Phase.credit : Phase κ ρ → ℕ
  | .idle => 0
  | .entering c => if waits c then 1 else 0
  | .checking c => if waits c then 1 else 0
  | .asleep _ => 0
  | .woken c => if waits c then 1 else 0
  | .acting c => if waits c then 1 else 0
  | .leaving c _ => if m.signal c = .one then 1 else 0
  | .signalling c _ => if m.signal c = .one then 1 else 0

def Phase.alarm : Phase κ ρ → Prop
  | .leaving c _ => m.signal c = .all
  | .signalling c _ => m.signal c = .all
  | _ => False

def Quiescent (s : State τ σ κ ρ) : Prop := ∀ t, s.phase t = .idle ∨ ∃ c, s.phase t = .asleep c

def Sleeping (s : State τ σ κ ρ) : Prop := ∃ t c, s.phase t = .asleep c

variable [Fintype τ]

def credits (s : State τ σ κ ρ) : ℕ := ∑ t, (s.phase t).credit m waits

/-- While a thread sleeps, somebody is going to wake everybody, or there are as many threads
under way as waiting calls that could pass. -/
structure Covered (avail : σ → ℕ∞) (s : State τ σ κ ρ) : Prop where
  waits_of_asleep : ∀ t c, s.phase t = .asleep c → waits c = true
  owed : Sleeping s → (∃ t, (s.phase t).alarm m) ∨ avail s.shared ≤ credits m waits s

end Credits

variable {m : Calls σ κ ρ} {waits : κ → Bool} {avail : σ → ℕ∞} [Fintype τ] {s s' : State τ σ κ ρ}
  {e : Option (Event τ κ ρ)} {t : τ} {p : Phase κ ρ}

variable (m) (waits) in
theorem credits_goto (s : State τ σ κ ρ) (t : τ) (p : Phase κ ρ) :
    credits m waits (s.goto t p) + (s.phase t).credit m waits = credits m waits s + p.credit m waits :=
  sum_goto s t p (Phase.credit m waits)

section Goto

variable (h : Covered m waits avail s) {d : σ} {o : Option τ}
include h

omit [DecidableEq τ] in
theorem Covered.mono (hwaits : ∀ u c, s'.phase u = .asleep c → waits c = true)
    (hsleep : Sleeping s' → Sleeping s)
    (halarm : (∃ u, (s.phase u).alarm m) → ∃ u, (s'.phase u).alarm m)
    (hle : avail s'.shared + credits m waits s ≤ avail s.shared + credits m waits s') :
    Covered m waits avail s' := by
  refine ⟨hwaits, fun hs => ?_⟩
  rcases h.owed (hsleep hs) with ha | ha
  · exact Or.inl (halarm ha)
  · right
    have hsum : avail s'.shared + credits m waits s ≤ credits m waits s' + credits m waits s := by
      rw [add_comm (credits m waits s' : ℕ∞)]
      calc avail s'.shared + credits m waits s ≤ avail s.shared + credits m waits s' := hle
        _ ≤ credits m waits s + credits m waits s' := by gcongr
    exact (ENat.add_le_add_iff_right (ENat.natCast_ne_top _)).mp hsum

theorem Covered.goto (hno : ∀ c, p ≠ .asleep c) (halarm : (s.phase t).alarm m → p.alarm m)
    (hle : avail d + (s.phase t).credit m waits ≤ avail s.shared + p.credit m waits) :
    Covered m waits avail ⟨d, o, (s.goto t p).phase⟩ := by
  have hasleep {u : τ} {c : κ} (hu : (s.goto t p).phase u = .asleep c) : s.phase u = .asleep c := by
    by_cases hut : u = t
    · rw [hut, goto_phase_self] at hu
      exact absurd hu (hno c)
    · rwa [goto_phase_of_ne s hut] at hu
  apply h.mono
  · exact fun u c hu => h.waits_of_asleep u c (hasleep hu)
  · rintro ⟨u, c, hu⟩
    exact ⟨u, c, hasleep hu⟩
  · rintro ⟨u, hu⟩
    by_cases hut : u = t
    · subst hut
      exact ⟨u, by rw [goto_phase_self]; exact halarm hu⟩
    · exact ⟨u, by rwa [goto_phase_of_ne s hut]⟩
  · have hsum : (credits m waits (s.goto t p) : ℕ∞) + (s.phase t).credit m waits =
        credits m waits s + p.credit m waits := by exact_mod_cast credits_goto m waits s t p
    change avail d + credits m waits s ≤ avail s.shared + credits m waits (s.goto t p)
    rw [← ENat.add_le_add_iff_right (ENat.natCast_ne_top ((s.phase t).credit m waits))]
    calc avail d + credits m waits s + (s.phase t).credit m waits
        = avail d + (s.phase t).credit m waits + credits m waits s := add_right_comm _ _ _
      _ ≤ avail s.shared + p.credit m waits + credits m waits s := by gcongr
      _ = avail s.shared + (credits m waits s + p.credit m waits) := by
          rw [add_assoc, add_comm (p.credit m waits : ℕ∞)]
      _ = avail s.shared + credits m waits (s.goto t p) + (s.phase t).credit m waits := by
          rw [← hsum, add_assoc]

theorem Covered.quietly (hno : ∀ c, p ≠ .asleep c) (halarm : (s.phase t).alarm m → p.alarm m)
    (hc : (s.phase t).credit m waits ≤ p.credit m waits) :
    Covered m waits avail ⟨s.shared, o, (s.goto t p).phase⟩ := by
  apply h.goto hno halarm
  gcongr

end Goto

omit [DecidableEq τ] in
theorem Covered.awake (hn : ∀ t c, s.phase t ≠ .asleep c) : Covered m waits avail s :=
  ⟨fun t c hc => absurd hc (hn t c), fun ⟨t, c, hc⟩ => absurd hc (hn t c)⟩

theorem covered_act (hm : Notifies m waits avail) (hx : Exclusive m s) (h : Covered m waits avail s) {c : κ}
    (hp : s.phase t = .acting c) : Covered m waits avail
      { s.goto t (.leaving c (m.act c s.shared).2) with shared := (m.act c s.shared).1 } := by
  have hg := hx.guarded t c hp
  have hno : ∀ d, Phase.leaving c (m.act c s.shared).2 ≠ .asleep d := fun d hd => by cases hd
  have halarm : (s.phase t).alarm m → (Phase.leaving c (m.act c s.shared).2).alarm m := by
    rw [hp]
    exact False.elim
  cases hw : waits c with
  | true =>
      apply h.goto hno halarm
      simpa [hp, Phase.credit, hw, hm.silent c hw] using hm.uses c s.shared hw hg
  | false =>
      cases hs : m.signal c with
      | none =>
          apply h.goto hno halarm
          simpa [hp, Phase.credit, hw, hs] using hm.adds_none c s.shared hw hs
      | one =>
          apply h.goto hno halarm
          simpa [hp, Phase.credit, hw, hs] using hm.adds_one c s.shared hw hs
      | all =>
          refine ⟨fun u d hu => ?_, fun _ => Or.inl ⟨t, ?_⟩⟩
          · change (s.goto t _).phase u = _ at hu
            by_cases hut : u = t
            · rw [hut, goto_phase_self] at hu
              cases hu
            · rw [goto_phase_of_ne s hut] at hu
              exact h.waits_of_asleep u d hu
          · change ((s.goto t _).phase t).alarm m
            rw [goto_phase_self]
            exact hs

theorem covered_notifyOne (h : Covered m waits avail s) {c d : κ} {r : ρ} {u : τ}
    (hp : s.phase t = .signalling c r) (hs : m.signal c = .one) (hu : s.phase u = .asleep d) :
    Covered m waits avail ((s.goto t .idle).goto u (.woken d)) := by
  have hne : u ≠ t := by
    rintro rfl
    rw [hp] at hu
    cases hu
  have hasleep {w : τ} {e : κ} (hw : ((s.goto t .idle).goto u (.woken d)).phase w = .asleep e) :
      s.phase w = .asleep e := by
    by_cases hwu : w = u
    · rw [hwu, goto_phase_self] at hw
      cases hw
    · rw [goto_phase_of_ne _ hwu] at hw
      by_cases hwt : w = t
      · rw [hwt, goto_phase_self] at hw
        cases hw
      · rwa [goto_phase_of_ne s hwt] at hw
  apply h.mono
  · exact fun w e hw => h.waits_of_asleep w e (hasleep hw)
  · rintro ⟨w, e, hw⟩
    exact ⟨w, e, hasleep hw⟩
  · rintro ⟨w, hw⟩
    have hwt : w ≠ t := by
      rintro rfl
      rw [hp] at hw
      exact absurd (hs.symm.trans hw) (by decide)
    have hwu : w ≠ u := by
      rintro rfl
      rw [hu] at hw
      exact hw
    exact ⟨w, by rwa [goto_phase_of_ne _ hwu, goto_phase_of_ne s hwt]⟩
  · -- the credit of the notification goes to the thread that is notified
    have hfirst := credits_goto m waits s t .idle
    have hsecond := credits_goto m waits (s.goto t .idle) u (.woken d)
    rw [hp] at hfirst
    rw [goto_phase_of_ne s hne, hu] at hsecond
    simp only [Phase.credit, hs, h.waits_of_asleep u d hu, if_true] at hfirst hsecond
    have hsame : credits m waits ((s.goto t .idle).goto u (.woken d)) = credits m waits s := by omega
    rw [hsame]
    exact le_rfl

theorem covered_step (hm : Notifies m waits avail) (hx : Exclusive m s) (h : Covered m waits avail s)
    (hs : Step m s e s') : Covered m waits avail s' := by
  cases hs with
  | call t c hp =>
      exact h.quietly (fun d hd => by cases hd) (by rw [hp]; exact id) (by rw [hp]; exact Nat.zero_le _)
  | enter t c hp ho =>
      exact h.quietly (fun d hd => by cases hd) (by rw [hp]; exact id) (by rw [hp]; exact le_rfl)
  | reenter t c hp ho =>
      exact h.quietly (fun d hd => by cases hd) (by rw [hp]; exact id) (by rw [hp]; exact le_rfl)
  | sleep t c hp hg =>
      obtain ⟨hw, hz⟩ := hm.guard c s.shared hg
      refine ⟨fun u d hu => ?_, fun _ => Or.inr ?_⟩
      · change (s.goto t _).phase u = _ at hu
        by_cases hut : u = t
        · rw [hut, goto_phase_self] at hu
          cases hu
          exact hw
        · rw [goto_phase_of_ne s hut] at hu
          exact h.waits_of_asleep u d hu
      · change avail s.shared ≤ _
        rw [hz]
        exact zero_le
  | pass t c hp hg =>
      exact h.quietly (fun d hd => by cases hd) (by rw [hp]; exact id) (by rw [hp]; exact le_rfl)
  | act t c hp => exact covered_act hm hx h hp
  | leave t c r hp =>
      exact h.quietly (fun d hd => by cases hd) (by rw [hp]; exact id) (by rw [hp]; exact le_rfl)
  | wake t c hp =>
      exact h.quietly (fun d hd => by cases hd) (by rw [hp]; exact id) (by rw [hp]; exact Nat.zero_le _)
  | silent t c r hp hs =>
      apply h.quietly (fun d hd => by cases hd)
      · rw [hp]
        exact fun ha => absurd (hs.symm.trans ha) (by decide)
      · rw [hp]
        simp [Phase.credit, hs]
  | notifyOne t c r hp hs u d hu => exact covered_notifyOne h hp hs hu
  | notifyNobody t c r hp hs hn =>
      apply Covered.awake
      intro u d hu
      by_cases hut : u = t
      · rw [hut, goto_phase_self] at hu
        cases hu
      · rw [goto_phase_of_ne s hut] at hu
        exact hn u d hu
  | notifyAll t c r hp hs =>
      apply Covered.awake
      intro u d hu
      change ((Function.update s.phase t .idle) u).wake = _ at hu
      cases hq : Function.update s.phase t Phase.idle u <;> rw [hq] at hu <;> cases hu

omit [DecidableEq τ] in
theorem covered_start (d : σ) : Covered m waits avail (start d : State τ σ κ ρ) :=
  Covered.awake (fun t c hc => by cases hc)

/-- No wakeup is lost. -/
theorem run_covered (hm : Notifies m waits avail) {d : σ} {es : List (Event τ κ ρ)}
    (h : Run m (start d) es s) : Covered m waits avail s := by
  induction h with
  | refl => exact covered_start d
  | tail hr hs ih => exact covered_step hm (exclusive_run hr) ih hs

/-- When all threads are out of the monitor or asleep, those asleep have nothing to wait for. -/
theorem quiescent_unavailable (hm : Notifies m waits avail) {d : σ} {es : List (Event τ κ ρ)}
    (h : Run m (start d) es s) (hq : Quiescent s)
    (hsleep : Sleeping s) : avail s.shared = 0 := by
  have hcredit : credits m waits s = 0 := by
    apply sum_eq_zero
    intro t _
    rcases hq t with ht | ⟨c, ht⟩
    · rw [ht]
      rfl
    · rw [ht]
      rfl
  rcases (run_covered hm h).owed hsleep with ⟨t, ha⟩ | ha
  · rcases hq t with ht | ⟨c, ht⟩
    · rw [ht] at ha
      exact ha.elim
    · rw [ht] at ha
      exact ha.elim
  · rw [hcredit] at ha
    exact le_antisymm ha zero_le

end Wakeups

section Progress

open Finset

variable {m : Calls σ κ ρ} {s s' : State τ σ κ ρ} {t : τ}

def Active (s : State τ σ κ ρ) (t : τ) : Prop := s.phase t ≠ .idle ∧ ∀ c, s.phase t ≠ .asleep c

def Works (m : Calls σ κ ρ) (s s' : State τ σ κ ρ) : Prop :=
  ∃ t e, Active s t ∧ Step m s e s' ∧ s'.phase t ≠ s.phase t

theorem inside_works (ht : (s.phase t).holds = true) : ∃ s', Works m s s' := by
  have hactive : Active s t :=
    ⟨fun hp => (by rw [hp] at ht; cases ht), fun c hp => (by rw [hp] at ht; cases ht)⟩
  cases hp : s.phase t with
  | checking c =>
      cases hg : m.guard c s.shared with
      | false => exact ⟨_, t, _, hactive, .sleep s t c hp hg, by simp [State.goto, hp]⟩
      | true => exact ⟨_, t, _, hactive, .pass s t c hp hg, by simp [hp]⟩
  | acting c => exact ⟨_, t, _, hactive, .act s t c hp, by simp [State.goto, hp]⟩
  | leaving c r => exact ⟨_, t, _, hactive, .leave s t c r hp, by simp [State.goto, hp]⟩
  | idle | entering | asleep | woken | signalling =>
      rw [hp] at ht
      cases ht

theorem notify_works {c : κ} {r : ρ} (hp : s.phase t = .signalling c r) : ∃ s', Works m s s' := by
  have hactive : Active s t := ⟨by simp [hp], by simp [hp]⟩
  cases hs : m.signal c with
  | none => exact ⟨_, t, _, hactive, .silent s t c r hp hs, by simp [hp]⟩
  | all => exact ⟨_, t, _, hactive, .notifyAll s t c r hp hs, by simp [hp, Phase.wake]⟩
  | one =>
      by_cases hn : Sleeping s
      · obtain ⟨u, d, hu⟩ := hn
        refine ⟨_, t, _, hactive, .notifyOne s t c r hp hs u d hu, ?_⟩
        have hne : t ≠ u := by
          rintro rfl
          rw [hp] at hu
          cases hu
        simp [goto_phase_of_ne _ hne, hp]
      · exact ⟨_, t, _, hactive, .notifyNobody s t c r hp hs (fun u d hu => hn ⟨u, d, hu⟩), by simp [hp]⟩

/-- As long as a thread is active, some active thread can go on. -/
theorem active_works (hx : Exclusive m s) (ht : Active s t) : ∃ s', Works m s s' := by
  cases ho : s.owner with
  | some u => exact inside_works ((hx.owner_iff u).mp ho)
  | none =>
      cases hp : s.phase t with
      | idle => exact absurd hp ht.1
      | asleep c => exact absurd hp (ht.2 c)
      | entering c => exact ⟨_, t, _, ht, .enter s t c hp ho, by simp [State.goto, hp]⟩
      | woken c => exact ⟨_, t, _, ht, .reenter s t c hp ho, by simp [State.goto, hp]⟩
      | signalling c r => exact notify_works hp
      | checking | acting | leaving =>
          have hf := hx.free ho t
          rw [hp] at hf
          cases hf

section Effort

variable (m) (n : ℕ)

def effortAfter (c : κ) : ℕ := if m.signal c = .none then 1 else 5 * n + 6

def Phase.effort : Phase κ ρ → ℕ
  | .idle => 0
  | .entering c => effortAfter m n c + 4
  | .checking c => effortAfter m n c + 3
  | .asleep _ => 0
  | .woken c => effortAfter m n c + 4
  | .acting c => effortAfter m n c + 2
  | .leaving c _ => effortAfter m n c + 1
  | .signalling c _ => effortAfter m n c

theorem effort_le (p : Phase κ ρ) : p.effort m n ≤ 5 * n + 10 := by
  have hafter (c : κ) : effortAfter m n c ≤ 5 * n + 6 := by
    rw [effortAfter]
    split_ifs <;> omega
  cases p with
  | idle => exact Nat.zero_le _
  | asleep c => exact Nat.zero_le _
  | entering c | checking c | woken c | acting c =>
      have hc := hafter c
      simp only [Phase.effort]
      omega
  | leaving c r | signalling c r =>
      have hc := hafter c
      simp only [Phase.effort]
      omega

end Effort

variable [Fintype τ]

def effort (m : Calls σ κ ρ) (s : State τ σ κ ρ) : ℕ :=
  ∑ t, (s.phase t).effort m (Fintype.card τ)

omit [DecidableEq τ] in
theorem effort_bound (s : State τ σ κ ρ) :
    effort m s ≤ Fintype.card τ * (5 * Fintype.card τ + 10) := by
  rw [← smul_eq_mul]
  exact sum_le_card_nsmul univ _ _ (fun t _ => effort_le m _ (s.phase t))

theorem wake_effort {waits : κ → Bool} {avail : σ → ℕ∞} (hm : Notifies m waits avail) {p : Phase κ ρ}
    (hw : ∀ c, p = .asleep c → waits c = true) (n : ℕ) : p.wake.effort m n ≤ p.effort m n + 5 := by
  cases p with
  | asleep c =>
      simp [Phase.wake, Phase.effort, effortAfter, hm.silent c (hw c rfl)]
  | _ => exact Nat.le_add_right _ _

omit [DecidableEq τ] in
theorem sum_wake_effort {waits : κ → Bool} {avail : σ → ℕ∞} (hm : Notifies m waits avail) {f : τ → Phase κ ρ}
    (hw : ∀ t c, f t = .asleep c → waits c = true) :
    ∑ t, (f t).wake.effort m (Fintype.card τ) ≤
      ∑ t, (f t).effort m (Fintype.card τ) + 5 * Fintype.card τ := by
  have hsum : ∑ t, (f t).wake.effort m (Fintype.card τ) ≤ ∑ t, ((f t).effort m (Fintype.card τ) + 5) :=
    sum_le_sum fun t _ => wake_effort hm (hw t) _
  rw [sum_add_distrib, sum_const, smul_eq_mul, card_univ] at hsum
  omega

theorem effort_goto (s : State τ σ κ ρ) (t : τ) (p : Phase κ ρ) :
    effort m (s.goto t p) + (s.phase t).effort m (Fintype.card τ) =
      effort m s + p.effort m (Fintype.card τ) :=
  sum_goto s t p (Phase.effort m (Fintype.card τ))

theorem goto_effort_lt {p : Phase κ ρ} {d : σ} {o : Option τ}
    (hp : p.effort m (Fintype.card τ) < (s.phase t).effort m (Fintype.card τ)) :
    effort m ⟨d, o, (s.goto t p).phase⟩ < effort m s := by
  have hsum := effort_goto (m := m) s t p
  change effort m (s.goto t p) < effort m s
  omega

/-- Only the beginning of a call, and a wakeup without a notification, give the threads more
to do. -/
theorem works_effort {waits : κ → Bool} {avail : σ → ℕ∞} (hm : Notifies m waits avail)
    (h : Covered m waits avail s) (hs : Works m s s') : effort m s' < effort m s := by
  obtain ⟨u, e, hu, hs, hmoves⟩ := hs
  have hother {t : τ} {p : Phase κ ρ} (ht : ¬ Active s t) : (s.goto t p).phase u = s.phase u := by
    apply goto_phase_of_ne
    rintro rfl
    exact ht hu
  cases hs with
  | call t c hp => exact absurd (hother (fun ht => ht.1 hp)) hmoves
  | wake t c hp => exact absurd (hother (fun ht => ht.2 c hp)) hmoves
  | enter t c hp ho | reenter t c hp ho | pass t c hp hg =>
      apply goto_effort_lt
      rw [hp]
      exact Nat.lt_succ_self _
  | sleep t c hp hg =>
      apply goto_effort_lt
      rw [hp]
      exact Nat.succ_pos _
  | act t c hp =>
      apply goto_effort_lt
      rw [hp]
      exact Nat.lt_succ_self _
  | leave t c r hp =>
      apply goto_effort_lt
      rw [hp]
      exact Nat.lt_succ_self _
  | silent t c r hp hs =>
      apply goto_effort_lt
      simp [hp, Phase.effort, effortAfter, hs]
  | notifyNobody t c r hp hs hn =>
      apply goto_effort_lt
      simp [hp, Phase.effort, effortAfter, hs]
  | notifyOne t c r hp hs w d hw =>
      have hne : w ≠ t := by
        rintro rfl
        rw [hp] at hw
        cases hw
      have hfirst := effort_goto (m := m) s t .idle
      have hsecond := effort_goto (m := m) (s.goto t .idle) w (.woken d)
      rw [hp] at hfirst
      rw [goto_phase_of_ne s hne, hw] at hsecond
      have hnone := hm.silent d (h.waits_of_asleep w d hw)
      simp only [Phase.effort, effortAfter, hs, hnone, if_true, reduceCtorEq, if_false] at hfirst hsecond
      omega
  | notifyAll t c r hp hs =>
      have hfirst := effort_goto (m := m) s t .idle
      rw [hp] at hfirst
      simp only [Phase.effort, effortAfter, hs, reduceCtorEq, if_false] at hfirst
      have hasleep : ∀ v d, (s.goto t .idle).phase v = .asleep d → waits d = true := by
        intro v d hd
        by_cases hv : v = t
        · rw [hv, goto_phase_self] at hd
          cases hd
        · rw [goto_phase_of_ne s hv] at hd
          exact h.waits_of_asleep v d hd
      have hwoken := sum_wake_effort hm hasleep
      change ∑ v, ((s.goto t .idle).phase v).wake.effort m (Fintype.card τ) < effort m s
      change _ ≤ effort m (s.goto t .idle) + _ at hwoken
      omega

inductive Working (m : Calls σ κ ρ) (s : State τ σ κ ρ) : ℕ → State τ σ κ ρ → Prop
  | refl : Working m s 0 s
  | tail {n} {s' s''} (h : Working m s n s') (hs : Works m s' s'') : Working m s (n + 1) s''

variable {waits : κ → Bool} {avail : σ → ℕ∞} {d : σ} {es : List (Event τ κ ρ)}

omit [Fintype τ] in
theorem working_run (hr : Run m (start d) es s) {n : ℕ} (hw : Working m s n s') :
    ∃ fs, Run m (start d) fs s' := by
  induction hw with
  | refl => exact ⟨es, hr⟩
  | tail h hs ih =>
      obtain ⟨fs, hf⟩ := ih
      obtain ⟨t, e, ht, hs, -⟩ := hs
      exact ⟨_, hf.tail hs⟩

theorem working_effort (hm : Notifies m waits avail) (hr : Run m (start d) es s) {n : ℕ}
    (hw : Working m s n s') : n + effort m s' ≤ effort m s := by
  induction hw with
  | refl => exact (Nat.zero_add _).le
  | tail h hs ih =>
      obtain ⟨fs, hf⟩ := working_run hr h
      have hlt := works_effort hm (run_covered hm hf) hs
      omega

/-- While no call begins and no thread wakes by itself, the threads come to rest after a
bounded number of steps, whichever of them go on. -/
theorem comes_to_rest (hm : Notifies m waits avail) (hr : Run m (start d) es s) :
    (∀ n s', Working m s n s' → n ≤ Fintype.card τ * (5 * Fintype.card τ + 10)) ∧
      (∀ n s', Working m s n s' → (∀ s'', ¬ Works m s' s'') → Quiescent s') := by
  constructor
  · intro n s' hw
    have hle := working_effort hm hr hw
    have hbound := effort_bound (m := m) s
    omega
  · intro n s' hw hstuck t
    obtain ⟨fs, hf⟩ := working_run hr hw
    by_contra hactive
    rw [not_or, not_exists] at hactive
    obtain ⟨s'', hs⟩ := active_works (exclusive_run hf) hactive
    exact hstuck s'' hs

end Progress

end Orderbook.Library.Monitor

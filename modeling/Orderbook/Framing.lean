import Orderbook.Agreement

namespace Orderbook.Framing

open Domain Engine StringUtil CommandParser Threads Agreement Library.Numerals

def commandOf (line : Text) : Option Command :=
  match parseLineToCommand line with
  | .error _ => none
  | .ok cmd => if cmd.type = .invalid then none else some cmd

def nonblank (lines : List Text) : List Text := lines.filter (· ≠ [])

def completeLines (payload : Text) : List Text := nonblank ((payload.splitOn '\n').map trim)

structure Datagram where
  payload : Text
  length_le : payload.length ≤ 65507
  parses : ∀ line ∈ completeLines payload, ∃ cmd, parseLineToCommand line = .ok cmd

def inputSteps : List Move → Nat
  | [] => 0
  | .input _ :: moves => inputSteps moves + 1
  | _ :: moves => inputSteps moves

/-- The steps of the input thread after it has received a datagram: one for each line, and
one to leave the loop. -/
def turns (payload : Text) : Nat := (inputLines payload).length + 1

/-- What the input thread makes of a datagram, in whatever way the threads are scheduled. -/
structure Framed (d : Datagram) : Prop where
  pushed_eq : ∀ v before moves, (processAfter v before).input = .receiving →
    inputSteps moves = turns d.payload →
      (processAfter v (before ++ .input (.datagram d.payload) :: moves)).pushed =
        (processAfter v before).pushed ++ (completeLines d.payload).filterMap commandOf
  lines_whole : ∀ (i : Nat) (line : Text), (inputLines d.payload)[i]? = some line → commandOf line ≠ none →
    (completeLines d.payload)[i]? = some line

def kept (payload : Text) : Text := payload.take bufferSize

def lost (payload : Text) : Text := payload.drop bufferSize

/-- What stands behind the last newline in the buffer. -/
def fragment (payload : Text) : Text := trim (((kept payload).splitOn '\n').getLastD [])

/-- The line that the end of the buffer falls in. -/
def cutLine (payload : Text) : Text :=
  trim (((kept payload).splitOn '\n').getLastD [] ++ ((lost payload).splitOn '\n').headD [])

def linesBehind (payload : Text) : List Text := ((lost payload).splitOn '\n').tail.map trim

/-- No command is lost behind the buffer, or made by its end. -/
structure CutHarmless (payload : Text) : Prop where
  behind : ∀ line ∈ linesBehind payload, commandOf line = none
  cut : fragment payload = cutLine payload ∨
    commandOf (fragment payload) = none ∧ commandOf (cutLine payload) = none

def pushedBy : List Text → List Command
  | [] => []
  | line :: lines =>
      match parseLineToCommand line with
      | .error _ => []
      | .ok cmd => if cmd.type = .invalid then pushedBy lines else cmd :: pushedBy lines

section Runs

variable {v : Nat → VisitOrder} {p : Process}

theorem processStep_input (hp : p.input ≠ .threw) (answer : Answer) :
    processStep v p (.input answer) = inputThreadStep answer p :=
  processStep_of_ne hp (.input answer)

theorem processing_keeps {q : Process} (h : ProcessingEffect (engineLines v) p q) :
    q.input = p.input ∧ q.pushed = p.pushed := by
  cases h <;> exact ⟨rfl, rfl⟩

theorem output_keeps {q : Process} (h : OutputEffect p q) : q.input = p.input ∧ q.pushed = p.pushed := by
  cases h <;> exact ⟨rfl, rfl⟩

theorem processStep_other {move : Move} (hm : ∀ answer, move ≠ .input answer) :
    (processStep v p move).input = p.input ∧ (processStep v p move).pushed = p.pushed := by
  rw [processStep, processStepWith.eq_def]
  split
  · exact ⟨rfl, rfl⟩
  · cases move with
    | signal => exact ⟨rfl, rfl⟩
    | input answer => exact absurd rfl (hm answer)
    | processing => exact processing_keeps (processingThreadStep_effect (engineLines v) p)
    | output => exact output_keeps (outputThreadStep_effect p)

theorem threw_run (hp : p.input = .threw) (moves : List Move) : moves.foldl (processStep v) p = p := by
  induction moves with
  | nil => rfl
  | cons move moves ih => rw [List.foldl_cons, processStep_threw hp, ih]

theorem idle_run {moves : List Move} (h : inputSteps moves = 0) :
    (moves.foldl (processStep v) p).pushed = p.pushed := by
  induction moves generalizing p with
  | nil => rfl
  | cons move moves ih =>
      cases move with
      | input answer => cases h
      | signal => exact (ih h).trans (processStep_other (fun _ he => by cases he)).2
      | processing => exact (ih h).trans (processStep_other (fun _ he => by cases he)).2
      | output => exact (ih h).trans (processStep_other (fun _ he => by cases he)).2

theorem reading_run {moves : List Move} {lines : List Text} (hp : p.input = .reading lines)
    (h : inputSteps moves = lines.length + 1) :
    (moves.foldl (processStep v) p).pushed = p.pushed ++ pushedBy lines := by
  induction moves generalizing p lines with
  | nil => cases h
  | cons move moves ih =>
      have hother (hm : ∀ answer, move ≠ .input answer) (hs : inputSteps moves = lines.length + 1) :
          ((move :: moves).foldl (processStep v) p).pushed = p.pushed ++ pushedBy lines := by
        obtain ⟨hinput, hpushed⟩ := @processStep_other v p move hm
        rw [List.foldl_cons, ih (hinput.trans hp) hs, hpushed]
      cases move with
      | signal => exact hother (fun _ he => by cases he) h
      | processing => exact hother (fun _ he => by cases he) h
      | output => exact hother (fun _ he => by cases he) h
      | input answer =>
          have hs : inputSteps moves = lines.length := Nat.succ.inj h
          rw [List.foldl_cons, processStep_input (by simp [hp]), inputThreadStep.eq_def, hp]
          cases lines with
          | nil => rw [idle_run hs, pushedBy, List.append_nil]
          | cons line lines =>
              rw [pushedBy]
              dsimp only
              cases parseLineToCommand line with
              | error e =>
                  dsimp only
                  rw [threw_run rfl, List.append_nil]
              | ok cmd =>
                  dsimp only
                  split_ifs
                  · exact ih rfl hs
                  · rw [ih rfl hs]
                    simp

theorem datagram_run {before moves : List Move} {payload : Text}
    (hp : (processAfter v before).input = .receiving) (h : inputSteps moves = turns payload) :
    (processAfter v (before ++ .input (.datagram payload) :: moves)).pushed =
      (processAfter v before).pushed ++ pushedBy (inputLines payload) := by
  rw [processAfter, List.foldl_append, List.foldl_cons]
  change (moves.foldl (processStep v) (processStep v (processAfter v before) _)).pushed = _
  rw [processStep_input (by simp [hp]), inputThreadStep.eq_def, hp]
  exact reading_run rfl h

end Runs

section Lines

theorem commandOf_nil : commandOf [] = none := rfl

theorem nonblank_cons {line : Text} (h : line ≠ []) (lines : List Text) :
    nonblank (line :: lines) = line :: nonblank lines :=
  List.filter_cons_of_pos (by simpa using h)

theorem filterMap_nonblank (lines : List Text) :
    (nonblank lines).filterMap commandOf = lines.filterMap commandOf := by
  induction lines with
  | nil => rfl
  | cons line lines ih =>
      by_cases hl : line = []
      · rw [hl, List.filterMap_cons, commandOf_nil, ← ih]
        rfl
      · rw [nonblank_cons hl, List.filterMap_cons, List.filterMap_cons, ih]

theorem pushedBy_append {front : List Text} (lines : List Text)
    (h : ∀ line ∈ front, ∃ cmd, parseLineToCommand line = .ok cmd) :
    pushedBy (front ++ lines) = front.filterMap commandOf ++ pushedBy lines := by
  induction front with
  | nil => rfl
  | cons line front ih =>
      obtain ⟨cmd, hcmd⟩ := h line List.mem_cons_self
      have hi := ih (fun l hl => h l (List.mem_cons_of_mem line hl))
      rw [List.cons_append, pushedBy, List.filterMap_cons, commandOf, hcmd, hi]
      dsimp only
      split_ifs <;> rfl

theorem pushedBy_last (line : Text) : pushedBy (nonblank [line]) = (commandOf line).toList := by
  by_cases hl : line = []
  · rw [hl]
    rfl
  · rw [nonblank_cons hl, pushedBy, commandOf]
    cases parseLineToCommand line with
    | error e => rfl
    | ok cmd =>
        dsimp only
        split_ifs <;> rfl

theorem nonblank_append (xs ys : List Text) : nonblank (xs ++ ys) = nonblank xs ++ nonblank ys :=
  List.filter_append xs ys

theorem nonblank_getlines (s : Text) :
    nonblank ((getlines '\n' s).map trim) = nonblank ((s.splitOn '\n').map trim) := by
  rcases getlines_eq '\n' s with h | h
  · rw [h]
  · rw [h, List.map_append, nonblank_append]
    exact (List.append_nil _).symm

theorem lines_at_cut (payload : Text) : ∃ front,
    inputLines payload = nonblank front ++ nonblank [fragment payload] ∧
      completeLines payload = nonblank front ++ nonblank (cutLine payload :: linesBehind payload) := by
  obtain ⟨front, last, first, back, hkept, hlost, hall⟩ := splitOn_append '\n' (kept payload) (lost payload)
  have hwhole : kept payload ++ lost payload = payload := List.take_append_drop bufferSize payload
  rw [hwhole] at hall
  have hinput : inputLines payload = nonblank (((kept payload).splitOn '\n').map trim) :=
    nonblank_getlines (kept payload)
  refine ⟨front.map trim, ?_, ?_⟩
  · rw [hinput, fragment, hkept, List.map_append, nonblank_append]
    simp
  · rw [completeLines, hall, cutLine, linesBehind, hkept, hlost, List.map_append, nonblank_append]
    simp

theorem fragment_nil_of_cutLine {payload : Text} (h : cutLine payload = []) : fragment payload = [] := by
  rw [cutLine, trim_eq_nil_iff] at h
  rw [fragment, trim_eq_nil_iff]
  exact fun c hc => h c (List.mem_append_left _ hc)

theorem filterMap_cutLine (payload : Text) :
    (nonblank (cutLine payload :: linesBehind payload)).filterMap commandOf =
      (commandOf (cutLine payload)).toList ++ (linesBehind payload).filterMap commandOf := by
  rw [filterMap_nonblank, List.filterMap_cons]
  cases commandOf (cutLine payload) <;> rfl

end Lines

section Datagrams

variable {d : Datagram}

theorem pushes_iff :
    pushedBy (inputLines d.payload) = (completeLines d.payload).filterMap commandOf ↔
      (commandOf (fragment d.payload)).toList =
        (commandOf (cutLine d.payload)).toList ++ (linesBehind d.payload).filterMap commandOf := by
  obtain ⟨front, hinput, hcomplete⟩ := lines_at_cut d.payload
  have hparses : ∀ line ∈ nonblank front, ∃ cmd, parseLineToCommand line = .ok cmd := by
    intro line hl
    apply d.parses
    rw [hcomplete]
    exact List.mem_append_left _ hl
  rw [hinput, hcomplete, pushedBy_append _ hparses, pushedBy_last, List.filterMap_append, filterMap_cutLine,
    List.append_cancel_left_eq]

theorem inputSteps_replicate (n : Nat) (answer : Answer) :
    inputSteps (List.replicate n (.input answer)) = n := by
  induction n with
  | zero => rfl
  | succ n ih => rw [List.replicate_succ, inputSteps, ih]

def opened : List Move := [.input .success, .input .success, .input .success]

theorem pushed_iff :
    (∀ v before moves, (processAfter v before).input = .receiving → inputSteps moves = turns d.payload →
        (processAfter v (before ++ .input (.datagram d.payload) :: moves)).pushed =
          (processAfter v before).pushed ++ (completeLines d.payload).filterMap commandOf) ↔
      pushedBy (inputLines d.payload) = (completeLines d.payload).filterMap commandOf := by
  constructor
  · intro h
    have hsteps := inputSteps_replicate (turns d.payload) .failure
    have hrun := @datagram_run (fun _ => default) opened _ d.payload rfl hsteps
    have hall := h (fun _ => default) opened _ rfl hsteps
    rw [hrun] at hall
    exact List.append_cancel_left hall
  · intro h v before moves hp hsteps
    rw [datagram_run hp hsteps, h]

theorem whole_iff :
    (∀ (i : Nat) (line : Text), (inputLines d.payload)[i]? = some line → commandOf line ≠ none →
        (completeLines d.payload)[i]? = some line) ↔
      (commandOf (fragment d.payload) ≠ none → fragment d.payload = cutLine d.payload) := by
  obtain ⟨front, hinput, hcomplete⟩ := lines_at_cut d.payload
  rw [hinput, hcomplete]
  constructor
  · intro h hc
    have hf : fragment d.payload ≠ [] := fun he => hc (by rw [he, commandOf_nil])
    have hcut : cutLine d.payload ≠ [] := fun he => hf (fragment_nil_of_cutLine he)
    have hi := h (nonblank front).length (fragment d.payload) (by rw [nonblank_cons hf]; simp) hc
    rw [nonblank_cons hcut] at hi
    simpa using hi.symm
  · intro h i line hi hc
    rw [List.getElem?_append] at hi ⊢
    split_ifs at hi ⊢ with hlt
    · exact hi
    · have hmem := List.mem_of_getElem? hi
      obtain rfl := List.mem_singleton.mp (List.mem_of_mem_filter hmem)
      have hf : fragment d.payload ≠ [] := fun he => hc (by rw [he, commandOf_nil])
      have hi0 : i - (nonblank front).length = 0 := by
        have hl := (List.getElem?_eq_some_iff.mp hi).1
        rw [nonblank_cons hf] at hl
        exact Nat.lt_one_iff.mp hl
      rw [hi0, ← h hc, nonblank_cons hf]
      rfl

theorem framed_iff_cut : Framed d ↔ CutHarmless d.payload := by
  have hframed : Framed d ↔ _ ∧ _ := ⟨fun h => ⟨h.pushed_eq, h.lines_whole⟩, fun h => ⟨h.1, h.2⟩⟩
  rw [hframed, pushed_iff, pushes_iff, whole_iff]
  constructor
  · rintro ⟨hpushes, hwhole⟩
    cases hf : commandOf (fragment d.payload) with
    | none =>
        rw [hf] at hpushes
        obtain ⟨hcut, hbehind⟩ := List.append_eq_nil_iff.mp hpushes.symm
        exact ⟨List.filterMap_eq_nil_iff.mp hbehind, Or.inr ⟨hf, Option.toList_eq_nil_iff.mp hcut⟩⟩
    | some cmd =>
        have he := hwhole (by simp [hf])
        rw [← he] at hpushes
        exact ⟨List.filterMap_eq_nil_iff.mp (List.append_right_eq_self.mp hpushes.symm), Or.inl he⟩
  · rintro ⟨hbehind, hcut⟩
    rw [List.filterMap_eq_nil_iff.mpr hbehind, List.append_nil]
    rcases hcut with he | ⟨hf, hc⟩
    · exact ⟨by rw [he], fun _ => he⟩
    · exact ⟨by rw [hf, hc], fun h => absurd hf h⟩

theorem harmless_of_fits {payload : Text} (h : payload.length ≤ bufferSize) : CutHarmless payload := by
  have hlost : lost payload = [] := List.drop_eq_nil_of_le h
  constructor
  · rw [linesBehind, hlost]
    exact fun line hl => by cases hl
  · left
    rw [fragment, cutLine, hlost]
    simp

/-- A datagram is framed exactly when it fits the buffer, or what does not fit stands for no
command and changes none. -/
theorem datagram_framed_iff (d : Datagram) :
    Framed d ↔ d.payload.length ≤ bufferSize ∨ CutHarmless d.payload := by
  rw [framed_iff_cut]
  exact ⟨Or.inr, fun h => h.elim harmless_of_fits id⟩

end Datagrams

section Cut

def blanks : Text := List.replicate 4089 ' '

def wholeCancel : Text := ['C', ',', ' ', '1', ',', ' ', '2', '3']

def cutCancel : Text := ['C', ',', ' ', '1', ',', ' ', '2']

theorem blanks_blank : ∀ c ∈ blanks, isSpace c = true := by
  intro c hc
  rw [List.eq_of_mem_replicate hc]
  rfl

theorem one_line {s : Text} (h : '\n' ∉ s) : (blanks ++ s).splitOn '\n' = [blanks ++ s] := by
  apply List.splitOn_eq_singleton
  intro hc
  rcases List.mem_append.mp hc with hc | hc
  · exact absurd (List.eq_of_mem_replicate hc) (by decide)
  · exact h hc

def lateCancel : Datagram where
  payload := blanks ++ wholeCancel
  length_le := by
    rw [List.length_append, blanks, List.length_replicate]
    decide
  parses := by
    intro line hl
    have hlines : completeLines (blanks ++ wholeCancel) = [wholeCancel] := by
      rw [completeLines, one_line (by decide), List.map_singleton, trim_blank_append blanks_blank]
      decide +kernel
    rw [hlines, List.mem_singleton] at hl
    rw [hl]
    exact ⟨cancelCommand 1 23, by decide +kernel⟩

theorem blanks_length : blanks.length = 4089 := List.length_replicate

theorem lateCancel_kept : kept lateCancel.payload = blanks ++ cutCancel := by
  rw [kept, lateCancel, List.take_append, List.take_of_length_le (by rw [blanks_length]; decide), blanks_length]
  rfl

theorem lateCancel_lost : lost lateCancel.payload = ['3'] := by
  rw [lost, lateCancel, List.drop_append, List.drop_of_length_le (by rw [blanks_length]; decide), blanks_length]
  rfl

theorem wrong_order_cancelled : ¬ Framed lateCancel := by
  have hcutCancel : '\n' ∉ cutCancel := by decide
  have hfragment : fragment lateCancel.payload = cutCancel := by
    rw [fragment, lateCancel_kept, one_line hcutCancel]
    change trim (blanks ++ cutCancel) = cutCancel
    rw [trim_blank_append blanks_blank]
    decide +kernel
  have hwhole : cutLine lateCancel.payload = wholeCancel := by
    rw [cutLine, lateCancel_kept, lateCancel_lost, one_line hcutCancel]
    change trim (blanks ++ cutCancel ++ ['3']) = wholeCancel
    rw [List.append_assoc, trim_blank_append blanks_blank]
    decide +kernel
  rw [framed_iff_cut]
  rintro ⟨-, hcut⟩
  rw [hfragment, hwhole] at hcut
  revert hcut
  decide +kernel

end Cut

end Orderbook.Framing

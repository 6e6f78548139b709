import Orderbook.Framing
import Orderbook.Liveness

namespace Orderbook.EndToEnd

open Domain Engine StringUtil CommandParser Threads Agreement Framing Liveness
open Library.Runs Library.Pipeline Library.Fairness

variable {v : Nat → VisitOrder} {p q : Process}

def receives (p : Process) : Move → List Text
  | .input (.datagram bytes) => if p.input = .receiving then [bytes] else []
  | _ => []

def received (v : Nat → VisitOrder) (schedule : List Move) : List Text :=
  output (fun p move => (processStep v p move, receives p move)) {} schedule

def datagramCommands (bytes : Text) : List Command := (inputLines bytes).filterMap commandOf

theorem received_concat (schedule : List Move) (move : Move) :
    received v (schedule ++ [move]) = received v schedule ++ receives (processAfter v schedule) move := by
  have hfinal (as : List Move) (s : Process) :
      final (fun p move => (processStep v p move, receives p move)) s as = as.foldl (processStep v) s := by
    induction as generalizing s with
    | nil => rfl
    | cons a as ih => exact ih _
  rw [received, output_concat, hfinal]
  rfl

section Reading

def pendingCommands : InputThread → List Command
  | .reading lines => lines.filterMap commandOf
  | _ => []

/-- What has been pushed and what is still to be read are the commands of the datagrams, unless
a line has thrown. -/
structure Reads (p : Process) (bytes : List Text) : Prop where
  begins : p.pushed ++ pendingCommands p.input <+: bytes.flatMap datagramCommands
  all : ¬ Threw p → p.pushed ++ pendingCommands p.input = bytes.flatMap datagramCommands

variable {bytes : List Text}

theorem Reads.of_eq (h : Reads p bytes) (ht : ¬ Threw p)
    (heq : q.pushed ++ pendingCommands q.input = p.pushed ++ pendingCommands p.input) : Reads q bytes := by
  have hall := heq.trans (h.all ht)
  exact ⟨by rw [hall], fun _ => hall⟩

theorem receives_of_ne (h : p.input ≠ .receiving) (move : Move) : receives p move = [] := by
  cases move with
  | input answer =>
      cases answer with
      | datagram bytes => exact if_neg h
      | failure | success => rfl
  | signal | processing | output => rfl

theorem Reads.line (h : Reads p bytes) (ht : ¬ Threw p) {line : Text} {lines : List Text}
    (hp : p.input = .reading (line :: lines)) (answer : Answer) : Reads (inputThreadStep answer p) bytes := by
  have hall := h.all ht
  rw [hp, pendingCommands, List.filterMap_cons, commandOf] at hall
  simp only [inputThreadStep, hp]
  cases hparse : parseLineToCommand line with
  | error e =>
      rw [hparse] at hall
      refine ⟨?_, fun hn => absurd rfl hn⟩
      rw [← hall]
      exact List.prefix_append_right_inj _ |>.mpr List.nil_prefix
  | ok cmd =>
      rw [hparse] at hall
      dsimp only at hall ⊢
      split_ifs at hall ⊢ with hi
      · exact ⟨by rw [← hall]; exact List.prefix_rfl, fun _ => hall⟩
      · have heq : p.pushed ++ [cmd] ++ lines.filterMap commandOf = bytes.flatMap datagramCommands := by
          rw [← hall, List.append_assoc]
          rfl
        exact ⟨by rw [← heq]; exact List.prefix_rfl, fun _ => heq⟩

theorem Reads.datagram (h : Reads p bytes) (ht : ¬ Threw p) (hp : p.input = .receiving) (payload : Text) :
    Reads (inputThreadStep (.datagram payload) p) (bytes ++ [payload]) := by
  have hall := h.all ht
  rw [hp, show pendingCommands .receiving = [] from rfl, List.append_nil] at hall
  have heq : p.pushed ++ datagramCommands payload = (bytes ++ [payload]).flatMap datagramCommands := by
    rw [List.flatMap_append, ← hall, List.flatMap_singleton]
  simp only [inputThreadStep, hp]
  exact ⟨by rw [← heq]; exact List.prefix_rfl, fun _ => heq⟩

theorem Reads.input (h : Reads p bytes) (ht : ¬ Threw p) (answer : Answer) :
    Reads (inputThreadStep answer p) (bytes ++ receives p (.input answer)) := by
  by_cases hr : p.input = .receiving
  · cases answer with
    | datagram payload =>
        rw [receives, if_pos hr]
        exact h.datagram ht hr payload
    | failure | success =>
        change Reads _ (bytes ++ [])
        rw [List.append_nil]
        apply h.of_eq ht
        simp only [inputThreadStep, hr]
        rfl
  · rw [receives_of_ne hr, List.append_nil]
    cases hp : p.input with
    | reading lines =>
        cases lines with
        | nil =>
            apply h.of_eq ht
            simp only [inputThreadStep, hp]
            rfl
        | cons line lines => exact h.line ht hp answer
    | receiving => exact absurd hp hr
    | opening =>
        apply h.of_eq ht
        cases answer <;> simp [inputThreadStep, hp, pendingCommands]
    | binding attempts =>
        apply h.of_eq ht
        simp only [inputThreadStep, hp]
        split_ifs
        · cases answer <;> rfl
        · rfl
    | polling =>
        apply h.of_eq ht
        simp only [inputThreadStep, hp]
        split_ifs <;> rfl
    | givingUp | closing | returned =>
        apply h.of_eq ht
        simp [inputThreadStep, hp, pendingCommands]
    | threw => exact absurd hp ht

theorem reads_after (v : Nat → VisitOrder) (schedule : List Move) :
    Reads (processAfter v schedule) (received v schedule) := by
  induction schedule using List.reverseRecOn with
  | nil => exact ⟨List.prefix_rfl, fun _ => rfl⟩
  | append_singleton schedule move ih =>
      rw [received_concat, processAfter_concat]
      generalize processAfter v schedule = p at ih ⊢
      by_cases ht : Threw p
      · have hnothing : receives p move = [] :=
          receives_of_ne (by rw [show p.input = .threw from ht]; exact fun he => by cases he) move
        rw [processStep_threw ht, hnothing, List.append_nil]
        exact ih
      · have hother (hm : ∀ answer, move ≠ .input answer) (hnothing : receives p move = []) :
            Reads (processStep v p move) (received v schedule ++ receives p move) := by
          obtain ⟨hinput, hpushed⟩ := @processStep_other v p move hm
          rw [hnothing, List.append_nil]
          exact ih.of_eq ht (by rw [hinput, hpushed])
        cases move with
        | input answer =>
            rw [processStep_input ht]
            exact ih.input ht answer
        | signal => exact hother (fun _ he => by cases he) rfl
        | processing => exact hother (fun _ he => by cases he) rfl
        | output => exact hother (fun _ he => by cases he) rfl

end Reading

section Printing

theorem sequentialOutput_begins {cmds cmds' : List Command} (h : cmds <+: cmds') :
    sequentialOutput v cmds <+: sequentialOutput v cmds' := by
  obtain ⟨rest, rfl⟩ := h
  rw [sequentialOutput, sequentialOutput, output_append, List.map_append]
  exact List.prefix_append _ _

end Printing

section Streams

structure WholeLines (bytes : Text) : Prop where
  fits : bytes.length ≤ bufferSize
  ends : bytes.getLast? = some '\n'

instance (bytes : Text) : Decidable (WholeLines bytes) :=
  decidable_of_iff (bytes.length ≤ bufferSize ∧ bytes.getLast? = some '\n')
    ⟨fun h => ⟨h.1, h.2⟩, fun h => ⟨h.fits, h.ends⟩⟩

def streamCommands (stream : Text) : List Command := (completeLines stream).filterMap commandOf

theorem inputLines_of_fits {bytes : Text} (h : bytes.length ≤ bufferSize) : inputLines bytes = completeLines bytes := by
  have hlines := nonblank_getlines (bytes.take bufferSize)
  rw [List.take_of_length_le h] at hlines
  rw [inputLines, List.take_of_length_le h]
  exact hlines

theorem completeLines_append {bytes : Text} (h : bytes.getLast? = some '\n') (rest : Text) :
    completeLines (bytes ++ rest) = completeLines bytes ++ completeLines rest := by
  obtain ⟨init, rfl⟩ := List.getLast?_eq_some_iff.mp h
  rw [List.append_assoc, List.singleton_append]
  simp only [completeLines, List.splitOn_append_cons_self, List.map_append, nonblank_append]
  rw [show nonblank ((List.splitOn '\n' []).map trim) = [] from rfl, List.append_nil]

/-- It does not matter how a stream of lines is cut into datagrams. -/
theorem streamCommands_flatten {bytes : List Text} (h : ∀ b ∈ bytes, WholeLines b) :
    bytes.flatMap datagramCommands = streamCommands bytes.flatten := by
  induction bytes with
  | nil => rfl
  | cons b bytes ih =>
      have hb := h b List.mem_cons_self
      rw [List.flatMap_cons, List.flatten_cons, streamCommands, completeLines_append hb.ends,
        List.filterMap_append, ih (fun c hc => h c (List.mem_cons_of_mem b hc)), datagramCommands,
        inputLines_of_fits hb.fits]
      rfl

theorem Reads.stream {bytes : List Text} (hreads : Reads p bytes) (h : ∀ b ∈ bytes, WholeLines b) :
    p.pushed <+: streamCommands bytes.flatten ∧ (Returned p → p.pushed = streamCommands bytes.flatten) := by
  rw [← streamCommands_flatten h]
  constructor
  · exact (List.prefix_append _ _).trans hreads.begins
  · intro hr
    have ht : ¬ Threw p := by rw [Threw, hr.1]; exact fun he => by cases he
    rw [← hreads.all ht, hr.1, show pendingCommands .returned = [] from rfl, List.append_nil]

/-- From the network to the standard output: however a stream of lines is cut into datagrams, and
in whatever order the threads go on, what is printed begins what the engine says to the
commands of the stream, one after the other, and it is all of that when the threads have
returned. -/
theorem stream_agrees (schedule : List Move) (h : ∀ b ∈ received v schedule, WholeLines b) :
    (processAfter v schedule).printed <+:
        sequentialOutput v (streamCommands (received v schedule).flatten) ∧
      (Returned (processAfter v schedule) →
        (processAfter v schedule).printed =
          sequentialOutput v (streamCommands (received v schedule).flatten)) := by
  obtain ⟨hbegins, hall⟩ := (reads_after v schedule).stream h
  constructor
  · exact (printed_begins v schedule).trans (sequentialOutput_begins hbegins)
  · intro hr
    rw [printed_of_returned hr, hall hr]

theorem stream_agrees_orders :
    let order (n : Char) : Text := ['N', ',', '1', ',', 'A', ',', '9', ',', '5', ',', 'B', ',', n, '\n']
    let schedule : List Move :=
      [.input .success, .input .success, .input .success, .input (.datagram (order '1')), .input .success,
        .input .success, .input .success, .input (.datagram (order '2')), .signal, .input .success,
        .input .success, .input .success, .input .success] ++
      List.replicate 12 .processing ++ List.replicate 12 .output
    Returned (processAfter (fun _ => default) schedule) ∧
      (processAfter (fun _ => default) schedule).printed =
        sequentialOutput (fun _ => default) (streamCommands (order '1' ++ order '2')) :=
  ⟨by decide +kernel, (stream_agrees _ (fun b hb => by revert b; decide +kernel)).2 (by decide +kernel)⟩

/-- The case `test/4` of the repository. -/
example : sequentialOutput (fun _ => default) (streamCommands ("N, 1, IBM, 10, 100, B, 1\n" ++
    "N, 1, IBM, 12, 100, S, 2\nN, 2, IBM, 9, 100, B, 101\nN, 2, IBM, 11, 100, S, 102\n" ++
    "N, 2, IBM, 9, 100, S, 103\n\nF\n").toList) =
      ["A, 1, 1", "B, B, 10, 100", "A, 1, 2", "B, S, 12, 100", "A, 2, 101", "A, 2, 102",
        "B, S, 11, 100", "A, 2, 103", "T, 1, 1, 2, 103, 10, 100", "B, B, 9, 100"].map String.toList := by
  decide +kernel

end Streams

section Answers

variable {moves : ℕ → Move}

def linesToRead : InputThread → ℕ
  | .reading lines => lines.length
  | _ => 0

def receivedBy (v : Nat → VisitOrder) (moves : ℕ → Move) (n : ℕ) : List Text :=
  received v ((List.range n).map moves)

theorem receivedBy_succ (v : Nat → VisitOrder) (moves : ℕ → Move) (n : ℕ) :
    receivedBy v moves n <+: receivedBy v moves (n + 1) := by
  rw [receivedBy, receivedBy, List.range_succ, List.map_append]
  change _ <+: received v (_ ++ [moves n])
  rw [received_concat]
  exact List.prefix_append _ _

theorem flatMap_begins {bytes bytes' : List Text} (h : bytes <+: bytes') :
    bytes.flatMap datagramCommands <+: bytes'.flatMap datagramCommands := by
  obtain ⟨rest, rfl⟩ := h
  rw [List.flatMap_append]
  exact List.prefix_append _ _

theorem input_reads {lines : List Text} (answer : Answer) (hp : p.input = .reading lines) (hne : lines ≠ []) :
    linesToRead (inputThreadStep answer p).input < linesToRead p.input := by
  cases lines with
  | nil => exact absurd rfl hne
  | cons line lines =>
      simp only [inputThreadStep, hp]
      cases parseLineToCommand line with
      | error e => exact Nat.succ_pos _
      | ok cmd =>
          dsimp only
          split_ifs <;> exact Nat.lt_succ_self _

theorem leadsTo_pushed (hfair : FairMoves moves) (cmds : List Command) :
    LeadsTo (trace v moves) (fun p => cmds <+: p.pushed ++ pendingCommands p.input)
      (fun p => Threw p ∨ cmds <+: p.pushed) := by
  have hlowers : Lowers (trace v moves) (fun k => actor (moves k)) .input
      (fun p => cmds <+: p.pushed ++ pendingCommands p.input)
      (fun p => Threw p ∨ cmds <+: p.pushed) (fun p => linesToRead p.input) := by
    intro k hcmds hq
    rw [not_or] at hq
    by_cases hnext : Threw (trace v moves (k + 1))
    · exact Or.inl (Or.inl hnext)
    right
    have hkept : cmds <+: (trace v moves (k + 1)).pushed ++ pendingCommands (trace v moves (k + 1)).input := by
      have hbefore := (reads_after v ((List.range k).map moves)).all hq.1
      have hafter := (reads_after v ((List.range (k + 1)).map moves)).all hnext
      rw [trace, hafter]
      apply hcmds.trans
      rw [trace, hbefore]
      exact flatMap_begins (receivedBy_succ v moves k)
    refine ⟨hkept, ?_⟩
    -- something is still to be read, so the input thread stands in its inner loop
    obtain ⟨lines, hlines, hne⟩ : ∃ lines, (trace v moves k).input = .reading lines ∧ lines ≠ [] := by
      cases hp : (trace v moves k).input with
      | reading lines =>
          refine ⟨lines, rfl, ?_⟩
          rintro rfl
          rw [hp, show pendingCommands (.reading []) = [] from rfl, List.append_nil] at hcmds
          exact hq.2 hcmds
      | opening | binding | givingUp | polling | receiving | closing | returned | threw =>
          rw [hp] at hcmds
          exact absurd (hcmds.trans (List.append_nil _ ▸ List.prefix_rfl)) hq.2
    rw [trace_succ]
    cases hm : moves k with
    | input answer =>
        have hlt : linesToRead (processStep v (trace v moves k) (.input answer)).input <
            linesToRead (trace v moves k).input := by
          rw [processStep_input hq.1]
          exact input_reads answer hlines hne
        exact ⟨hlt.le, fun _ => hlt⟩
    | signal | processing | output =>
        dsimp only
        rw [(processStep_other (fun _ he => by cases he)).1]
        exact ⟨le_rfl, fun ha => by simp [hm, actor] at ha⟩
  exact hlowers.leadsTo (hfair .input)

/-- Every command in every datagram is answered: as long as all threads go on, in whatever order,
what the engine says to the commands received so far is printed in the end, unless an
exception ends the process. -/
theorem eventually_answered (v : Nat → VisitOrder) (moves : ℕ → Move) (hfair : FairMoves moves) (n : ℕ) :
    ∃ m, n ≤ m ∧ (Threw (trace v moves m) ∨
      sequentialOutput v ((receivedBy v moves n).flatMap datagramCommands) <+: (trace v moves m).printed) := by
  by_cases ht : Threw (trace v moves n)
  · exact ⟨n, le_rfl, Or.inl ht⟩
  · have hreads := (reads_after v ((List.range n).map moves)).all ht
    have hstart : (receivedBy v moves n).flatMap datagramCommands <+:
        (trace v moves n).pushed ++ pendingCommands (trace v moves n).input := by
      rw [trace, hreads]
      exact List.prefix_rfl
    obtain ⟨m, hm, hpushed⟩ := leadsTo_pushed hfair _ n hstart
    rcases hpushed with hthrew | hpushed
    · exact ⟨m, hm, Or.inl hthrew⟩
    · obtain ⟨k, hk, hprinted⟩ := eventually_printed v moves hfair m
      exact ⟨k, hm.trans hk, hprinted.imp_right (sequentialOutput_begins hpushed).trans⟩

theorem eventually_answered_order :
    (receivedBy (fun _ => default) turns 10).length = 1 ∧
      ∃ m, 10 ≤ m ∧ (Threw (trace (fun _ => default) turns m) ∨
        sequentialOutput (fun _ => default) ((receivedBy (fun _ => default) turns 10).flatMap datagramCommands) <+:
          (trace (fun _ => default) turns m).printed) :=
  ⟨by decide +kernel, eventually_answered _ turns turns_fair 10⟩

end Answers

end Orderbook.EndToEnd

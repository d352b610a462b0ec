/-
# A text as a whole and by its lines

Run as a whole, a text does what its lines do one after the other, and what it
does when it is fed to the prompt, if each of its lines is correct on its own
and those before the last succeed. The prompt writes a mark before every line,
and counts each line as the first.

What is split is flushed more often than what is not. So a split shows on a
sink that refuses a later flush (`Faltering`), although nothing that is written
depends on a flush there.

Key definitions: `Prompt.Repeats`, `Faltering`.
Key theorems: `run_of_lines`, `run_of_interrupted`, `Prompt.repeats_of_unfailing`, `run_splits`,
`split_shows_if_flush_falters`.
-/
import Mathlib
import Lox.Proofs.Lines.Prompted
import Lox.Proofs.Lines.Texts

namespace Lox

open Session

/-- Correct lines make up a correct text. -/
theorem correct_of_lines : ∀ {line : String} {rest : List String},
    (∀ l ∈ (line :: rest).dropLast, EndsLine l) → (∀ l ∈ line :: rest, Correct l) →
    Correct (line ++ String.join rest)
  | line, [], _, hc => by
    rw [String.join_nil, String.append_empty]
    exact hc line List.mem_cons_self
  | line, next :: rest, he, hc => by
    rw [List.dropLast_cons_cons] at he
    obtain ⟨hends, hrest⟩ := List.forall_mem_cons.mp he
    obtain ⟨hline, hnext⟩ := List.forall_mem_cons.mp hc
    rw [String.join_cons]
    exact correct_append hends hline (correct_of_lines hrest hnext)

section Lines

variable {rounds : Nat} {text source : String} {before later : List String}

theorem endsLine_of_lines (hl : linesOf text = before ++ source :: later)
    (hc : ∀ line ∈ linesOf text, Correct line) :
    (∀ line ∈ before, EndsLine line ∧ Correct line) ∧
    (∀ line ∈ (source :: later).dropLast, EndsLine line) ∧
    ∀ line ∈ source :: later, Correct line := by
  have hends : ∀ line ∈ (linesOf text).dropLast, EndsLine line :=
    fun line hm => endsLine_of_mem_dropLast hm
  rw [hl, List.dropLast_append_of_ne_nil (List.cons_ne_nil _ _)] at hends
  rw [hl] at hc
  obtain ⟨hbefore, hafter⟩ := List.forall_mem_append.mp hc
  obtain ⟨hendsBefore, hendsAfter⟩ := List.forall_mem_append.mp hends
  exact ⟨fun line hm => ⟨hendsBefore line hm, hbefore line hm⟩, hendsAfter, hafter⟩

/-- A text is run as what follows some of its lines, after these. -/
theorem run_of_lines {W : Type} [Output W] {session after : Session W}
    (hw : Output.FlushKeepsWriting W)
    (ho : session.options = {}) (hl : linesOf text = before ++ source :: later)
    (hc : ∀ line ∈ linesOf text, Correct line) (hs : Succeeds rounds before session after) :
    Splits (newlines (String.join before)) (run rounds text session)
      (run rounds (source ++ String.join later) after) := by
  have ht : String.join before ++ (source ++ String.join later) = text := by
    have hj := join_linesOf text
    rw [hl, String.join_append, String.join_cons] at hj
    exact hj
  obtain ⟨hb, hends, hcorrect⟩ := endsLine_of_lines hl hc
  rw [← ht]
  exact run_of_succeeds hw (correct_of_lines hends hcorrect) ho hb hs

/-- A text is run as its last line, after the others. -/
theorem run_of_last {W : Type} [Output W] {session after : Session W}
    (hw : Output.FlushKeepsWriting W)
    (ho : session.options = {}) (hl : linesOf text = before ++ [source])
    (hc : ∀ line ∈ linesOf text, Correct line) (hs : Succeeds rounds before session after) :
    Splits (newlines (String.join before)) (run rounds text session) (run rounds source after) := by
  have hr := run_of_lines hw ho hl hc hs
  rw [String.join_nil, String.append_empty] at hr
  exact hr

/-- A line that is interrupted interrupts the text. -/
theorem run_of_interrupted {session after stopped : Session} {interruption : Interruption}
    (ho : session.options = {}) (hl : linesOf text = before ++ source :: later)
    (hc : ∀ line ∈ linesOf text, Correct line) (hs : Succeeds rounds before session after)
    (hr : run rounds source after = .error interruption stopped) :
    ∃ whole, run rounds text session = .error interruption whole := by
  obtain ⟨hb, hends, hcorrect⟩ := endsLine_of_lines hl hc
  have hoa := options_of_succeeds ho (fun line hm => (hb line hm).2) hs
  have hrun : run rounds (source ++ String.join later) after = .error interruption stopped := by
    cases later with
    | nil => rw [String.join_nil, String.append_empty, hr]
    | cons next rest =>
      rw [List.dropLast_cons_cons] at hends
      obtain ⟨hsource, hrest⟩ := List.forall_mem_cons.mp hends
      obtain ⟨hline, hnext⟩ := List.forall_mem_cons.mp hcorrect
      have hm : Correct (String.join (next :: rest)) := by
        rw [String.join_cons]
        exact correct_of_lines hrest hnext
      exact run_append_of_error hoa hsource hline hm hr
  obtain ⟨hv, -⟩ := (run_of_lines Sink.flushKeepsWriting ho hl hc hs).answered Sink.flushKeepsFlushing
  rw [hrun] at hv
  rcases hw : run rounds text session with ⟨outcome, whole⟩ | ⟨i, whole⟩ <;> rw [hw] at hv <;> cases hv
  exact ⟨whole, rfl⟩

end Lines

namespace Prompt

/-- A dialogue against a run of the whole text. Both are interrupted, or both end with the same
variables, with the same messages but for the lines before the last, and with the same parts of
output, one a line, which the prompt has written with a mark before each and one at the end. -/
inductive Repeats (count before : Nat) (start : ByteArray) :
    EStateM.Result Interruption Session Report →
      EStateM.Result Interruption Session Outcome → Prop
  | ended {report : Report} {outcome : Outcome} {last whole : Session}
      (parts : List ByteArray) (each : parts.length = count)
      (bound : last.state.environment = whole.state.environment)
      (reported : whole.diagnostics.pending =
        report.diagnostics.map (Diagnostic.moved (· + before)))
      (unlogged : report.logged = none)
      (plain : whole.state.sink.accepted = parts.foldl (· ++ ·) start)
      (marked : last.state.sink.accepted = withMarks start parts ++ mark.toUTF8) :
      Repeats count before start (.ok report last) (.ok outcome whole)
  | interrupted {interruption : Interruption} {stopped whole : Session} :
      Repeats count before start (.error interruption stopped) (.error interruption whole)

section Repeats

variable {rounds : Nat} {text source : String} {before later : List String}
  {session after : Session}

theorem eq_empty_of_linesOf (h : linesOf text = []) : text = "" := by
  rw [← join_linesOf text, h, String.join_nil]

/-- A text without a line is only flushed. -/
theorem repeats_of_empty (ho : session.options = {}) (ha : session.state.sink.Accepting) :
    Repeats 0 0 session.state.sink.accepted (dialogue rounds (lines "".toUTF8.data.toList) session)
      (run rounds "" session) := by
  have hl : lines "".toUTF8.data.toList = [] := rfl
  have hi : interpret rounds [] session.state = .ok () session.state := by
    rw [interpret, Action.bind_of_ok _ executeAll_nil, flush_sink, ha.flushed]
  rw [run_of_correct ho correct_empty, program_empty, hi, hl, dialogue_nil ha]
  exact .ended [] rfl rfl rfl rfl rfl rfl

/-- The prompt reads the lines of the text. -/
theorem exists_lines (hl : linesOf text = before ++ source :: later) :
    ∃ front line rest, lines text.toUTF8.data.toList = front ++ line :: rest ∧
      front.map text? = before.map some ∧ text? line = some source ∧
      rest.map text? = later.map some := by
  have ht := text?_lines text
  rw [hl, List.map_append, List.map_cons] at ht
  obtain ⟨front, tail, hf, hfront, htail⟩ := List.map_eq_append_iff.mp ht
  obtain ⟨line, rest, rfl, hline, hrest⟩ := List.map_eq_cons_iff.mp htail
  exact ⟨front, line, rest, hf, hfront, hline, hrest⟩

/-- The prompt repeats a text of which the lines before the last succeed. -/
theorem repeats_of_succeeds (ho : session.options = {}) (ha : session.state.sink.Accepting)
    (hl : linesOf text = before ++ [source]) (hc : ∀ line ∈ linesOf text, Correct line)
    (hs : Succeeds rounds before session after) :
    Repeats (before.length + 1) (newlines (String.join before)) session.state.sink.accepted
      (dialogue rounds (lines text.toUTF8.data.toList) session) (run rounds text session) := by
  obtain ⟨front, line, rest, hlines, hfront, hline, hrest⟩ := exists_lines hl
  obtain rfl : rest = [] := List.map_eq_nil_iff.mp hrest
  obtain ⟨hb, -, -⟩ := endsLine_of_lines hl hc
  obtain ⟨part, hlast⟩ := ends_last (accepting_of_succeeds ha hs) hline
  obtain ⟨parts, hlength, hends⟩ :=
    ends_of_succeeds hlast ho ha hfront (fun line hm => (hb line hm).2) hs
  obtain ⟨hbound, hwritten, hanswered⟩ := run_of_last Sink.flushKeepsWriting ho hl hc hs
  obtain ⟨hv, hd⟩ := hanswered Sink.flushKeepsFlushing
  rw [hlines]
  rcases hr : run rounds source after with ⟨outcome, final⟩ | ⟨interruption, final⟩ <;>
    rcases hw : run rounds text session with ⟨_, whole⟩ | ⟨_, whole⟩ <;>
    rw [hr, hw] at hv hbound hwritten hd <;> cases hv
  · have hdialogue := hends.marked outcome final hr session.state.sink.accepted
    rw [holding_accepted] at hdialogue
    rw [hdialogue]
    exact .ended parts hlength hbound.symm (congrArg Diagnostics.pending hd) rfl
      (hwritten.trans (hends.plain outcome final hr)) rfl
  · obtain ⟨stopped, hdialogue⟩ :=
      hends.interrupted interruption final hr session.state.sink.accepted
    rw [holding_accepted] at hdialogue
    rw [hdialogue]
    exact .interrupted

/-- The prompt repeats a text of which a line is interrupted and those before it succeed. -/
theorem repeats_of_interrupted {count skipped : Nat} {interruption : Interruption}
    {stopped : Session} (ho : session.options = {}) (ha : session.state.sink.Accepting)
    (hl : linesOf text = before ++ source :: later) (hc : ∀ line ∈ linesOf text, Correct line)
    (hs : Succeeds rounds before session after)
    (hr : run rounds source after = .error interruption stopped) :
    Repeats count skipped session.state.sink.accepted
      (dialogue rounds (lines text.toUTF8.data.toList) session) (run rounds text session) := by
  obtain ⟨front, line, rest, hlines, hfront, hline, -⟩ := exists_lines hl
  obtain ⟨hb, -, -⟩ := endsLine_of_lines hl hc
  obtain ⟨whole, hw⟩ := run_of_interrupted ho hl hc hs hr
  have hstop : Ends rounds (line :: rest) after [] (.error interruption stopped) :=
    ends_interrupted [] (accepting_of_succeeds ha hs) hline hr
  obtain ⟨parts, -, hends⟩ :=
    ends_of_succeeds hstop ho ha hfront (fun line hm => (hb line hm).2) hs
  obtain ⟨last, hd⟩ := hends.interrupted _ _ rfl session.state.sink.accepted
  rw [holding_accepted] at hd
  rw [hw, hlines, hd]
  exact .interrupted

/-- The prompt repeats a text whose lines are correct, if none before the last fails. -/
theorem repeats_of_unfailing (ho : session.options = {}) (ha : session.state.sink.Accepting)
    (hc : ∀ line ∈ linesOf text, Correct line)
    (hu : Unfailing rounds (linesOf text).dropLast session) :
    Repeats (linesOf text).length (newlines (String.join (linesOf text).dropLast))
      session.state.sink.accepted (dialogue rounds (lines text.toUTF8.data.toList) session)
      (run rounds text session) := by
  rcases List.eq_nil_or_concat (linesOf text) with hl | ⟨init, last, hl⟩
  · have he := eq_empty_of_linesOf hl
    subst he
    exact repeats_of_empty ho ha
  · rw [List.concat_eq_append] at hl
    rw [hl, List.dropLast_concat] at hu
    rw [hl, List.dropLast_concat, List.length_append, List.length_singleton]
    obtain ⟨after, hs⟩ | ⟨before, source, later, after, i, stopped, rfl, hs, hr⟩ :=
      succeeds_or_interrupted hu
    · exact repeats_of_succeeds ho ha hl hc hs
    · rw [List.append_assoc, List.cons_append] at hl
      exact repeats_of_interrupted ho ha hl hc hs hr

end Repeats

end Prompt

/-- A sink that takes all that comes and refuses to be flushed a second time. -/
structure Faltering where
  accepted : ByteArray := .empty
  flushes : Nat := 0

instance : Output Faltering where
  accepted := Faltering.accepted
  write sink bytes := (none, { sink with accepted := sink.accepted ++ bytes })
  flush sink :=
    (if sink.flushes = 1 then some "closed" else none, { sink with flushes := sink.flushes + 1 })

/-- What it takes does not depend on how often it was flushed. -/
theorem Faltering.accepted_list : ∀ (lines : List String) (bytes : ByteArray) (m n : Nat),
    (list lines (⟨bytes, m⟩ : Faltering)).accepted = (list lines (⟨bytes, n⟩ : Faltering)).accepted
  | [], _, _, _ => rfl
  | line :: rest, bytes, m, n => accepted_list rest (bytes ++ (line ++ "\n").toUTF8) m n

theorem Faltering.flushKeepsWriting : Output.FlushKeepsWriting Faltering :=
  fun sink => funext fun lines => Prod.ext (accepted_list lines sink.accepted _ _) rfl

end Lox

/-
# Splitting a program between runs

Two sources without an error in their text, run one after the other, do what
they do as one source with a newline between them: after the first the
variables, the output and the record are what the second run starts from. Only
the lines of what goes wrong are counted from the start of the source. What is
run in two is flushed once more; the sink may be of any kind on which that has
no effect on what is written later. If it has none on how later flushes are
answered either, the runs come to the same.

Key definitions: `Correct`, `newlines`, `Session.moved`, `Session.Splits`, `Session.Succeeds`,
`Session.Unfailing`.
Key theorems: `tokens_append`, `correct_append`, `run_append`, `run_of_succeeds`.
-/
import Lox.Proofs.Grammar.Unambiguous
import Lox.Proofs.Lines.Cutting
import Lox.Proofs.Lines.Running
import Lox.Proofs.Sinks.Seen

namespace Lox

/-! ### Sources -/

/-- There is no error in the text of the source. -/
def Correct (source : String) : Prop := Session.staticDiagnostics source = []

def newlines (source : String) : Nat := source.toList.count '\n'

theorem newlines_append (source more : String) :
    newlines (source ++ more) = newlines source + newlines more := by
  unfold newlines
  rw [String.toList_append, List.count_append]

/-- The tokens of a source, without the end of the input. -/
def tokens (source : String) : List Token := Scan.body 1 (Piece.cut source.toList)

/-- The last character of the source is a newline. -/
def EndsLine (source : String) : Prop := ∃ line, source = line ++ "\n"

theorem isEnd_of_mem_tokens (source : String) : ∀ t ∈ tokens source, t.isEnd = false :=
  Scan.isEnd_of_mem_body (Piece.role_ne_end _) 1

theorem scan_tokens (source : String) :
    (scan source).tokens = tokens source ++ [⟨.endOfInput, "", 1 + newlines source⟩] := by
  unfold scan newlines
  rw [Scan.tokens_ofPieces, Piece.lastLine_cut]
  rfl

theorem program_eq (source : String) :
    Session.program source = (Grammar.program (tokens source)).1 := by
  unfold Session.program
  rw [scan_tokens]
  exact (parse_before_end rfl (isEnd_of_mem_tokens source)).1

theorem correct_iff (source : String) :
    Correct source ↔
      Piece.Faultless (Piece.cut source.toList) ∧ (Grammar.program (tokens source)).2 = [] := by
  have hc : (parse (scan source).tokens).complaints = (Grammar.program (tokens source)).2 := by
    rw [scan_tokens]
    exact (parse_before_end rfl (isEnd_of_mem_tokens source)).2
  unfold Correct Session.staticDiagnostics Scan.diagnostics Parse.diagnostics
  rw [List.append_eq_nil_iff, List.map_eq_nil_iff, List.map_eq_nil_iff, hc]
  exact and_congr_left' (Scan.faults_ofPieces 1 _)

theorem tokens_empty : tokens "" = [] := by
  unfold tokens
  have hc : Piece.cut "".toList = [] := Piece.cut_nil
  rw [hc]
  rfl

theorem program_empty : Session.program "" = [] := by
  rw [program_eq, tokens_empty, Grammar.program]

theorem correct_empty : Correct "" := by
  have hc : Piece.cut "".toList = [] := Piece.cut_nil
  refine (correct_iff "").mpr ⟨?_, ?_⟩
  · rw [hc]
    exact List.forall_mem_nil _
  · rw [tokens_empty, Grammar.program]

/-- Two derivations one after the other make one. -/
theorem ProgramDerivation.exists_append : ∀ d d' : ProgramDerivation, ∃ whole : ProgramDerivation,
    whole.tokens = d.tokens ++ d'.tokens ∧ whole.trees = d.trees ++ d'.trees
  | .nil, d' => ⟨d', rfl, rfl⟩
  | .declare v rest, d' => by
    obtain ⟨whole, ht, hs⟩ := rest.exists_append d'
    refine ⟨.declare v whole, ?_, ?_⟩
    · rw [tokens, tokens, ht, List.append_assoc]
    · rw [trees, trees, hs, List.cons_append]
  | .statement s rest, d' => by
    obtain ⟨whole, ht, hs⟩ := rest.exists_append d'
    refine ⟨.statement s whole, ?_, ?_⟩
    · rw [tokens, tokens, ht, List.append_assoc]
    · rw [trees, trees, hs, List.cons_append]

/-- Two lists of declarations one after the other are read each on its own. -/
theorem program_append {input more : List Token} (h : (Grammar.program input).2 = [])
    (h' : (Grammar.program more).2 = []) :
    Grammar.program (input ++ more) =
      ((Grammar.program input).1 ++ (Grammar.program more).1, []) := by
  obtain ⟨d, rfl⟩ := derived_program input h
  obtain ⟨d', rfl⟩ := derived_program more h'
  obtain ⟨whole, ht, hs⟩ := d.exists_append d'
  calc Grammar.program (d.tokens ++ d'.tokens)
      = (whole.trees.map some, []) := by rw [← ht, whole.program]
    _ = (d.trees.map some ++ d'.trees.map some, []) := by rw [hs, List.map_append]
    _ = ((Grammar.program d.tokens).1 ++ (Grammar.program d'.tokens).1, []) := by
      rw [d.program, d'.program]

/-! ### A source after another -/

theorem cut_newline_append {source : String} (h : Correct source) (more : List Char) :
    Piece.cut ((source ++ "\n").toList ++ more) =
      Piece.cut source.toList ++ ⟨['\n'], .blank⟩ :: Piece.cut more := by
  have hl : (source ++ "\n").toList ++ more = source.toList ++ '\n' :: more := by
    rw [String.toList_append, List.append_assoc]
    rfl
  rw [hl, Piece.cut_append_newline more ((correct_iff source).mp h).1.ended]

section Append

variable {source more : String}

/-- A source is cut where a line before it ends. -/
theorem cut_append (hl : EndsLine source) (h : Correct source) :
    Piece.cut (source ++ more).toList = Piece.cut source.toList ++ Piece.cut more.toList := by
  obtain ⟨line, rfl⟩ := hl
  have hc : (line ++ "\n").toList = line.toList ++ ['\n'] := String.toList_append
  have he : Piece.Ended line.toList := by
    have := ((correct_iff _).mp h).1.ended
    rw [hc] at this
    exact this.of_newline
  have hs := Piece.cut_append_newline [] he
  rw [Piece.cut_nil] at hs
  rw [String.toList_append, hc, List.append_assoc, List.singleton_append]
  calc Piece.cut (line.toList ++ '\n' :: more.toList)
      = Piece.cut line.toList ++ ⟨['\n'], .blank⟩ :: Piece.cut more.toList :=
        Piece.cut_append_newline more.toList he
    _ = (Piece.cut line.toList ++ [⟨['\n'], .blank⟩]) ++ Piece.cut more.toList := by
      rw [List.append_assoc, List.singleton_append]
    _ = Piece.cut (line.toList ++ ['\n']) ++ Piece.cut more.toList := by rw [hs]

theorem tokens_append (hl : EndsLine source) (h : Correct source) :
    tokens (source ++ more) =
      tokens source ++ (tokens more).map (Token.moved (· + newlines source)) := by
  unfold tokens
  rw [cut_append hl h, Scan.body_append, Piece.lastLine_cut, Scan.body_moved]
  rfl

theorem program_tokens_append (hl : EndsLine source) (h : Correct source) (hm : Correct more) :
    Grammar.program (tokens (source ++ more)) =
      (Session.program source ++ Declarations.moved (· + newlines source) (Session.program more),
        []) := by
  have hp := ((correct_iff source).mp h).2
  have hq : (Grammar.program ((tokens more).map (Token.moved (· + newlines source)))).2 = [] := by
    rw [Grammar.program_moved, ((correct_iff more).mp hm).2]
    rfl
  calc Grammar.program (tokens (source ++ more))
      = ((Grammar.program (tokens source)).1 ++
          (Grammar.program ((tokens more).map (Token.moved (· + newlines source)))).1, []) := by
        rw [tokens_append hl h, program_append hp hq]
    _ = ((Grammar.program (tokens source)).1 ++
          Declarations.moved (· + newlines source) (Grammar.program (tokens more)).1, []) := by
        rw [Grammar.program_moved]
    _ = (Session.program source ++
          Declarations.moved (· + newlines source) (Session.program more), []) := by
        rw [program_eq, program_eq]

theorem correct_append (hl : EndsLine source) (h : Correct source) (hm : Correct more) :
    Correct (source ++ more) := by
  refine (correct_iff _).mpr ⟨?_, by rw [program_tokens_append hl h hm]⟩
  rw [cut_append hl h]
  exact List.forall_mem_append.mpr ⟨((correct_iff source).mp h).1, ((correct_iff more).mp hm).1⟩

theorem program_source_append (hl : EndsLine source) (h : Correct source) (hm : Correct more) :
    Session.program (source ++ more) =
      Session.program source ++ Declarations.moved (· + newlines source) (Session.program more) := by
  rw [program_eq (source ++ more), program_tokens_append hl h hm]

/-- A newline at the end changes no token. -/
theorem tokens_newline (h : Correct source) : tokens (source ++ "\n") = tokens source := by
  have hc := cut_newline_append h []
  rw [List.append_nil, Piece.cut_nil] at hc
  unfold tokens
  rw [hc, Scan.body_append]
  exact List.append_nil _

theorem correct_newline (h : Correct source) : Correct (source ++ "\n") := by
  have hc := cut_newline_append h []
  rw [List.append_nil, Piece.cut_nil] at hc
  obtain ⟨hf, hp⟩ := (correct_iff source).mp h
  refine (correct_iff _).mpr ⟨?_, by rw [tokens_newline h, hp]⟩
  rw [hc]
  refine List.forall_mem_append.mpr ⟨hf, ?_⟩
  intro p hp
  rw [List.mem_singleton] at hp
  subst hp
  exact ⟨fun h => (by cases h), fun h => (by cases h)⟩

theorem program_newline (h : Correct source) :
    Session.program (source ++ "\n") = Session.program source := by
  rw [program_eq, program_eq, tokens_newline h]

end Append

theorem correct_join {last : String} (hc : Correct last) : ∀ {init : List String},
    (∀ line ∈ init, EndsLine line ∧ Correct line) → Correct (String.join init ++ last)
  | [], _ => by
    rw [String.join_nil, String.empty_append]
    exact hc
  | line :: rest, h => by
    obtain ⟨hline, hrest⟩ := List.forall_mem_cons.mp h
    rw [String.join_cons, String.append_assoc]
    exact correct_append hline.1 hline.2 (correct_join hc hrest)

/-! ### Runs -/

namespace Session

variable {W : Type}

/-- The session with what is on record moved to other lines. -/
def moved (g : Nat → Nat) (session : Session W) : Session W :=
  { session with
    diagnostics :=
      { session.diagnostics with
        pending := session.diagnostics.pending.map (Diagnostic.moved g) } }

theorem state_moved (g : Nat → Nat) (session : Session W) : (session.moved g).state = session.state :=
  rfl

theorem moved_zero : (moved (· + 0) : Session W → Session W) = id := by
  have hd : ∀ d : Diagnostic, d.moved (· + 0) = d := by
    intro d
    cases d <;> rfl
  funext session
  unfold moved
  rw [List.map_id'' hd]
  rfl

theorem moved_moved (k l : Nat) (session : Session W) :
    (session.moved (· + l)).moved (· + k) = session.moved (· + (k + l)) := by
  have hn : ∀ line, line + l + k = line + (k + l) := by omega
  have hd : Diagnostic.moved (· + k) ∘ Diagnostic.moved (· + l) = Diagnostic.moved (· + (k + l)) := by
    funext d
    rcases d with ⟨line, place, problem⟩ | ⟨line, problem⟩ | reason
    · exact congrArg (Diagnostic.static · place problem) (hn line)
    · exact congrArg (Diagnostic.evaluation · problem) (hn line)
    · rfl
  simp only [moved, List.map_map, hd]

/-- What a run of a correct source comes to, given what its program comes to. -/
def ofResult : EStateM.Result Stop (State W) Unit → EStateM.Result Interruption (Session W) Outcome
  | .ok () st => .ok .success ⟨{}, st, {}⟩
  | .error (.failure f) st => .ok .runtimeError ⟨{}, st, Diagnostics.record {} f.diagnostic⟩
  | .error (.malformed m) st => .error (.malformed m) ⟨{}, st, {}⟩
  | .error .outOfRounds st => .error .outOfRounds ⟨{}, st, {}⟩

theorem state_ofResult (result : EStateM.Result Stop (State W) Unit) :
    (leaves (ofResult result)).state = leaves result := by
  rcases result with ⟨⟨⟩, st⟩ | ⟨f | m | _, st⟩ <;> rfl

/-- What is reported of a program does not depend on what it leaves. -/
theorem ofResult_eq {result other : EStateM.Result Stop (State W) Unit}
    (h : verdict result = verdict other) :
    verdict (ofResult result) = verdict (ofResult other) ∧
      (leaves (ofResult result)).diagnostics = (leaves (ofResult other)).diagnostics := by
  rcases result with ⟨⟨⟩, st⟩ | ⟨stop, st⟩ <;> rcases other with ⟨⟨⟩, st'⟩ | ⟨stop', st'⟩ <;> cases h
  · exact ⟨rfl, rfl⟩
  · rcases stop with f | m | _ <;> exact ⟨rfl, rfl⟩

theorem ofResult_moved (g : Nat → Nat) (action : Action (State W) Unit) (st : State W) :
    ofResult (action.moved g st) = mapState (moved g) (ofResult (action st)) := by
  unfold Action.moved
  rcases action st with ⟨⟨⟩, last⟩ | ⟨f | m | _, last⟩
  · rfl
  · show EStateM.Result.ok _ (_ : Session W) = .ok _ _
    unfold moved Diagnostics.record
    rw [Failure.diagnostic_moved]
    cases f <;> rfl
  · rfl
  · rfl

/-- A run against another that has started later in the text. They leave the same variables and
the same output; and if no flush has an effect on how later ones are answered, they come to the
same, with the same messages `k` lines further down. -/
structure Splits [Output W] (k : Nat)
    (joined split : EStateM.Result Interruption (Session W) Outcome) : Prop where
  bound : (leaves joined).state.environment = (leaves split).state.environment
  written : Output.accepted (leaves joined).state.sink = Output.accepted (leaves split).state.sink
  answered (hf : Output.FlushKeepsFlushing W) :
    verdict joined = verdict split ∧
      (leaves joined).diagnostics = ((leaves split).moved (· + k)).diagnostics

variable [Output W]

theorem Splits.refl (result : EStateM.Result Interruption (Session W) Outcome) :
    Splits 0 result result :=
  ⟨rfl, rfl, fun _ => ⟨rfl, by rw [moved_zero]; rfl⟩⟩

theorem Splits.trans {k l : Nat} {whole mid last : EStateM.Result Interruption (Session W) Outcome}
    (h : Splits k whole mid) (h' : Splits l mid last) : Splits (k + l) whole last := by
  refine ⟨h.bound.trans h'.bound, h.written.trans h'.written, fun hf => ?_⟩
  obtain ⟨hv, hd⟩ := h.answered hf
  obtain ⟨hv', hd'⟩ := h'.answered hf
  refine ⟨hv.trans hv', ?_⟩
  rw [hd, ← moved_moved]
  unfold moved at hd' ⊢
  rw [hd']

section Runs

variable {rounds : Nat} {source more : String} {session after : Session W}

theorem run_of_correct (ho : session.options = {}) (h : Correct source) :
    run rounds source session = ofResult (interpret rounds (program source) session.state) := by
  have hc : session.checked source = {} := by
    unfold checked opening
    rw [ho, show staticDiagnostics source = [] from h]
    rfl
  have hl : session.listed source = session.state := by
    unfold listed listing
    rw [ho]
    rfl
  rw [run_eq, hc, hl, ho]
  rcases interpret rounds (program source) session.state with ⟨⟨⟩, st⟩ | ⟨f | m | _, st⟩ <;> rfl

/-- A run that succeeds leaves nothing on record. -/
theorem run_success_iff (ho : session.options = {}) (h : Correct source) :
    run rounds source session = .ok .success after ↔
      ∃ st, interpret rounds (program source) session.state = .ok () st ∧ after = ⟨{}, st, {}⟩ := by
  rw [run_of_correct ho h]
  constructor
  · intro hr
    rcases hi : interpret rounds (program source) session.state with ⟨⟨⟩, st⟩ | ⟨f | m | _, st⟩ <;>
      rw [hi] at hr <;> cases hr
    exact ⟨st, rfl, rfl⟩
  · rintro ⟨st, hi, rfl⟩
    rw [hi]
    rfl

/-- A joined source is interpreted as its second part, after its first part but for the flush. -/
theorem run_append_eq (ho : session.options = {}) (hl : EndsLine source) (h : Correct source)
    (hm : Correct more) {mid : State W}
    (he : executeAll rounds (program source) session.state = .ok () mid) :
    run rounds (source ++ more) session =
      mapState (moved (· + newlines source)) (ofResult (interpret rounds (program more) mid)) := by
  rw [run_of_correct ho (correct_append hl h hm), program_source_append hl h hm, interpret_append he,
    interpret_moved, ofResult_moved]

/-- A program that goes on without the flush, against one that goes on after it. -/
theorem splits_of_flush (hw : Output.FlushKeepsWriting W)
    (k rounds : Nat) (program : Declarations) (mid : State W) :
    Splits k (mapState (moved (· + k)) (ofResult (interpret rounds program mid)))
      (ofResult (interpret rounds program ⟨mid.environment, (Output.flush mid.sink).2⟩)) := by
  obtain ⟨flushed, hf⟩ : ∃ flushed : State W,
    flushed = ⟨mid.environment, (Output.flush mid.sink).2⟩ := ⟨_, rfl⟩
  have henv : mid.environment = flushed.environment := by rw [hf]
  have hwriting : Output.writing mid.sink = Output.writing flushed.sink := by rw [hf, hw mid.sink]
  rw [← hf]
  obtain ⟨hbound, hwritten⟩ := Prod.mk.inj
    (interpret_seen rounds program hw (Prod.ext henv hwriting))
  refine ⟨?_, ?_, fun hflush => ?_⟩
  · rw [leaves_mapState, state_moved, state_ofResult, state_ofResult]
    exact hbound
  · rw [leaves_mapState, state_moved, state_ofResult, state_ofResult]
    exact Output.accepted_eq hwritten
  · have hflushing : Output.flushing mid.sink = Output.flushing flushed.sink := by rw [hf, hflush mid.sink]
    obtain ⟨hv, hd⟩ := ofResult_eq (verdict_interpret_seen rounds program
      (Prod.ext henv (Prod.ext hwriting hflushing)))
    rw [verdict_mapState, leaves_mapState]
    refine ⟨hv, ?_⟩
    unfold moved
    rw [hd]

/-- What a source does after another that ends its line and succeeds. -/
theorem run_append (hw : Output.FlushKeepsWriting W)
    (ho : session.options = {}) (hl : EndsLine source) (h : Correct source)
    (hm : Correct more) (hr : run rounds source session = .ok .success after) :
    Splits (newlines source) (run rounds (source ++ more) session) (run rounds more after) := by
  obtain ⟨st, hi, rfl⟩ := (run_success_iff ho h).mp hr
  obtain ⟨mid, he, hf⟩ := flush_of_interpret_ok hi
  rw [run_append_eq ho hl h hm he, run_of_correct rfl hm, eq_of_flush_ok hf]
  exact splits_of_flush hw (newlines source) rounds (program more) mid

/-- A run that is interrupted has been interrupted by its program. -/
theorem interpret_of_run_error {interruption : Interruption} (ho : session.options = {})
    (h : Correct source) (hr : run rounds source session = .error interruption after) :
    ∃ stop st, interpret rounds (program source) session.state = .error stop st ∧
      (∀ f, stop ≠ .failure f) ∧ ofResult (.error stop st) = .error interruption after := by
  rw [run_of_correct ho h] at hr
  rcases hi : interpret rounds (program source) session.state with ⟨⟨⟩, st⟩ | ⟨f | m | _, st⟩ <;>
    rw [hi] at hr
  · simp [ofResult] at hr
  · simp [ofResult] at hr
  · exact ⟨_, st, rfl, fun f => by simp, hr⟩
  · exact ⟨_, st, rfl, fun f => by simp, hr⟩

/-- A run that is interrupted is interrupted also with another source behind it. -/
theorem run_append_of_error {interruption : Interruption} (ho : session.options = {})
    (hl : EndsLine source) (h : Correct source) (hm : Correct more)
    (hr : run rounds source session = .error interruption after) :
    run rounds (source ++ more) session = .error interruption after := by
  obtain ⟨stop, st, hi, hs, hof⟩ := interpret_of_run_error ho h hr
  rw [run_of_correct ho (correct_append hl h hm), program_source_append hl h hm,
    interpret_append_of_error _ hi fun reason => hs _, hof]

theorem run_newline (ho : session.options = {}) (h : Correct source) :
    run rounds (source ++ "\n") session = run rounds source session := by
  rw [run_of_correct ho (correct_newline h), run_of_correct ho h, program_newline h]

/-- Two sources with a newline between them are run as one after the other. -/
theorem run_append_newline (hw : Output.FlushKeepsWriting W)
    (ho : session.options = {}) (h : Correct source) (hm : Correct more)
    (hr : run rounds source session = .ok .success after) :
    Splits (1 + newlines source) (run rounds (source ++ "\n" ++ more) session)
      (run rounds more after) := by
  have hn : newlines (source ++ "\n") = 1 + newlines source := by
    rw [newlines_append, Nat.add_comm]
    rfl
  have hl : EndsLine (source ++ "\n") := ⟨source, rfl⟩
  rw [← run_newline ho h] at hr
  rw [← hn]
  exact run_append hw ho hl (correct_newline h) hm hr

end Runs

/-- Run in order, the sources all succeed and lead to the session given last. -/
def Succeeds (rounds : Nat) : List String → Session W → Session W → Prop
  | [], session, last => session = last
  | source :: rest, session, last =>
    ∃ after, run rounds source session = .ok .success after ∧ Succeeds rounds rest after last

/-- Run in order, none of the sources fails: each that is reached and ends, succeeds. -/
def Unfailing (rounds : Nat) : List String → Session W → Prop
  | [], _ => True
  | source :: rest, session => ∀ outcome next, run rounds source session = .ok outcome next →
    outcome = .success ∧ Unfailing rounds rest next

/-- Sources of which none fails all succeed, or one is interrupted after others that succeed. -/
theorem succeeds_or_interrupted {rounds : Nat} : ∀ {sources : List String} {session : Session W},
    Unfailing rounds sources session →
    (∃ after, Succeeds rounds sources session after) ∨
    ∃ before source later after interruption stopped, sources = before ++ source :: later ∧
      Succeeds rounds before session after ∧
      run rounds source after = .error interruption stopped
  | [], session, _ => .inl ⟨session, rfl⟩
  | source :: rest, session, h => by
    rcases hr : run rounds source session with ⟨outcome, next⟩ | ⟨interruption, stopped⟩
    · obtain ⟨rfl, hrest⟩ := h outcome next hr
      obtain ⟨after, hs⟩ | ⟨before, other, later, after, i, stopped, rfl, hs, he⟩ :=
        succeeds_or_interrupted hrest
      · exact .inl ⟨after, next, hr, hs⟩
      · exact .inr ⟨source :: before, other, later, after, i, stopped, rfl, ⟨next, hr, hs⟩, he⟩
    · exact .inr ⟨[], source, rest, session, interruption, stopped, rfl, rfl, hr⟩

theorem options_of_succeeds {rounds : Nat} : ∀ {sources : List String} {session after : Session W},
    session.options = {} → (∀ source ∈ sources, Correct source) →
    Succeeds rounds sources session after → after.options = {}
  | [], session, _, ho, _, hs => by
    obtain rfl : session = _ := hs
    exact ho
  | source :: rest, session, _, ho, hc, hs => by
    obtain ⟨next, hr, hs⟩ := hs
    obtain ⟨hsource, hrest⟩ := List.forall_mem_cons.mp hc
    obtain ⟨st, _, rfl⟩ := (run_success_iff ho hsource).mp hr
    exact options_of_succeeds rfl hrest hs

/-- What a source does after any number of others that end their lines and succeed. -/
theorem run_of_succeeds (hw : Output.FlushKeepsWriting W)
    {rounds : Nat} {last : String} (hc : Correct last) :
    ∀ {init : List String} {session after : Session W}, session.options = {} →
      (∀ line ∈ init, EndsLine line ∧ Correct line) → Succeeds rounds init session after →
      Splits (newlines (String.join init)) (run rounds (String.join init ++ last) session)
        (run rounds last after)
  | [], session, _, _, _, hs => by
    subst hs
    rw [String.join_nil, String.empty_append]
    exact .refl _
  | line :: rest, session, _, ho, hl, hs => by
    obtain ⟨next, hr, hs⟩ := hs
    obtain ⟨hline, hrest⟩ := List.forall_mem_cons.mp hl
    have hn : next.options = {} := by
      obtain ⟨_, _, rfl⟩ := (run_success_iff ho hline.2).mp hr
      rfl
    rw [String.join_cons, String.append_assoc, newlines_append]
    exact (run_append hw ho hline.1 hline.2 (correct_join hc hrest) hr).trans
      (run_of_succeeds hw hc hn hrest hs)

end Session

end Lox

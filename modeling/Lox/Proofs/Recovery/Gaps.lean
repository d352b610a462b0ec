/-
# Declarations left out

A declaration that cannot be read is left out of the list it stands in, with
a complaint. The list may be that of a block which is given up itself when
what stands around it cannot be read; then its gaps are lost, but one is left
where the outermost of these statements would have stood. So there are at most
as many gaps as complaints, and none exactly when there is no complaint, of
those that are not about targets of assignments. A program that is run has no gaps.

Key definitions: `Statement.gaps`, `Tally`, `Reading.Tallied`.
Key theorems: `Leaves.andThen_tallied`, `Grammar.tally_declaration`, `Grammar.tally_program`,
`gaps_are_reported`.
-/
import Lox.Proofs.Grammar.Endings
import Lox.Proofs.Recovery.Chunks
import Lox.Proofs.Runs

namespace Lox

/-! ### Gaps and complaints -/

mutual

/-- The number of declarations left out in the blocks of a statement, at any depth. -/
def Statement.gaps : Statement → Nat
  | .print _ | .evaluate _ | .declare _ _ => 0
  | .block body => Declarations.gaps body
  | .branch _ yes none => yes.gaps
  | .branch _ yes (some no) => yes.gaps + no.gaps
  | .loop _ body => body.gaps

def Declarations.gaps : Declarations → Nat
  | [] => 0
  | none :: rest => 1 + Declarations.gaps rest
  | some s :: rest => s.gaps + Declarations.gaps rest

end

/-- The gaps at one place of a list. -/
def entryGaps : Option Statement → Nat
  | none => 1
  | some s => s.gaps

theorem Declarations.gaps_cons (entry : Option Statement) (rest : Declarations) :
    Declarations.gaps (entry :: rest) = entryGaps entry + Declarations.gaps rest := by
  cases entry <;> rw [Declarations.gaps, entryGaps]

/-- The number of complaints that are not about targets of assignments. -/
def failures (cs : List Complaint) : Nat := cs.countP (·.problem.isFatal)

theorem failures_append (cs more : List Complaint) :
    failures (cs ++ more) = failures cs + failures more := List.countP_append

theorem failures_targets {cs : List Complaint} (h : OnlyTargets cs) : failures cs = 0 :=
  h.countP_eq_zero Problem.isFatal rfl

/-- There are at most as many gaps as failures, and none only if there is no failure. -/
structure Tally (gaps : Nat) (cs : List Complaint) : Prop where
  le : gaps ≤ failures cs
  none : gaps = 0 → failures cs = 0

namespace Tally

variable {gaps more : Nat} {cs ds : List Complaint}

theorem of_targets (h : OnlyTargets cs) : Tally 0 cs where
  le := Nat.zero_le _
  none _ := failures_targets h

theorem append (h : Tally gaps cs) (h' : Tally more ds) : Tally (gaps + more) (cs ++ ds) := by
  have hle := h.le
  have hle' := h'.le
  have hnone := h.none
  have hnone' := h'.none
  constructor
  · rw [failures_append]
    omega
  · rw [failures_append]
    omega

/-- Whatever was complained about before, a failure leaves one gap. -/
theorem of_failure (cs : List Complaint) {c : Complaint} (h : c.problem.isFatal = true) :
    Tally 1 (cs ++ [c]) where
  le := by
    rw [failures_append, failures, failures, List.countP_singleton, if_pos h]
    omega
  none h := absurd h Nat.one_ne_zero

end Tally

/-! ### Readings -/

namespace Reading

variable {m n : Nat} {α β : Type} {P Q : List Token → Prop}

/-- What the reading comes to has gaps as its complaints say, and it gets stuck at no target of an
assignment. -/
def Tallied (gaps : α → Nat) (r : Reading n α) : Prop :=
  r.Ends (fun v cs _ => Tally (gaps v) cs) fun p _ _ => p.isFatal = true

@[simp] theorem tallied_within (gaps : α → Nat) (h : m ≤ n) (r : Reading m α) :
    (r.within h).Tallied gaps ↔ r.Tallied gaps := ends_within h r

@[simp] theorem tallied_past (gaps : α → Nat) (r : Reading n α) :
    r.past.Tallied gaps ↔ r.Tallied gaps := ends_past r

@[simp] theorem tallied_map (gaps : β → Nat) (f : α → β) (r : Reading n α) :
    (r.map f).Tallied gaps ↔ r.Tallied fun v => gaps (f v) := ends_map f r

/-- A phrase without a block has no gaps. -/
theorem Leaves.tallied {r : Reading n α} (h : r.Leaves P Q) : r.Tallied fun _ => 0 :=
  h.ends.imp (fun _ _ _ h => .of_targets h.1) fun _ _ _ h => Problem.isFatal_of_isPlain h.2.1

/-- Gaps and complaints add up. -/
theorem Tallied.andPerhaps {r : Reading n α} {gaps : α → Nat} {total : β → Nat}
    (h : r.Tallied gaps) {next : (rest : List Token) → rest.length < n → α → Reading n β}
    (hn : ∀ rest shorter v, (next rest shorter v).Ends
      (fun w more _ => ∃ g, Tally g more ∧ total w = gaps v + g) fun p _ _ => p.isFatal = true) :
    (r.andPerhaps next).Tallied total := by
  refine Ends.andPerhaps h fun v cs rest shorter hv => (hn rest shorter v).imp ?_ fun _ _ _ h => h
  rintro w more _ ⟨g, hg, htotal⟩
  rw [htotal]
  exact hv.append hg

/-- After a phrase without a block, the value of which has no gaps, all are those of what follows. -/
theorem Leaves.andThen_tallied_of {r : Reading n α} (h : r.Leaves P Q) {gaps : α → Nat}
    (hg : r.Tallied gaps) {total : β → Nat}
    {next : (rest : List Token) → rest.length < n → α → Reading rest.length β}
    (hn : ∀ rest shorter v, gaps v = 0 → (next rest shorter v).Tallied total) :
    (r.andThen next).Tallied total := by
  cases r with
  | stuck p cs rest within => exact hg
  | done v cs rest shorter =>
    have hv : Tally (gaps v) cs := hg
    have hzero : gaps v = 0 := Nat.le_zero.mp (failures_targets h.1 ▸ hv.le)
    show (((next rest shorter v).within _).noting cs).Ends _ _
    rw [ends_noting, ends_within]
    refine (hn rest shorter v hzero).imp (fun w more _ hw => ?_) fun _ _ _ h => h
    rw [← Nat.zero_add (total w), ← hzero]
    exact hv.append hw

theorem Leaves.andThen_tallied {r : Reading n α} (h : r.Leaves P Q) {total : β → Nat}
    {next : (rest : List Token) → rest.length < n → α → Reading rest.length β}
    (hn : ∀ rest shorter v, (next rest shorter v).Tallied total) : (r.andThen next).Tallied total :=
  h.andThen_tallied_of h.tallied fun rest shorter v _ => hn rest shorter v

end Reading

namespace Grammar

/-! ### Phrases without a block -/

section Phrases

variable (input : List Token)

/-- Nothing is asked of the tokens that a phrase leaves. -/
theorem passes_true (may : Kind → Bool) : Passes may fun _ => True := fun _ _ _ _ => trivial

theorem tallied_expect (s : Symbol) {p : Problem} (hp : p.isPlain = true) :
    (expect s p input).Tallied fun _ => 0 :=
  (leaves_expect (passes_true fun _ => true) rfl hp trivial).tallied

/-- A statement that is an expression with a semicolon has no gaps. -/
theorem tallied_simple {make : Expression → Statement} (hm : ∀ e, (make e).gaps = 0) {p : Problem}
    (hp : p.isPlain = true) :
    ((expression input).andThen fun rest _ e =>
      (expect .semicolon p rest).map fun _ => make e).Tallied Statement.gaps := by
  have he := leaves_expression (passes_true Kind.inExpression) input trivial
  refine he.andThen_tallied fun rest _ e => ?_
  simp only [Reading.tallied_map, hm]
  exact tallied_expect rest .semicolon hp

theorem tallied_printStatement : (printStatement input).Tallied Statement.gaps :=
  tallied_simple input (fun e => by rw [Statement.gaps]) rfl

theorem tallied_expressionStatement : (expressionStatement input).Tallied Statement.gaps :=
  tallied_simple input (fun e => by rw [Statement.gaps]) rfl

theorem tallied_initializer (name : Token) : (initializer name input).Tallied Statement.gaps := by
  cases input with
  | nil => rfl
  | cons t after =>
    rw [initializer]
    split
    · rw [Reading.tallied_past]
      exact tallied_simple after (fun e => by rw [Statement.gaps]) rfl
    · simp only [Reading.tallied_map, Statement.gaps]
      exact tallied_expect (t :: after) .semicolon rfl

theorem tallied_variableDeclaration : (variableDeclaration input).Tallied Statement.gaps := by
  cases input with
  | nil => rfl
  | cons name after =>
    rw [variableDeclaration]
    split
    · rw [Reading.tallied_past]
      exact tallied_initializer after name
    · rfl

theorem tallied_startClause :
    (startClause input).Tallied fun start => (start.map Statement.gaps).getD 0 := by
  cases input with
  | nil => exact (Reading.tallied_map _ _ _).mpr (tallied_expressionStatement [])
  | cons t after =>
    rw [startClause]
    split
    · exact .of_targets onlyTargets_nil
    · rw [Reading.tallied_past, Reading.tallied_map]
      exact tallied_variableDeclaration after
    · rw [Reading.tallied_map]
      exact tallied_expressionStatement (t :: after)

end Phrases

/-- A `for` loop has the gaps of its parts. -/
theorem gaps_forLoop (start : Option Statement) (condition : Expression) (step : Option Expression)
    (body : Statement) :
    (forLoop start condition step body).gaps = (start.map Statement.gaps).getD 0 + body.gaps := by
  cases start <;> cases step <;> simp [forLoop, Statement.gaps, Declarations.gaps]

/-! ### Statements -/

/-- A declaration that fails is one gap. -/
theorem tally_ofReading {bound : Nat} (h : 0 < bound) {r : Reading bound Statement}
    (hr : r.Tallied Statement.gaps) :
    Tally (entryGaps (Declared.ofReading h r).entry) (Declared.ofReading h r).complaints := by
  cases r with
  | done s cs rest shorter => exact hr
  | stuck p cs rest within => exact .of_failure cs hr

mutual

theorem tally_declaration (t : Token) (after : List Token) :
    Tally (entryGaps (declaration t after).entry) (declaration t after).complaints := by
  rw [declaration_eq]
  apply tally_ofReading
  rw [phrase]
  split
  · rw [Reading.tallied_past]
    exact tallied_variableDeclaration after
  · exact tallied_statement (t :: after)
termination_by (after.length + 1, 1)

theorem tallied_statement (input : List Token) : (statement input).Tallied Statement.gaps := by
  cases input with
  | nil =>
    rw [statement]
    exact tallied_expressionStatement []
  | cons t after =>
    rw [statement]
    split
    · rw [Reading.tallied_past]
      exact tallied_ifStatement after
    · rw [Reading.tallied_past]
      exact tallied_printStatement after
    · simp only [Reading.tallied_past, Reading.tallied_map, Statement.gaps]
      exact tallied_block after
    · rw [Reading.tallied_past]
      exact tallied_whileStatement after
    · rw [Reading.tallied_past]
      exact tallied_forStatement after
    · exact tallied_expressionStatement (t :: after)
termination_by (input.length, 0)

theorem tallied_block (input : List Token) : (block input).Tallied Declarations.gaps := by
  cases input with
  | nil =>
    rw [block]
    rfl
  | cons t after =>
    rw [block]
    split
    · exact .of_targets onlyTargets_nil
    · have hd := tally_declaration t after
      have hlt := (declaration t after).shorter
      have hb := tallied_block (declaration t after).rest
      rw [Reading.tallied_within]
      refine (Reading.ends_noting _ _).mpr ((Reading.ends_map _ _).mpr (hb.imp ?_ fun _ _ _ h => h))
      intro body cs rest hbody
      rw [Declarations.gaps_cons]
      exact hd.append hbody
termination_by (input.length, 2)

theorem tallied_ifStatement (input : List Token) :
    (ifStatement input).Tallied Statement.gaps := by
  rw [ifStatement]
  apply Reading.Leaves.andThen_tallied
    (leaves_expect (passes_true fun _ => true) rfl rfl trivial)
  intro rest h1 _
  apply Reading.Leaves.andThen_tallied
    (leaves_expression (passes_true Kind.inExpression) rest trivial)
  intro rest h2 condition
  apply Reading.Leaves.andThen_tallied
    (leaves_expect (passes_true fun _ => true) rfl rfl trivial)
  intro rest h3 _
  apply Reading.Tallied.andPerhaps (tallied_statement rest)
  intro rest h4 yes
  cases rest with
  | nil => exact ⟨0, .of_targets onlyTargets_nil, by rw [Statement.gaps, Nat.add_zero]⟩
  | cons t after =>
    show Reading.Ends _ _ (if t.kind = .symbol .elseWord then _ else _)
    split
    · rw [Reading.ends_within, Reading.ends_map]
      refine (tallied_statement after).imp ?_ fun _ _ _ h => h
      intro no cs rest hno
      exact ⟨no.gaps, hno, by rw [Statement.gaps]⟩
    · exact ⟨0, .of_targets onlyTargets_nil, by rw [Statement.gaps, Nat.add_zero]⟩
termination_by (input.length, 0)
decreasing_by all_goals exact Prod.Lex.left _ _ (by grind)

theorem tallied_whileStatement (input : List Token) :
    (whileStatement input).Tallied Statement.gaps := by
  rw [whileStatement]
  apply Reading.Leaves.andThen_tallied
    (leaves_expect (passes_true fun _ => true) rfl rfl trivial)
  intro rest h1 _
  apply Reading.Leaves.andThen_tallied
    (leaves_expression (passes_true Kind.inExpression) rest trivial)
  intro rest h2 condition
  apply Reading.Leaves.andThen_tallied
    (leaves_expect (passes_true fun _ => true) rfl rfl trivial)
  intro rest h3 _
  simp only [Reading.tallied_map, Statement.gaps]
  exact tallied_statement rest
termination_by (input.length, 0)

theorem tallied_forStatement (input : List Token) :
    (forStatement input).Tallied Statement.gaps := by
  rw [forStatement]
  apply Reading.Leaves.andThen_tallied
    (leaves_expect (passes_true fun _ => true) rfl rfl trivial)
  intro rest h1 _
  apply Reading.Leaves.andThen_tallied_of
    (leaves_startClause (passes_true (!·.isBrace)) trivial) (tallied_startClause rest)
  intro rest h2 start hstart
  apply Reading.Leaves.andThen_tallied
    (leaves_conditionClause (passes_true (!·.isBrace)) trivial)
  intro rest h3 condition
  apply Reading.Leaves.andThen_tallied
    (leaves_stepClause (passes_true (!·.isBrace)) trivial)
  intro rest h4 step
  simp only [Reading.tallied_map, gaps_forLoop, hstart, Nat.zero_add]
  exact tallied_statement rest
termination_by (input.length, 0)

end

/-- The gaps of a program are as its complaints say. -/
theorem tally_program (input : List Token) :
    Tally (Declarations.gaps (program input).1) (program input).2 := by
  cases input with
  | nil =>
    rw [program]
    exact .of_targets onlyTargets_nil
  | cons t after =>
    have hlt := (declaration t after).shorter
    rw [program_cons, Declarations.gaps_cons]
    exact (tally_declaration t after).append (tally_program (declaration t after).rest)
termination_by input.length

end Grammar

/-! ### Diagnostics -/

/-- Whether the diagnostic is about something else than the target of an assignment. -/
def Diagnostic.isFailure (d : Diagnostic) : Bool := d.problem ≠ "Invalid assignment target."

theorem Complaint.isFailure_diagnostic (c : Complaint) (endLine : Nat) :
    (c.diagnostic endLine).isFailure = c.problem.isFatal := by
  rw [Diagnostic.isFailure, c.problem_diagnostic]
  cases hp : c.problem.isFatal with
  | true =>
    have hne := (Problem.isFatal_iff c.problem).mp hp
    exact decide_eq_true (Problem.message_ne_target hne)
  | false =>
    have he : c.problem = .assignmentTarget := by
      by_contra hne
      rw [(Problem.isFatal_iff c.problem).mpr hne] at hp
      cases hp
    rw [he]
    decide

/-- The diagnostics of failures are those of the failures among the complaints. -/
theorem Parse.countP_diagnostics (p : Parse) :
    p.diagnostics.countP Diagnostic.isFailure = failures p.complaints := by
  rw [diagnostics, failures, List.countP_map]
  exact List.countP_congr fun c _ => by
    rw [Function.comp_apply, Complaint.isFailure_diagnostic]

theorem tally_parse (tokens : List Token) :
    Tally (Declarations.gaps (parse tokens).declarations) (parse tokens).complaints :=
  Grammar.tally_program (tokens.takeWhile (!·.isEnd))

theorem gaps_eq_zero_of_clean {tokens : List Token} (h : (parse tokens).diagnostics = []) :
    Declarations.gaps (parse tokens).declarations = 0 := by
  have hle := (tally_parse tokens).le
  rw [← Parse.countP_diagnostics, h] at hle
  exact Nat.le_zero.mp hle

/-- A source that is not refused has no diagnostics. -/
theorem Session.diagnostics_eq_nil {W : Type} {session : Session W} {source : String}
    (h : (session.checked source).hadError = false) :
    (parse (scan source).tokens).diagnostics = [] := by
  rw [checked, Diagnostics.hadError_recordAll, Bool.or_eq_false_iff, List.any_eq_false] at h
  refine List.eq_nil_iff_forall_not_mem.mpr fun d hd => ?_
  refine h.2 d (List.mem_append_right _ hd) ?_
  obtain ⟨c, -, rfl⟩ := List.mem_map.mp hd
  unfold Complaint.diagnostic
  split <;> rfl

/-- **A failed declaration is never silent and never invented.** There is a gap at some depth exactly
when there is a diagnostic that is not about the target of an assignment, and there are at most as
many gaps as such diagnostics. Without any diagnostic nothing is left out, and nothing is left out of
a program that is executed. -/
theorem gaps_are_reported (tokens : List Token) :
    (Declarations.gaps (parse tokens).declarations ≠ 0 ↔
      ∃ d ∈ (parse tokens).diagnostics, d.problem ≠ "Invalid assignment target.") ∧
    Declarations.gaps (parse tokens).declarations ≤
      ((parse tokens).diagnostics.filter (·.problem ≠ "Invalid assignment target.")).length ∧
    ((parse tokens).diagnostics = [] → Declarations.gaps (parse tokens).declarations = 0) ∧
    ∀ (W : Type) [Output W] (rounds : Nat) (source : String) (session : Session W),
      (∀ next, Session.run rounds source session ≠ .ok .staticError next) →
      Declarations.gaps (parse (scan source).tokens).declarations = 0 := by
  obtain ⟨hle, hnone⟩ := tally_parse tokens
  have hcount := (parse tokens).countP_diagnostics
  have hlength : ((parse tokens).diagnostics.filter (·.problem ≠ "Invalid assignment target.")).length =
      failures (parse tokens).complaints := by
    rw [← hcount, List.countP_eq_length_filter]
    rfl
  refine ⟨⟨fun hgaps => ?_, ?_⟩, by omega, gaps_eq_zero_of_clean, ?_⟩
  · have hpos : 0 < (parse tokens).diagnostics.countP Diagnostic.isFailure := by omega
    obtain ⟨d, hd, hfailure⟩ := List.countP_pos_iff.mp hpos
    exact ⟨d, hd, of_decide_eq_true hfailure⟩
  · rintro ⟨d, hd, hproblem⟩
    have hpos : 0 < (parse tokens).diagnostics.countP Diagnostic.isFailure :=
      List.countP_pos_iff.mpr ⟨d, hd, decide_eq_true hproblem⟩
    omega
  · intro W _ rounds source session hrun
    by_cases he : (session.checked source).hadError = true
    · exact absurd (Session.run_of_static he) (hrun _)
    · exact gaps_eq_zero_of_clean (Session.diagnostics_eq_nil (eq_false_of_ne_true he))

/-- Of `{ ;` two declarations fail, but the block that has the inner gap is given up. -/
example :
    let read := parse [⟨.symbol .leftBrace, "\x7b", 1⟩, ⟨.symbol .semicolon, ";", 1⟩, ⟨.endOfInput, "", 1⟩]
    Declarations.gaps read.declarations = 1 ∧ read.diagnostics.length = 2 := by
  cbv

end Lox

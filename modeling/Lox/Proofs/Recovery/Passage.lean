/-
# From one place to another

Reading goes from one place to a later one by steps: it takes a token, it
complains about the target of an assignment whose `=` it has taken before, or
it complains about a failed declaration and recovers. What relates the two
places and the complaints in between, and holds of each such step and of one
reading after another, holds of every phrase, of every declaration and of a
whole program.

Key definitions: `Stepwise`, `Reading.Relates`.
Key theorems: `Reading.Relates.andPerhaps`, `Grammar.relates_expression`,
`Grammar.relates_statement`, `Grammar.relates_program`.
-/
import Lox.Proofs.Recovery.Attempts

namespace Lox

/-- What reading is given, what it complains about and what it leaves are related as `R` says after
every step, and so after any number of them. -/
structure Stepwise (R : List Token → List Complaint → List Token → Prop) : Prop where
  nothing : ∀ input, R input [] input
  token : ∀ t rest, R (t :: rest) [] rest
  trans : ∀ {input cs mid more rest}, R input cs mid → R mid more rest → R input (cs ++ more) rest
  /-- The complaint about a target comes after the value has been read. -/
  target : ∀ {t after cs rest}, t.kind = .symbol .equal → R after cs rest →
    R (t :: after) (cs ++ [⟨some t, .assignmentTarget⟩]) rest
  failure : ∀ {p : Problem} (rest : List Token), p.isFatal = true →
    R rest [⟨rest.head?, p⟩] (Grammar.recover rest)

variable {R : List Token → List Complaint → List Token → Prop}

theorem Stepwise.later (hR : Stepwise R) (t : Token) {input rest : List Token} {cs : List Complaint}
    (h : R input cs rest) : R (t :: input) cs rest := hR.trans (hR.token t input) h

namespace Reading

variable {m n : Nat} {α β : Type} {input : List Token}

/-- The reading of `input` is related by `R` to what it leaves, whether it comes to its value or
gets stuck. It does not get stuck at the target of an assignment. -/
def Relates (R : List Token → List Complaint → List Token → Prop) (input : List Token)
    (r : Reading n α) : Prop :=
  r.Ends (fun _ cs rest => R input cs rest) (fun p cs rest => R input cs rest ∧ p.isFatal = true)

@[simp] theorem relates_within (h : m ≤ n) (r : Reading m α) :
    (r.within h).Relates R input ↔ r.Relates R input := ends_within h r

@[simp] theorem relates_past (r : Reading n α) : r.past.Relates R input ↔ r.Relates R input :=
  ends_past r

@[simp] theorem relates_map (f : α → β) (r : Reading n α) :
    (r.map f).Relates R input ↔ r.Relates R input := ends_map f r

section Steps

variable (hR : Stepwise R)
include hR

theorem relates_done (value : α) (input : List Token) (shorter : input.length < n) :
    (done value [] input shorter).Relates R input := hR.nothing input

theorem relates_one (value : α) (t : Token) (after : List Token) :
    (one value after).Relates R (t :: after) := hR.token t after

theorem relates_stop {p : Problem} (hp : p.isFatal = true) (input : List Token) :
    (stop p input : Reading _ α).Relates R input := ⟨hR.nothing input, hp⟩

theorem Relates.later {r : Reading n α} (h : r.Relates R input) (t : Token) :
    r.Relates R (t :: input) :=
  h.imp (fun _ _ _ h => hR.later t h) fun _ _ _ h => ⟨hR.later t h.1, h.2⟩

theorem Relates.noting {mid : List Token} {cs : List Complaint} (h : R input cs mid)
    {r : Reading n α} (hr : r.Relates R mid) : (r.noting cs).Relates R input :=
  (ends_noting cs r).mpr
    (hr.imp (fun _ _ _ hr => hR.trans h hr) fun _ _ _ hr => ⟨hR.trans h hr.1, hr.2⟩)

theorem Relates.andPerhaps {r : Reading n α} (h : r.Relates R input)
    {next : (rest : List Token) → rest.length < n → α → Reading n β}
    (hn : ∀ rest shorter v, (next rest shorter v).Relates R rest) :
    (r.andPerhaps next).Relates R input := by
  cases r with
  | done v cs rest s => exact (hn rest s v).noting hR h
  | stuck p cs rest w => exact h

theorem Relates.andThen {r : Reading n α} (h : r.Relates R input)
    {next : (rest : List Token) → rest.length < n → α → Reading rest.length β}
    (hn : ∀ rest shorter v, (next rest shorter v).Relates R rest) :
    (r.andThen next).Relates R input :=
  h.andPerhaps hR fun rest s v => (relates_within _ _).mpr (hn rest s v)

end Steps
end Reading

namespace Grammar

section Phrases

variable (hR : Stepwise R)
include hR

theorem relates_expect (s : Symbol) {p : Problem} (hp : p.isFatal = true) (input : List Token) :
    (expect s p input).Relates R input := by
  cases input with
  | nil => exact Reading.relates_stop hR hp []
  | cons t rest =>
    rw [expect]
    split
    · exact Reading.relates_one hR t t rest
    · exact Reading.relates_stop hR hp (t :: rest)

theorem relates_assignment {t : Token} (ht : t.kind = .symbol .equal) {after rest : List Token}
    {cs : List Complaint} (h : R after cs rest) (target value : Expression) :
    R (t :: after) (cs ++ (assignment target t value).2) rest := by
  cases target with
  | name token =>
    show R (t :: after) (cs ++ []) rest
    rw [List.append_nil]
    exact hR.later t h
  | _ => exact hR.target ht h

mutual

theorem relates_expression (input : List Token) : (expression input).Relates R input := by
  rw [expression]
  apply (relates_operation Level.ladder input).andPerhaps hR
  intro rest shorter target
  cases rest with
  | nil => exact Reading.relates_done hR target [] _
  | cons t after =>
    show Reading.Relates R _ (if t.kind = .symbol .equal then _ else _)
    split
    · rename_i ht
      rw [Reading.relates_within]
      -- the complaints about the value stand before that about the target
      have hvalue : (expression after).Ends (fun _ cs rest => R after cs rest)
          (fun p cs rest => R (t :: after) cs rest ∧ p.isFatal = true) :=
        (relates_expression after).imp (fun _ _ _ h => h) fun _ _ _ h => ⟨hR.later t h.1, h.2⟩
      exact hvalue.andPerhaps fun value cs rest _ h => relates_assignment hR ht h target value
    · exact Reading.relates_done hR target (t :: after) _
termination_by (input.length, Level.ladder.length + 2)
decreasing_by
  · exact Prod.Lex.right _ (Nat.lt_succ_self _)
  · exact Prod.Lex.left _ _ (by grind)

theorem relates_operation (levels : List Level) (input : List Token) :
    (operation levels input).Relates R input := by
  cases levels with
  | nil =>
    rw [operation]
    exact relates_operand input
  | cons level tighter =>
    rw [operation]
    apply (relates_operation tighter input).andPerhaps hR
    intro rest shorter left
    exact relates_operations level tighter left rest shorter
termination_by (input.length, levels.length + 1)

theorem relates_operations (level : Level) (tighter : List Level) (left : Expression) {bound : Nat} :
    ∀ (input : List Token) (shorter : input.length < bound),
      (operations level tighter left input shorter).Relates R input
  | [], _ => by
    rw [operations]
    exact Reading.relates_done hR left [] _
  | t :: after, _ => by
    rw [operations]
    split
    · rw [Reading.relates_within]
      apply Reading.Relates.later hR
      apply (relates_operation tighter after).andPerhaps hR
      intro rest shorter right
      exact relates_operations level tighter (level.join left t right) rest shorter
    · exact Reading.relates_done hR left (t :: after) _
termination_by input => (input.length, 0)

theorem relates_operand (input : List Token) : (operand input).Relates R input := by
  cases input with
  | nil =>
    rw [operand]
    exact Reading.relates_stop hR rfl []
  | cons t after =>
    rw [operand]
    split
    · rw [Reading.relates_past, Reading.relates_map]
      exact (relates_operand after).later hR t
    · split
      · exact Reading.relates_one hR _ t after
      · rw [Reading.relates_past]
        apply Reading.Relates.later hR
        apply (relates_expression after).andThen hR
        intro rest shorter inner
        rw [Reading.relates_map]
        exact relates_expect hR .rightParen rfl rest
      · split
        · exact Reading.relates_one hR _ t after
        · exact Reading.relates_stop hR rfl (t :: after)
termination_by (input.length, 0)

end

/-- An expression with a symbol after it. -/
theorem relates_closed {α : Type} (make : Expression → α) (s : Symbol) {p : Problem}
    (hp : p.isFatal = true) (input : List Token) :
    ((expression input).andThen fun rest _ e =>
      (expect s p rest).map fun _ => make e).Relates R input := by
  apply (relates_expression hR input).andThen hR
  intro rest _ e
  rw [Reading.relates_map]
  exact relates_expect hR s hp rest

theorem relates_initializer (name : Token) (input : List Token) :
    (initializer name input).Relates R input := by
  cases input with
  | nil => exact Reading.relates_stop hR rfl []
  | cons t after =>
    rw [initializer]
    split
    · rw [Reading.relates_past]
      exact (relates_closed hR (fun e => Statement.declare name (some e)) .semicolon rfl after).later
        hR t
    · rw [Reading.relates_map]
      exact relates_expect hR .semicolon rfl (t :: after)

theorem relates_variableDeclaration (input : List Token) :
    (variableDeclaration input).Relates R input := by
  cases input with
  | nil => exact Reading.relates_stop hR rfl []
  | cons name after =>
    rw [variableDeclaration]
    split
    · rw [Reading.relates_past]
      exact (relates_initializer hR name after).later hR name
    · exact Reading.relates_stop hR rfl (name :: after)

theorem relates_printStatement (input : List Token) : (printStatement input).Relates R input := by
  rw [printStatement]
  exact relates_closed hR Statement.print .semicolon rfl input

theorem relates_expressionStatement (input : List Token) :
    (expressionStatement input).Relates R input := by
  rw [expressionStatement]
  exact relates_closed hR Statement.evaluate .semicolon rfl input

theorem relates_startClause (input : List Token) : (startClause input).Relates R input := by
  have hsimple := relates_expressionStatement hR input
  cases input with
  | nil => exact (Reading.relates_map _ _).mpr hsimple
  | cons t after =>
    rw [startClause]
    split
    · exact Reading.relates_one hR none t after
    · rw [Reading.relates_past, Reading.relates_map]
      exact (relates_variableDeclaration hR after).later hR t
    · exact (Reading.relates_map _ _).mpr hsimple

theorem relates_conditionClause (input : List Token) : (conditionClause input).Relates R input := by
  have hcondition : (loopCondition input).Relates R input :=
    relates_closed hR (fun e => e) .semicolon rfl input
  cases input with
  | nil => exact hcondition
  | cons t after =>
    rw [conditionClause]
    split
    · exact Reading.relates_one hR _ t after
    · exact hcondition

theorem relates_stepClause (input : List Token) : (stepClause input).Relates R input := by
  have hstep : ((loopStep input).map some).Relates R input :=
    (Reading.relates_map _ _).mpr (relates_closed hR (fun e => e) .rightParen rfl input)
  cases input with
  | nil => exact hstep
  | cons t after =>
    rw [stepClause]
    split
    · exact Reading.relates_one hR none t after
    · exact hstep

/-! ### Statements and declarations -/

/-- A failed declaration is complained about and recovered from. -/
theorem relates_ofReading {input : List Token} {bound : Nat} (hb : 0 < bound)
    {r : Reading bound Statement} (h : r.Relates R input) :
    R input (Declared.ofReading hb r).complaints (Declared.ofReading hb r).rest := by
  cases r with
  | done s cs rest shorter => exact h
  | stuck p cs rest within => exact hR.trans h.1 (hR.failure rest h.2)

mutual

theorem relates_declaration (t : Token) (after : List Token) :
    R (t :: after) (declaration t after).complaints (declaration t after).rest := by
  rw [declaration_eq]
  apply relates_ofReading hR
  rw [phrase]
  split
  · rw [Reading.relates_past]
    exact (relates_variableDeclaration hR after).later hR t
  · exact relates_statement (t :: after)
termination_by (after.length + 1, 1)

theorem relates_statement (input : List Token) : (statement input).Relates R input := by
  have hsimple := relates_expressionStatement hR input
  cases input with
  | nil =>
    rw [statement]
    exact hsimple
  | cons t after =>
    rw [statement]
    split
    · exact (Reading.relates_past _).mpr ((relates_if after).later hR t)
    · exact (Reading.relates_past _).mpr ((relates_printStatement hR after).later hR t)
    · rw [Reading.relates_past, Reading.relates_map]
      exact (relates_block after).later hR t
    · exact (Reading.relates_past _).mpr ((relates_while after).later hR t)
    · exact (Reading.relates_past _).mpr ((relates_for after).later hR t)
    · exact hsimple
termination_by (input.length, 0)

theorem relates_block (input : List Token) : (block input).Relates R input := by
  cases input with
  | nil =>
    rw [block]
    exact Reading.relates_stop hR rfl []
  | cons t after =>
    rw [block]
    split
    · exact Reading.relates_one hR [] t after
    · have hd := relates_declaration t after
      have hlt := (declaration t after).shorter
      have hb := relates_block (declaration t after).rest
      rw [Reading.relates_within]
      exact ((Reading.relates_map _ _).mpr hb).noting hR hd
termination_by (input.length, 2)

theorem relates_if (input : List Token) : (ifStatement input).Relates R input := by
  rw [ifStatement]
  apply (relates_expect hR .leftParen rfl input).andThen hR
  intro rest h1 _
  apply (relates_expression hR rest).andThen hR
  intro rest h2 condition
  apply (relates_expect hR .rightParen rfl rest).andThen hR
  intro rest h3 _
  apply (relates_statement rest).andPerhaps hR
  intro rest h4 yes
  cases rest with
  | nil => exact Reading.relates_done hR _ [] _
  | cons t after =>
    show Reading.Relates R _ (if t.kind = .symbol .elseWord then _ else _)
    split
    · rw [Reading.relates_within, Reading.relates_map]
      exact (relates_statement after).later hR t
    · exact Reading.relates_done hR _ (t :: after) _
termination_by (input.length, 0)
decreasing_by all_goals exact Prod.Lex.left _ _ (by grind)

theorem relates_while (input : List Token) : (whileStatement input).Relates R input := by
  rw [whileStatement]
  apply (relates_expect hR .leftParen rfl input).andThen hR
  intro rest h1 _
  apply (relates_expression hR rest).andThen hR
  intro rest h2 condition
  apply (relates_expect hR .rightParen rfl rest).andThen hR
  intro rest h3 _
  rw [Reading.relates_map]
  exact relates_statement rest
termination_by (input.length, 0)

theorem relates_for (input : List Token) : (forStatement input).Relates R input := by
  rw [forStatement]
  apply (relates_expect hR .leftParen rfl input).andThen hR
  intro rest h1 _
  apply (relates_startClause hR rest).andThen hR
  intro rest h2 start
  apply (relates_conditionClause hR rest).andThen hR
  intro rest h3 condition
  apply (relates_stepClause hR rest).andThen hR
  intro rest h4 step
  rw [Reading.relates_map]
  exact relates_statement rest
termination_by (input.length, 0)

end

/-- Reading a program comes from its first token to its end by steps. -/
theorem relates_program (input : List Token) : R input (program input).2 [] := by
  cases input with
  | nil =>
    rw [program]
    exact hR.nothing []
  | cons t after =>
    have hlt := (declaration t after).shorter
    rw [program_cons]
    exact hR.trans (relates_declaration hR t after) (relates_program (declaration t after).rest)
termination_by input.length

end Phrases

end Grammar
end Lox

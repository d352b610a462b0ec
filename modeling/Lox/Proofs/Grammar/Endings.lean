/-
# How readings end

What is said of both ends of a reading, of the value it comes to and of the
problem it gets stuck at, is put together from what is said of its parts. An
expression takes only tokens of expressions, and a statement without a block
takes no brace; so what stays true of a list when such a token is taken from
it is true of what the phrase leaves, and it complains about nothing but
targets of assignments.

Key definitions: `Reading.Ends`, `Reading.Leaves`, `Passes`, `PassesOn`, `Grammar.phrase`.
Key theorems: `Reading.Ends.andPerhaps`, `Reading.leaves_andPerhaps`, `Grammar.leaves_expression`,
`Grammar.leaves_variableDeclaration`, `Grammar.leaves_startClause`.
-/
import Lox.Grammar.Program

namespace Lox

/-! ### Problems -/

/-- What can be wrong where a reading gets stuck. -/
def Problem.isFatal : Problem → Bool
  | .assignmentTarget => false
  | _ => true

/-- What can be wrong where a phrase without a block gets stuck. -/
def Problem.isPlain : Problem → Bool
  | .assignmentTarget | .braceAfterBlock => false
  | _ => true

theorem Problem.isFatal_of_isPlain {p : Problem} (h : p.isPlain = true) : p.isFatal = true := by
  cases p <;> first | rfl | cases h

theorem Problem.ne_brace_of_isPlain {p : Problem} (h : p.isPlain = true) : p ≠ .braceAfterBlock := by
  rintro rfl
  cases h

theorem Problem.isFatal_iff (p : Problem) : p.isFatal = true ↔ p ≠ .assignmentTarget := by
  cases p <;> decide

/-- All the complaints are about targets of assignments. -/
def OnlyTargets (cs : List Complaint) : Prop := ∀ c ∈ cs, c.problem = .assignmentTarget

theorem onlyTargets_nil : OnlyTargets [] := List.forall_mem_nil _

theorem OnlyTargets.append {cs more : List Complaint} (h : OnlyTargets cs) (hm : OnlyTargets more) :
    OnlyTargets (cs ++ more) := List.forall_mem_append.mpr ⟨h, hm⟩

/-- Among such complaints there are none of another kind. -/
theorem OnlyTargets.countP_eq_zero {cs : List Complaint} (h : OnlyTargets cs) (p : Problem → Bool)
    (hp : p .assignmentTarget = false) : cs.countP (fun c => p c.problem) = 0 := by
  refine List.countP_eq_zero.mpr fun c hc => ?_
  rw [h c hc, hp]
  decide

namespace Reading

variable {m n : Nat} {α β : Type}

/-! ### Both ends of a reading -/

section Ends

variable {D D' : α → List Complaint → List Token → Prop} {F : β → List Complaint → List Token → Prop}
  {S S' : Problem → List Complaint → List Token → Prop}

/-- The reading comes to its value as `D` says or gets stuck as `S` says. -/
def Ends (D : α → List Complaint → List Token → Prop)
    (S : Problem → List Complaint → List Token → Prop) : Reading n α → Prop
  | done value cs rest _ => D value cs rest
  | stuck p cs rest _ => S p cs rest

@[simp] theorem ends_within (h : m ≤ n) (r : Reading m α) : (r.within h).Ends D S ↔ r.Ends D S := by
  cases r <;> rfl

@[simp] theorem ends_past (r : Reading n α) : r.past.Ends D S ↔ r.Ends D S := ends_within _ r

@[simp] theorem ends_map (f : α → β) (r : Reading n α) :
    (r.map f).Ends F S ↔ r.Ends (fun v => F (f v)) S := by
  cases r <;> rfl

@[simp] theorem ends_noting (before : List Complaint) (r : Reading n α) :
    (r.noting before).Ends D S ↔
      r.Ends (fun v cs => D v (before ++ cs)) (fun p cs => S p (before ++ cs)) := by
  cases r <;> rfl

theorem Ends.imp {r : Reading n α} (h : r.Ends D S)
    (hd : ∀ v cs rest, D v cs rest → D' v cs rest)
    (hs : ∀ p cs rest, S p cs rest → S' p cs rest) : r.Ends D' S' := by
  cases r with
  | done v cs rest s => exact hd v cs rest h
  | stuck p cs rest w => exact hs p cs rest h

/-- What follows a phrase ends with the complaints of both. -/
theorem Ends.andPerhaps {r : Reading n α}
    {next : (rest : List Token) → rest.length < n → α → Reading n β} (h : r.Ends D S)
    (hn : ∀ v cs rest shorter, D v cs rest →
      (next rest shorter v).Ends (fun w more => F w (cs ++ more)) (fun p more => S p (cs ++ more))) :
    (r.andPerhaps next).Ends F S := by
  cases r with
  | done v cs rest s => exact (ends_noting cs _).mpr (hn v cs rest s h)
  | stuck p cs rest w => exact h

end Ends

/-! ### What readings leave -/

section Leaves

variable {P P' Q : List Token → Prop}

/-- What is left is as `P` says when the reading comes to its value, and as `Q` says when it gets
stuck. There are no complaints but about targets of assignments, and it gets stuck neither at one
of these nor at the end of a block. -/
def Leaves (P Q : List Token → Prop) : Reading n α → Prop
  | done _ cs rest _ => OnlyTargets cs ∧ P rest
  | stuck p cs rest _ => OnlyTargets cs ∧ p.isPlain = true ∧ Q rest

theorem Leaves.ends {r : Reading n α} (h : r.Leaves P Q) :
    r.Ends (fun _ cs rest => OnlyTargets cs ∧ P rest)
      (fun p cs rest => OnlyTargets cs ∧ p.isPlain = true ∧ Q rest) := by
  cases r <;> exact h

theorem leaves_within (h : m ≤ n) {r : Reading m α} (hr : r.Leaves P Q) :
    (r.within h).Leaves P Q := by
  cases r with
  | done value cs rest s => exact hr
  | stuck p cs rest w => exact hr

theorem leaves_map (f : α → β) {r : Reading n α} (hr : r.Leaves P Q) : (r.map f).Leaves P Q := by
  cases r with
  | done value cs rest s => exact hr
  | stuck p cs rest w => exact hr

theorem leaves_noting {before : List Complaint} (hb : OnlyTargets before) {r : Reading n α}
    (hr : r.Leaves P Q) : (r.noting before).Leaves P Q := by
  cases r with
  | done value cs rest s => exact ⟨hb.append hr.1, hr.2⟩
  | stuck p cs rest w => exact ⟨hb.append hr.1, hr.2⟩

/-- What follows a phrase is read from what the phrase leaves. -/
theorem leaves_andPerhaps {r : Reading n α}
    {next : (rest : List Token) → rest.length < n → α → Reading n β} (hr : r.Leaves P' Q)
    (hn : ∀ rest shorter v, P' rest → (next rest shorter v).Leaves P Q) :
    (r.andPerhaps next).Leaves P Q := by
  cases r with
  | done value cs rest s => exact leaves_noting hr.1 (hn rest s value hr.2)
  | stuck p cs rest w => exact hr

theorem leaves_andThen {r : Reading n α}
    {next : (rest : List Token) → rest.length < n → α → Reading rest.length β} (hr : r.Leaves P' Q)
    (hn : ∀ rest shorter v, P' rest → (next rest shorter v).Leaves P Q) :
    (r.andThen next).Leaves P Q :=
  leaves_andPerhaps hr fun rest s v h => leaves_within _ (hn rest s v h)

theorem leaves_done {cs : List Complaint} (hc : OnlyTargets cs) {rest : List Token} (h : P rest)
    (value : α) (shorter : rest.length < n) : (done value cs rest shorter).Leaves P Q := ⟨hc, h⟩

theorem leaves_one {after : List Token} (h : P after) (value : α) : (one value after).Leaves P Q :=
  leaves_done onlyTargets_nil h value _

theorem leaves_stop {problem : Problem} (hp : problem.isPlain = true) {input : List Token}
    (h : Q input) : (stop problem input : Reading _ α).Leaves P Q := ⟨onlyTargets_nil, hp, h⟩

end Leaves
end Reading

/-! ### Tokens that may be taken -/

/-- The symbols that an expression can have in it. -/
def Symbol.inExpression : Symbol → Bool
  | .leftParen | .rightParen | .minus | .plus | .slash | .star
  | .bang | .bangEqual | .equal | .equalEqual | .greater | .greaterEqual | .less | .lessEqual
  | .andWord | .orWord | .falseWord | .nilWord | .trueWord => true
  | _ => false

def Kind.inExpression : Kind → Bool
  | .symbol s => s.inExpression
  | .identifier _ | .string _ | .number _ => true
  | .endOfInput => false

def Kind.isBrace : Kind → Bool
  | .symbol .leftBrace | .symbol .rightBrace => true
  | _ => false

/-- `P` stays true of a list when a token that may be taken is taken from it. -/
def Passes (may : Kind → Bool) (P : List Token → Prop) : Prop :=
  ∀ t rest, may t.kind = true → P (t :: rest) → P rest

theorem Passes.mono {may may' : Kind → Bool} {P : List Token → Prop} (h : Passes may P)
    (hk : ∀ k, may' k = true → may k = true) : Passes may' P :=
  fun t rest ht hp => h t rest (hk t.kind ht) hp

theorem Kind.isBrace_of_inExpression {k : Kind} (h : k.inExpression = true) : k.isBrace = false := by
  cases k with
  | symbol s => cases s <;> first | rfl | cases h
  | _ => rfl

theorem Level.inExpression_of_owns {level : Level} {t : Token} (h : level.owns t = true) :
    t.kind.inExpression = true := by
  unfold owns at h
  split at h
  · rename_i s hk
    rw [hk]
    have hs : ∀ s ∈ level.symbols, s.inExpression = true := by cases level <;> decide
    exact hs s (List.contains_iff_mem.mp h)
  · cases h

theorem Token.inExpression_of_isSign {t : Token} (h : t.isSign = true) :
    t.kind.inExpression = true := by
  have hk : t.kind = .symbol .bang ∨ t.kind = .symbol .minus := by simpa [isSign] using h
  rcases hk with hk | hk <;> rw [hk] <;> rfl

theorem Kind.inExpression_of_literal? {k : Kind} {v : Value} (h : k.literal? = some v) :
    k.inExpression = true := by
  unfold literal? at h
  split at h <;> first | rfl | cases h

variable {P : List Token → Prop}

theorem leaves_expect {may : Kind → Bool} (hP : Passes may P) {s : Symbol}
    (hs : may (.symbol s) = true) {p : Problem} (hp : p.isPlain = true) {input : List Token}
    (h : P input) : (expect s p input).Leaves P P := by
  cases input with
  | nil => exact Reading.leaves_stop hp h
  | cons t rest =>
    rw [expect]
    by_cases ht : t.kind = .symbol s
    · rw [if_pos ht]
      exact Reading.leaves_one (hP t rest (by rw [ht]; exact hs) h) t
    · rw [if_neg ht]
      exact Reading.leaves_stop hp h

namespace Grammar

/-! ### Expressions -/

theorem targets_assignment (target : Expression) (equals : Token) (value : Expression) :
    OnlyTargets (assignment target equals value).2 := by
  cases target <;> simp [assignment, OnlyTargets]

mutual

/-- An expression takes only tokens of expressions. -/
theorem leaves_expression (hP : Passes Kind.inExpression P) (input : List Token) (h : P input) :
    (expression input).Leaves P P := by
  rw [expression]
  apply Reading.leaves_andPerhaps (leaves_operation hP Level.ladder input h)
  intro rest shorter target hrest
  cases rest with
  | nil => exact Reading.leaves_done onlyTargets_nil hrest target _
  | cons t after =>
    show Reading.Leaves P P (if t.kind = .symbol .equal then _ else _)
    split
    · rename_i ht
      have hafter := hP t after (by rw [ht]; rfl) hrest
      apply Reading.leaves_within
      apply Reading.leaves_andPerhaps (leaves_expression hP after hafter)
      intro rest shorter value hrest
      exact Reading.leaves_done (targets_assignment target t value) hrest _ _
    · exact Reading.leaves_done onlyTargets_nil hrest target _
termination_by (input.length, Level.ladder.length + 2)
decreasing_by
  · exact Prod.Lex.right _ (Nat.lt_succ_self _)
  · exact Prod.Lex.left _ _ (by grind)

theorem leaves_operation (hP : Passes Kind.inExpression P) (levels : List Level)
    (input : List Token) (h : P input) : (operation levels input).Leaves P P := by
  cases levels with
  | nil =>
    rw [operation]
    exact leaves_operand hP input h
  | cons level tighter =>
    rw [operation]
    apply Reading.leaves_andPerhaps (leaves_operation hP tighter input h)
    intro rest shorter left hrest
    exact leaves_operations hP level tighter left rest hrest shorter
termination_by (input.length, levels.length + 1)

theorem leaves_operations (hP : Passes Kind.inExpression P) (level : Level) (tighter : List Level)
    (left : Expression) {bound : Nat} : ∀ (input : List Token), P input →
      ∀ shorter : input.length < bound,
        (operations level tighter left input shorter).Leaves P P
  | [], h, _ => by
    rw [operations]
    exact Reading.leaves_done onlyTargets_nil h left _
  | t :: after, h, _ => by
    rw [operations]
    split
    · rename_i ht
      have hafter := hP t after (Level.inExpression_of_owns ht) h
      apply Reading.leaves_within
      apply Reading.leaves_andPerhaps (leaves_operation hP tighter after hafter)
      intro rest shorter right hrest
      exact leaves_operations hP level tighter (level.join left t right) rest hrest shorter
    · exact Reading.leaves_done onlyTargets_nil h left _
termination_by input => (input.length, 0)

theorem leaves_operand (hP : Passes Kind.inExpression P) (input : List Token) (h : P input) :
    (operand input).Leaves P P := by
  cases input with
  | nil =>
    rw [operand]
    exact Reading.leaves_stop rfl h
  | cons t after =>
    rw [operand]
    split
    · rename_i ht
      have hafter := hP t after (Token.inExpression_of_isSign ht) h
      exact Reading.leaves_within _ (Reading.leaves_map _ (leaves_operand hP after hafter))
    · split
      · rename_i name hk
        exact Reading.leaves_one (hP t after (by rw [hk]; rfl) h) _
      · rename_i hk
        have hafter := hP t after (by rw [hk]; rfl) h
        apply Reading.leaves_within
        apply Reading.leaves_andThen (leaves_expression hP after hafter)
        intro rest shorter inner hrest
        exact Reading.leaves_map _ (leaves_expect hP rfl rfl hrest)
      · split
        · rename_i value hv
          exact Reading.leaves_one (hP t after (Kind.inExpression_of_literal? hv) h) _
        · exact Reading.leaves_stop rfl h
termination_by (input.length, 0)

end

end Grammar

/-! ### Phrases without a block -/

/-- `P` is passed on by the tokens of an expression, and turned into `R` by the semicolon after it. -/
structure PassesOn (P R : List Token → Prop) : Prop where
  token : Passes Kind.inExpression P
  semicolon : ∀ t rest, t.kind = .symbol .semicolon → P (t :: rest) → R rest

theorem Passes.passesOn (h : Passes (!·.isBrace) P) : PassesOn P P where
  token := h.mono fun k hk => by rw [Kind.isBrace_of_inExpression hk]; rfl
  semicolon t rest ht := h t rest (by rw [ht]; rfl)

variable {R : List Token → Prop}

theorem PassesOn.leaves_semicolon (hP : PassesOn P R) {p : Problem} (hp : p.isPlain = true)
    {input : List Token} (h : P input) : (expect .semicolon p input).Leaves R P := by
  cases input with
  | nil => exact Reading.leaves_stop hp h
  | cons t rest =>
    rw [expect]
    by_cases ht : t.kind = .symbol .semicolon
    · rw [if_pos ht]
      exact Reading.leaves_one (hP.semicolon t rest ht h) t
    · rw [if_neg ht]
      exact Reading.leaves_stop hp h

namespace Grammar

/-- An expression with a semicolon after it. -/
theorem leaves_simple {α : Type} (hP : PassesOn P R) (make : Expression → α) {p : Problem}
    (hp : p.isPlain = true) {input : List Token} (h : P input) :
    ((expression input).andThen fun rest _ e =>
      (expect .semicolon p rest).map fun _ => make e).Leaves R P := by
  apply Reading.leaves_andThen (leaves_expression hP.token input h)
  intro rest _ e hrest
  exact Reading.leaves_map _ (hP.leaves_semicolon hp hrest)

theorem leaves_initializer (hP : PassesOn P R) (name : Token) {input : List Token} (h : P input) :
    (initializer name input).Leaves R P := by
  cases input with
  | nil => exact Reading.leaves_stop rfl h
  | cons t after =>
    rw [initializer]
    split
    · rename_i ht
      have hvalue := hP.token t after (by rw [ht]; rfl) h
      apply Reading.leaves_within
      exact leaves_simple hP (fun e => Statement.declare name (some e)) rfl hvalue
    · exact Reading.leaves_map _ (hP.leaves_semicolon rfl h)

theorem leaves_variableDeclaration (hP : PassesOn P R) {input : List Token} (h : P input) :
    (variableDeclaration input).Leaves R P := by
  cases input with
  | nil => exact Reading.leaves_stop rfl h
  | cons name after =>
    rw [variableDeclaration]
    split
    · rename_i x hx
      have hafter := hP.token name after (by rw [hx]; rfl) h
      exact Reading.leaves_within _ (leaves_initializer hP name hafter)
    · exact Reading.leaves_stop rfl h

theorem leaves_printStatement (hP : PassesOn P R) {input : List Token} (h : P input) :
    (printStatement input).Leaves R P := by
  rw [printStatement]
  exact leaves_simple hP Statement.print rfl h

theorem leaves_expressionStatement (hP : PassesOn P R) {input : List Token} (h : P input) :
    (expressionStatement input).Leaves R P := by
  rw [expressionStatement]
  exact leaves_simple hP Statement.evaluate rfl h

/-! The clauses of a `for` take no brace either. -/

theorem leaves_startClause (hP : Passes (!·.isBrace) P) {input : List Token} (h : P input) :
    (startClause input).Leaves P P := by
  cases input with
  | nil => exact Reading.leaves_map _ (leaves_expressionStatement hP.passesOn h)
  | cons t after =>
    rw [startClause]
    split
    · rename_i ht
      exact Reading.leaves_one (hP t after (by rw [ht]; rfl) h) _
    · rename_i ht
      have hafter := hP t after (by rw [ht]; rfl) h
      apply Reading.leaves_within
      exact Reading.leaves_map _ (leaves_variableDeclaration hP.passesOn hafter)
    · exact Reading.leaves_map _ (leaves_expressionStatement hP.passesOn h)

theorem leaves_loopCondition (hP : Passes (!·.isBrace) P) {input : List Token} (h : P input) :
    (loopCondition input).Leaves P P := by
  rw [loopCondition]
  exact leaves_simple hP.passesOn (fun e => e) rfl h

theorem leaves_conditionClause (hP : Passes (!·.isBrace) P) {input : List Token} (h : P input) :
    (conditionClause input).Leaves P P := by
  cases input with
  | nil => exact leaves_loopCondition hP h
  | cons t after =>
    rw [conditionClause]
    split
    · rename_i ht
      exact Reading.leaves_one (hP t after (by rw [ht]; rfl) h) _
    · exact leaves_loopCondition hP h

theorem leaves_loopStep (hP : Passes (!·.isBrace) P) {input : List Token} (h : P input) :
    (loopStep input).Leaves P P := by
  apply Reading.leaves_andThen (leaves_expression hP.passesOn.token input h)
  intro rest _ step hrest
  exact Reading.leaves_map _ (leaves_expect hP rfl rfl hrest)

theorem leaves_stepClause (hP : Passes (!·.isBrace) P) {input : List Token} (h : P input) :
    (stepClause input).Leaves P P := by
  cases input with
  | nil => exact Reading.leaves_map _ (leaves_loopStep hP h)
  | cons t after =>
    rw [stepClause]
    split
    · rename_i ht
      exact Reading.leaves_one (hP t after (by rw [ht]; rfl) h) _
    · exact Reading.leaves_map _ (leaves_loopStep hP h)

/-! ### Declarations as readings -/

/-- The reading that a declaration comes of. -/
def phrase (t : Token) (after : List Token) : Reading (after.length + 1) Statement :=
  if t.kind = .symbol .varWord then (variableDeclaration after).past else statement (t :: after)

theorem declaration_eq (t : Token) (after : List Token) :
    declaration t after = .ofReading (Nat.succ_pos _) (phrase t after) := by
  rw [declaration, phrase]
  split <;> rfl

end Grammar
end Lox

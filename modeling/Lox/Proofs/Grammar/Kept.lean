/-
# What reading keeps

Of the tokens that reading takes, it keeps all but those of the assignments to
what is no name: it complains about the target, drops the `=` and the value
that it has read, and goes on. If it complains about nothing else, the tokens
it keeps have a derivation, of the tree that it comes to. Where it complains
about nothing, these are all that it takes.

Key definitions: `Pruned`, `Phrase`, `Reading.Derives`, `Grammar.Declares`.
Key theorems: `Reading.Derives.andPerhaps`, `Grammar.derives_expression`,
`Grammar.derives_statement`, `Grammar.derives_program`, `derived_program`.
-/
import Lox.Proofs.Grammar.Statements
import Lox.Proofs.Grammar.Endings

namespace Lox

/-- Reading comes from `input` to `rest` with the complaints `cs`, and keeps the tokens `kept` of
those it takes. -/
inductive Pruned : List Token → List Complaint → List Token → List Token → Prop
  | nothing (rest : List Token) : Pruned rest [] [] rest
  | keep (t : Token) {input : List Token} {cs : List Complaint} {kept rest : List Token}
      (h : Pruned input cs kept rest) : Pruned (t :: input) cs (t :: kept) rest
  /-- The value after the `=` is read, and dropped with it. -/
  | drop {t : Token} (ht : t.kind = .symbol .equal) {after mid : List Token} {value : Expression}
      {ds : List Complaint} {shorter : mid.length < after.length}
      (hv : Grammar.expression after = .done value ds mid shorter)
      {cs : List Complaint} {kept rest : List Token} (h : Pruned mid cs kept rest) :
      Pruned (t :: after) (ds ++ ⟨some t, .assignmentTarget⟩ :: cs) kept rest

namespace Pruned

variable {input mid rest kept more : List Token} {cs ds : List Complaint}

theorem append (h : Pruned input cs kept mid) (h' : Pruned mid ds more rest) :
    Pruned input (cs ++ ds) (kept ++ more) rest := by
  induction h with
  | nothing => exact h'
  | keep t _ ih => exact .keep t (ih h')
  | @drop t ht after mid value before _ hv cs kept rest _ ih =>
    rw [List.append_assoc, List.cons_append]
    exact .drop ht hv (ih h')

/-- Without a complaint everything is kept. -/
theorem of_clean (h : Pruned input [] kept rest) : kept ++ rest = input := by
  generalize hc : ([] : List Complaint) = cs at h
  induction h with
  | nothing => rfl
  | keep t _ ih => exact congrArg (t :: ·) (ih hc)
  | drop => simp at hc

end Pruned

/-- What a phrase can be read as: its derivations, the trees they stand for, their tokens, and what
can follow them. Anything can, if nothing else is said. -/
structure Phrase (α : Type) where
  Form : Type
  tree : Form → α
  tokens : Form → List Token
  fits : Form → List Token → Prop := fun _ _ => True

namespace Reading

variable {m n : Nat} {α β : Type}

/-- If the reading of `input` complains about nothing but targets, it comes to the tree of a
derivation from the tokens `before` and those that it keeps, or it gets stuck, but not at a
target. -/
def Derives (P : Phrase α) (before input : List Token) (r : Reading n α) : Prop :=
  r.Ends (fun v cs rest => OnlyTargets cs → ∃ d : P.Form, P.tree d = v ∧ P.fits d rest ∧
      ∃ kept, P.tokens d = before ++ kept ∧ Pruned input cs kept rest)
    fun p cs _ => OnlyTargets cs → p.isFatal = true

section Derives

variable {P : Phrase α} {Q : Phrase β} {before before' input : List Token}

@[simp] theorem derives_within (h : m ≤ n) (r : Reading m α) :
    (r.within h).Derives P before input ↔ r.Derives P before input := ends_within h r

theorem derives_done {d : P.Form} {rest : List Token} (hf : P.fits d rest)
    (ht : P.tokens d = before) (shorter : rest.length < n) :
    (done (P.tree d) [] rest shorter).Derives P before rest :=
  fun _ => ⟨d, rfl, hf, [], by rw [ht, List.append_nil], .nothing rest⟩

theorem derives_stop {p : Problem} (hp : p.isFatal = true) (input : List Token) :
    (stop p input : Reading _ α).Derives P before input := fun _ => hp

/-- A token that is taken is kept. -/
theorem Derives.keep {r : Reading n α} {t : Token} (h : r.Derives P (before ++ [t]) input) :
    r.Derives P before (t :: input) := by
  refine h.imp (fun v cs rest hd hc => ?_) fun _ _ _ h => h
  obtain ⟨d, hv, hf, kept, ht, hp⟩ := hd hc
  exact ⟨d, hv, hf, t :: kept, by rw [ht, List.append_assoc]; rfl, .keep t hp⟩

theorem Derives.past {r : Reading n α} {t : Token} (h : r.Derives P (before ++ [t]) input) :
    r.past.Derives P before (t :: input) := (derives_within _ r).mpr h.keep

theorem derives_one {d : P.Form} {t : Token} {after : List Token} (hf : P.fits d after)
    (ht : P.tokens d = before ++ [t]) : (one (P.tree d) after).Derives P before (t :: after) :=
  (derives_done hf ht (Nat.lt_succ_self _)).keep

/-- A derivation of a phrase is made into one of the phrase that it is part of. -/
theorem Derives.map {r : Reading n α} (h : r.Derives P before input) {g : α → β}
    (f : P.Form → Q.Form)
    (ht : ∀ d kept, P.tokens d = before ++ kept → Q.tokens (f d) = before' ++ kept)
    (hv : ∀ d, Q.tree (f d) = g (P.tree d) := by exact fun _ => rfl)
    (hf : ∀ d rest, P.fits d rest → Q.fits (f d) rest := by exact fun _ _ _ => trivial) :
    (r.map g).Derives Q before' input := by
  refine (ends_map g r).mpr (h.imp (fun v cs rest hd hc => ?_) fun _ _ _ h => h)
  obtain ⟨d, rfl, hfits, kept, htokens, hp⟩ := hd hc
  exact ⟨f d, hv d, hf d rest hfits, kept, ht d kept htokens, hp⟩

/-- A phrase that is all of another one. -/
theorem Derives.whole {Q : Phrase α} {r : Reading n α} (h : r.Derives P before input)
    (f : P.Form → Q.Form)
    (ht : ∀ d kept, P.tokens d = before ++ kept → Q.tokens (f d) = before' ++ kept)
    (hv : ∀ d, Q.tree (f d) = P.tree d := by exact fun _ => rfl)
    (hf : ∀ d rest, P.fits d rest → Q.fits (f d) rest := by exact fun _ _ _ => trivial) :
    r.Derives Q before' input := by
  have hmap : (r.map id).Derives Q before' input := h.map f ht hv hf
  cases r <;> exact hmap

/-- After a phrase, another one is read from what it leaves. -/
theorem Derives.andPerhaps {r : Reading n α} (h : r.Derives P [] input)
    {next : (rest : List Token) → rest.length < n → α → Reading n β}
    (hn : ∀ d rest shorter, P.fits d rest →
      (next rest shorter (P.tree d)).Derives Q (before ++ P.tokens d) rest) :
    (r.andPerhaps next).Derives Q before input := by
  cases r with
  | stuck p cs rest w => exact h
  | done v cs rest s =>
    refine (ends_noting cs _).mpr ?_
    by_cases hc : OnlyTargets cs
    · obtain ⟨d, rfl, hf, kept, ht, hp⟩ := h hc
      refine (hn d rest s hf).imp (fun w more last hd hm => ?_)
        fun p more last hd hm => hd (List.forall_mem_append.mp hm).2
      obtain ⟨d', hw, hf', kept', ht', hp'⟩ := hd (List.forall_mem_append.mp hm).2
      refine ⟨d', hw, hf', kept ++ kept', ?_, hp.append hp'⟩
      rw [ht', ht, List.nil_append, List.append_assoc]
    · cases next rest s v <;> exact fun hm => (hc (List.forall_mem_append.mp hm).1).elim

theorem Derives.andThen {r : Reading n α} (h : r.Derives P [] input)
    {next : (rest : List Token) → rest.length < n → α → Reading rest.length β}
    (hn : ∀ d rest shorter, P.fits d rest →
      (next rest shorter (P.tree d)).Derives Q (before ++ P.tokens d) rest) :
    (r.andThen next).Derives Q before input :=
  h.andPerhaps fun d rest s hf => (derives_within _ _).mpr (hn d rest s hf)

end Derives
end Reading

namespace Phrase

def symbol (s : Symbol) : Phrase Token where
  Form := Spelled s
  tree t := t.1
  tokens t := [t.1]

def expression (c : Category) : Phrase Expression where
  Form := Derivation c
  tree := Derivation.tree
  tokens := Derivation.tokens

/-- An expression with a symbol after it. -/
def closed (s : Symbol) {α : Type} (make : Expression → α) : Phrase α where
  Form := Derivation .expression × Spelled s
  tree d := make d.1.tree
  tokens d := d.1.tokens ++ [d.2.1]

def declared : Phrase Statement where
  Form := VariableDerivation
  tree := VariableDerivation.tree
  tokens := VariableDerivation.tokens

def start : Phrase (Option Statement) where
  Form := StartDerivation
  tree := StartDerivation.tree
  tokens := StartDerivation.tokens

/-- A condition that is left out is true. -/
def condition : Phrase Expression where
  Form := Option (Derivation .expression) × Spelled .semicolon
  tree d := (d.1.map (·.tree)).getD (.literal (.boolean true))
  tokens d := optionalTokens d.1 ++ [d.2.1]

def step : Phrase (Option Expression) where
  Form := Option (Derivation .expression) × Spelled .rightParen
  tree d := d.1.map (·.tree)
  tokens d := optionalTokens d.1 ++ [d.2.1]

/-- Before an `else` there is only a statement that could not take it. -/
def statement : Phrase Statement where
  Form := (o : Bool) × StatementDerivation o
  tree d := d.2.tree
  tokens d := d.2.tokens
  fits d rest := d.1 = true → NoElse rest

/-- The declarations of a block with the brace after them. -/
def block : Phrase Declarations where
  Form := ProgramDerivation × Spelled .rightBrace
  tree d := d.1.trees.map some
  tokens d := d.1.tokens ++ [d.2.1]

end Phrase

open Reading (Derives derives_done derives_one derives_stop derives_within)

theorem derives_expect (s : Symbol) {p : Problem} (hp : p.isFatal = true) (input : List Token) :
    (expect s p input).Derives (.symbol s) [] input := by
  cases input with
  | nil => exact derives_stop hp []
  | cons t rest =>
    rw [expect]
    split
    · rename_i ht
      exact derives_one (P := .symbol s) (d := ⟨t, ht⟩) trivial rfl
    · exact derives_stop hp (t :: rest)

theorem Reading.Derives.closed {n : Nat} {α : Type} {r : Reading n Expression} {input : List Token}
    (h : r.Derives (.expression .expression) [] input) (make : Expression → α) (s : Symbol)
    {p : Problem} (hp : p.isFatal = true) :
    (r.andThen fun rest _ e => (expect s p rest).map fun _ => make e).Derives (.closed s make) []
      input := by
  apply h.andThen
  intro e rest _ _
  exact (derives_expect s hp rest).map (Q := .closed s make) (fun t => (e, t)) fun t kept h =>
    congrArg (e.tokens ++ ·) h

namespace Grammar

/-! ### Expressions -/

/-- The assignment of a value to a derivation is a derivation if that is a name; otherwise the value
is dropped. -/
theorem derives_assignment {t : Token} (ht : t.kind = .symbol .equal)
    (target : Derivation (.operation precedence)) {after mid : List Token} {value : Expression}
    {ds : List Complaint} {shorter : mid.length < after.length}
    (hr : expression after = .done value ds mid shorter)
    (hv : (expression after).Derives (.expression .expression) [] after) {n : Nat}
    (hn : mid.length < n) :
    (Reading.done (assignment target.tree t value).1 (ds ++ (assignment target.tree t value).2) mid
      hn).Derives (.expression .expression) target.tokens (t :: after) := by
  by_cases hname : ∃ name, target.tree = .name name
  · obtain ⟨name, hname⟩ := hname
    obtain ⟨htokens, hkind⟩ := tokens_of_tree_name target hname
    intro hc
    simp only [hname, assignment, List.append_nil] at hc ⊢
    rw [hr] at hv
    obtain ⟨d, rfl, -, kept, hd, hp⟩ := hv hc
    refine ⟨Derivation.assign ⟨name, hkind⟩ ⟨t, ht⟩ d, rfl, trivial, t :: kept, ?_, .keep t hp⟩
    rw [htokens]
    exact congrArg (name :: t :: ·) hd
  · intro _
    have hleft : assignment target.tree t value = (target.tree, [⟨some t, .assignmentTarget⟩]) := by
      cases h : target.tree with
      | name name => exact (hname ⟨name, h⟩).elim
      | _ => rfl
    rw [hleft]
    exact ⟨Derivation.operation target, rfl, trivial, [], (List.append_nil _).symm,
      .drop ht hr (.nothing mid)⟩

mutual

theorem derives_expression (input : List Token) :
    (expression input).Derives (.expression .expression) [] input := by
  rw [expression]
  apply (derives_operation Level.ladder input).andPerhaps
  intro d rest shorter _
  have hdone : ∀ (rest : List Token) (shorter : rest.length < input.length),
      (Reading.done d.tree [] rest shorter).Derives (.expression .expression) d.tokens rest :=
    fun rest shorter => derives_done (P := .expression .expression)
      (d := Derivation.operation d) trivial rfl shorter
  cases rest with
  | nil => exact hdone [] shorter
  | cons t after =>
    show Reading.Derives _ _ _ (if t.kind = .symbol .equal then _ else _)
    split
    · rename_i ht
      have hvalue := derives_expression after
      rw [derives_within]
      rcases hr : expression after with ⟨value, ds, mid, s⟩ | ⟨p, ds, mid, w⟩
      · exact derives_assignment ht d hr hvalue s
      · rwa [hr] at hvalue
    · exact hdone (t :: after) shorter
termination_by (input.length, Level.ladder.length + 2)
decreasing_by
  · exact Prod.Lex.right _ (Nat.lt_succ_self _)
  · exact Prod.Lex.left _ _ (by grind)

theorem derives_operation (levels : List Level) (input : List Token) :
    (operation levels input).Derives (.expression (.operation levels)) [] input := by
  cases levels with
  | nil =>
    rw [operation]
    exact (derives_operand input).whole (Q := .expression (.operation [])) Derivation.operand
      fun _ _ h => h
  | cons level tighter =>
    rw [operation]
    apply (derives_operation tighter input).andPerhaps
    intro d rest shorter _
    exact derives_operations level tighter (.tighter d) rest shorter
termination_by (input.length, levels.length + 1)

theorem derives_operations (level : Level) (tighter : List Level)
    (left : Derivation (.operation (level :: tighter))) {bound : Nat} :
    ∀ (input : List Token) (shorter : input.length < bound),
      (operations level tighter left.tree input shorter).Derives
        (.expression (.operation (level :: tighter))) left.tokens input
  | [], shorter => by
    rw [operations]
    exact derives_done (P := .expression _) trivial rfl shorter
  | t :: after, shorter => by
    rw [operations]
    split
    · rename_i ht
      rw [derives_within]
      apply Reading.Derives.keep
      apply (derives_operation tighter after).andPerhaps
      intro right rest shorter _
      have hjoin := derives_operations level tighter
        (.join left ⟨t, (level.owns_iff t).mp ht⟩ right) rest shorter
      rw [List.append_assoc]
      rw [← Derivation.node_eq_join]
      exact hjoin
    · exact derives_done (P := .expression _) trivial rfl shorter
termination_by input => (input.length, 0)

theorem derives_operand (input : List Token) :
    (operand input).Derives (.expression .operand) [] input := by
  cases input with
  | nil =>
    rw [operand]
    exact derives_stop rfl []
  | cons t after =>
    rw [operand]
    split
    · rename_i ht
      apply Reading.Derives.past
      exact (derives_operand after).map (Q := .expression .operand)
        (Derivation.unary ⟨t, t.isSign_iff.mp ht⟩) fun _ _ h => congrArg (t :: ·) h
    · split
      · rename_i name hk
        exact derives_one (P := .expression .operand) (d := Derivation.name ⟨t, name, hk⟩)
          trivial rfl
      · rename_i hk
        apply Reading.Derives.past
        have hclosed := (derives_expression after).closed Expression.group .rightParen
          (p := .parenAfterExpression) rfl
        exact hclosed.whole (Q := .expression .operand) (fun d => Derivation.group ⟨t, hk⟩ d.1 d.2)
          fun _ _ h => congrArg (t :: ·) h
      · split
        · rename_i value hv
          have hdenotes := (t.kind.literal?_eq_some_iff value).mp hv
          exact derives_one (P := .expression .operand)
            (d := Derivation.literal t value hdenotes) trivial rfl
        · exact derives_stop rfl (t :: after)
termination_by (input.length, 0)

end

/-! ### Phrases of one expression -/

theorem derives_initializer (word : Spelled .varWord) (name : NameToken) (input : List Token) :
    (initializer name.1 input).Derives .declared [word.1, name.1] input := by
  cases input with
  | nil => exact derives_stop rfl []
  | cons t after =>
    rw [initializer]
    split
    · rename_i ht
      apply Reading.Derives.past
      have hclosed := (derives_expression after).closed (fun e => Statement.declare name.1 (some e))
        .semicolon (p := .semicolonAfterVariable) rfl
      exact hclosed.whole (Q := .declared) (fun d => ⟨word, name, some (⟨t, ht⟩, d.1), d.2⟩)
        fun _ _ h => congrArg (word.1 :: name.1 :: t :: ·) h
    · exact (derives_expect .semicolon rfl (t :: after)).map (Q := .declared)
        (fun semicolon => ⟨word, name, none, semicolon⟩) fun _ _ h =>
          congrArg (word.1 :: name.1 :: ·) h

theorem derives_variableDeclaration (word : Spelled .varWord) (input : List Token) :
    (variableDeclaration input).Derives .declared [word.1] input := by
  cases input with
  | nil => exact derives_stop rfl []
  | cons name after =>
    rw [variableDeclaration]
    split
    · rename_i x hx
      exact (derives_initializer word ⟨name, x, hx⟩ after).past
    · exact derives_stop rfl (name :: after)

theorem derives_expressionStatement (input : List Token) :
    (expressionStatement input).Derives (.closed .semicolon Statement.evaluate) [] input := by
  rw [expressionStatement]
  exact (derives_expression input).closed Statement.evaluate .semicolon rfl

theorem derives_startClause (input : List Token) : (startClause input).Derives .start [] input := by
  have hsimple : ((expressionStatement input).map some).Derives .start [] input :=
    (derives_expressionStatement input).map (fun d => .expression d.1 d.2) fun _ _ h => h
  cases input with
  | nil => exact hsimple
  | cons t after =>
    rw [startClause]
    split
    · rename_i ht
      exact derives_one (P := .start) (d := .absent ⟨t, ht⟩) trivial rfl
    · rename_i ht
      apply Reading.Derives.past
      exact (derives_variableDeclaration ⟨t, ht⟩ after).map .declare fun _ _ h => h
    · exact hsimple

theorem derives_conditionClause (input : List Token) :
    (conditionClause input).Derives .condition [] input := by
  have hcondition : (loopCondition input).Derives .condition [] input :=
    ((derives_expression input).closed (fun e => e) .semicolon rfl).whole
      (Q := .condition) (fun d => (some d.1, d.2)) fun _ _ h => h
  cases input with
  | nil => exact hcondition
  | cons t after =>
    rw [conditionClause]
    split
    · rename_i ht
      exact derives_one (P := .condition) (d := (none, ⟨t, ht⟩)) trivial rfl
    · exact hcondition

theorem derives_stepClause (input : List Token) : (stepClause input).Derives .step [] input := by
  have hstep : ((loopStep input).map some).Derives .step [] input :=
    ((derives_expression input).closed (fun e => e) .rightParen rfl).map
      (Q := .step) (fun d => (some d.1, d.2)) fun _ _ h => h
  cases input with
  | nil => exact hstep
  | cons t after =>
    rw [stepClause]
    split
    · rename_i ht
      exact derives_one (P := .step) (d := (none, ⟨t, ht⟩)) trivial rfl
    · exact hstep

/-! ### Statements and declarations -/

/-- If the declaration read at the front of `input` is complained about for nothing but targets, the
tokens that it keeps, before those of a derivation of what follows, have a derivation with it. -/
def Declares {n : Nat} (input : List Token) (d : Declared n) : Prop :=
  OnlyTargets d.complaints → ∃ s, d.entry = some s ∧ ∃ kept, Pruned input d.complaints kept d.rest ∧
    ∀ later : ProgramDerivation, ∃ p : ProgramDerivation,
      p.trees = s :: later.trees ∧ p.tokens = kept ++ later.tokens

theorem declares_ofReading {P : Phrase Statement} {input : List Token} {bound : Nat}
    (hb : 0 < bound) {r : Reading bound Statement} (h : r.Derives P [] input)
    (front : P.Form → ProgramDerivation → ProgramDerivation)
    (htrees : ∀ d later, (front d later).trees = P.tree d :: later.trees)
    (htokens : ∀ d later, (front d later).tokens = P.tokens d ++ later.tokens) :
    Declares input (.ofReading hb r) := by
  intro hc
  cases r with
  | done s cs rest _ =>
    obtain ⟨d, rfl, -, kept, hd, hp⟩ := h hc
    refine ⟨P.tree d, rfl, kept, hp, fun later => ⟨front d later, htrees d later, ?_⟩⟩
    rw [htokens, hd, List.nil_append]
  | stuck p cs rest _ =>
    -- the complaint about the failed declaration is about no target
    obtain ⟨hcs, hp⟩ := List.forall_mem_append.mp hc
    exact absurd (hp _ (List.mem_singleton_self _)) ((p.isFatal_iff).mp (h hcs))

/-- A declaration before the rest of a block. -/
theorem Declares.block {n : Nat} {input : List Token} {d : Declared n} (h : Declares input d)
    {m : Nat} {r : Reading m Declarations} (hr : r.Derives .block [] d.rest) :
    ((r.map (d.entry :: ·)).noting d.complaints).Derives .block [] input := by
  refine (Reading.ends_noting _ _).mpr ((Reading.ends_map _ _).mpr
    (hr.imp (fun later cs rest hb hc => ?_) fun p cs rest hb hc => ?_))
  · obtain ⟨hfirst, hlater⟩ := List.forall_mem_append.mp hc
    obtain ⟨s, hs, kept, hp, hfront⟩ := h hfirst
    obtain ⟨⟨body, right⟩, rfl, -, more, hmore, hp'⟩ := hb hlater
    obtain ⟨whole, htrees, htokens⟩ := hfront body
    refine ⟨(whole, right), ?_, trivial, kept ++ more, ?_, hp.append hp'⟩
    · rw [hs]
      exact congrArg (List.map some) htrees
    · show whole.tokens ++ [right.1] = [] ++ (kept ++ more)
      rw [htokens, List.append_assoc]
      exact congrArg (kept ++ ·) hmore
  · exact hb (List.forall_mem_append.mp hc).2

mutual

theorem declares_declaration (t : Token) (after : List Token) :
    Declares (t :: after) (declaration t after) := by
  rw [declaration_eq, phrase]
  split
  · rename_i ht
    exact declares_ofReading _ (derives_variableDeclaration ⟨t, ht⟩ after).past
      .declare (fun _ _ => rfl) fun _ _ => rfl
  · exact declares_ofReading _ (derives_statement (t :: after))
      (fun d => .statement d.2) (fun _ _ => rfl) fun _ _ => rfl
termination_by (after.length + 1, 1)

theorem derives_statement (input : List Token) : (statement input).Derives .statement [] input := by
  have hsimple : (expressionStatement input).Derives .statement [] input :=
    (derives_expressionStatement input).whole (Q := .statement)
      (fun d => ⟨false, .evaluate d.1 d.2⟩) (fun _ _ h => h) (fun _ => rfl) fun _ _ _ => nofun
  cases input with
  | nil =>
    rw [statement]
    exact hsimple
  | cons t after =>
    rw [statement]
    split
    · rename_i ht
      exact (derives_if ⟨t, ht⟩ after).past
    · rename_i ht
      apply Reading.Derives.past
      exact ((derives_expression after).closed Statement.print .semicolon rfl).whole
        (Q := .statement) (fun d => ⟨false, .print ⟨t, ht⟩ d.1 d.2⟩)
        (fun _ _ h => congrArg (t :: ·) h) (fun _ => rfl) fun _ _ _ => nofun
    · rename_i ht
      apply Reading.Derives.past
      exact (derives_block after).map (Q := .statement) (fun d => ⟨false, .block ⟨t, ht⟩ d.1 d.2⟩)
        (fun _ _ h => congrArg (t :: ·) h) (fun _ => rfl) fun _ _ _ => nofun
    · rename_i ht
      exact (derives_while ⟨t, ht⟩ after).past
    · rename_i ht
      exact (derives_for ⟨t, ht⟩ after).past
    · exact hsimple
termination_by (input.length, 0)

theorem derives_block (input : List Token) : (block input).Derives .block [] input := by
  cases input with
  | nil =>
    rw [block]
    exact derives_stop rfl []
  | cons t after =>
    rw [block]
    split
    · rename_i ht
      exact derives_one (P := .block) (d := (.nil, ⟨t, ht⟩)) trivial rfl
    · have hd := declares_declaration t after
      have hlt := (declaration t after).shorter
      have hb := derives_block (declaration t after).rest
      rw [derives_within]
      exact hd.block hb
termination_by (input.length, 2)

theorem derives_if (word : Spelled .ifWord) (input : List Token) :
    (ifStatement input).Derives .statement [word.1] input := by
  rw [ifStatement]
  apply (derives_expect .leftParen rfl input).andThen
  intro left rest h1 _
  apply (derives_expression rest).andThen
  intro condition rest h2 _
  apply (derives_expect .rightParen rfl rest).andThen
  intro right rest h3 _
  apply (derives_statement rest).andPerhaps
  intro yes rest h4 hyes
  have hdone : NoElse rest → ∀ {n : Nat} (shorter : rest.length < n),
      (Reading.done (.branch condition.tree yes.2.tree none) [] rest shorter).Derives .statement
        ([word.1] ++ [left.1] ++ condition.tokens ++ [right.1] ++ yes.2.tokens) rest :=
    fun hn n shorter => derives_done (P := .statement)
      (d := ⟨true, .ifThen word left condition right yes.2⟩) (fun _ => hn)
      (by simp [Phrase.statement, StatementDerivation.tokens]) shorter
  cases rest with
  | nil => exact hdone (fun _ h => nomatch h) h4
  | cons t after =>
    show Reading.Derives _ _ _ (if t.kind = .symbol .elseWord then _ else _)
    split
    · rename_i ht
      rw [derives_within]
      apply Reading.Derives.keep
      -- the first branch cannot take the `else` that follows it
      obtain ⟨o, yes⟩ := yes
      cases o with
      | true => exact (hyes rfl t rfl ht).elim
      | false =>
        refine (derives_statement after).map (Q := .statement)
          (fun no => ⟨no.1, .ifElse word left condition right yes ⟨t, ht⟩ no.2⟩)
          (fun no kept h => ?_) (fun _ => rfl) fun _ _ h => h
        cases h
        simp [Phrase.symbol, Phrase.expression, Phrase.statement, StatementDerivation.tokens]
    · rename_i ht
      exact hdone (fun u hu => by cases hu; exact ht) h4
termination_by (input.length, 0)
decreasing_by all_goals exact Prod.Lex.left _ _ (by grind)

theorem derives_while (word : Spelled .whileWord) (input : List Token) :
    (whileStatement input).Derives .statement [word.1] input := by
  rw [whileStatement]
  apply (derives_expect .leftParen rfl input).andThen
  intro left rest h1 _
  apply (derives_expression rest).andThen
  intro condition rest h2 _
  apply (derives_expect .rightParen rfl rest).andThen
  intro right rest h3 _
  refine (derives_statement rest).map (Q := .statement)
    (fun body => ⟨body.1, .whileLoop word left condition right body.2⟩) (fun body kept h => ?_)
    (fun _ => rfl) fun _ _ h => h
  cases h
  simp [Phrase.symbol, Phrase.expression, Phrase.statement, StatementDerivation.tokens]
termination_by (input.length, 0)

theorem derives_for (word : Spelled .forWord) (input : List Token) :
    (forStatement input).Derives .statement [word.1] input := by
  rw [forStatement]
  apply (derives_expect .leftParen rfl input).andThen
  intro left rest h1 _
  apply (derives_startClause rest).andThen
  intro start rest h2 _
  apply (derives_conditionClause rest).andThen
  intro condition rest h3 _
  apply (derives_stepClause rest).andThen
  intro step rest h4 _
  refine (derives_statement rest).map (Q := .statement)
    (fun body => ⟨body.1, .forLoop word left start condition.1 condition.2 step.1 step.2 body.2⟩)
    (fun body kept h => ?_) (fun _ => desugared_eq_forLoop ..) fun _ _ h => h
  cases h
  simp [Phrase.symbol, Phrase.start, Phrase.condition, Phrase.step, Phrase.statement,
    StatementDerivation.tokens]
termination_by (input.length, 0)

end

/-- A program that is complained about for nothing but targets is what the tokens that are kept of
it derive. -/
theorem derives_program (input : List Token) (hc : OnlyTargets (program input).2) :
    ∃ d : ProgramDerivation, d.trees.map some = (program input).1 ∧
      Pruned input (program input).2 d.tokens [] := by
  cases input with
  | nil =>
    rw [program]
    exact ⟨.nil, rfl, .nothing []⟩
  | cons t after =>
    rw [program_cons] at hc ⊢
    obtain ⟨hfirst, hlater⟩ := List.forall_mem_append.mp hc
    obtain ⟨s, hs, kept, hp, hfront⟩ := declares_declaration t after hfirst
    have hlt := (declaration t after).shorter
    obtain ⟨later, htrees, hp'⟩ := derives_program (declaration t after).rest hlater
    obtain ⟨d, hd, htokens⟩ := hfront later
    refine ⟨d, ?_, ?_⟩
    · rw [hd, hs, List.map_cons, htrees]
    · rw [htokens]
      exact hp.append hp'
termination_by input.length

end Grammar

/-! ### What is read without a complaint -/

/-- What is read without a complaint has a derivation from all the tokens that are taken. -/
theorem Reading.Clean.exists_derivation {n : Nat} {α : Type} {r : Reading n α} {v : α}
    {input rest : List Token} (hc : r.Clean v rest) {P : Phrase α} (h : r.Derives P [] input) :
    ∃ d : P.Form, P.tree d = v ∧ P.tokens d ++ rest = input ∧ P.fits d rest := by
  obtain ⟨shorter, rfl⟩ := hc
  obtain ⟨d, hv, hf, kept, ht, hp⟩ := h onlyTargets_nil
  exact ⟨d, hv, by rw [ht]; exact hp.of_clean, hf⟩

section Derived

variable {input rest : List Token}

theorem derived_start {start : Option Statement}
    (h : (Grammar.startClause input).Clean start rest) :
    ∃ d : StartDerivation, d.tree = start ∧ d.tokens ++ rest = input := by
  obtain ⟨d, hv, ht, -⟩ := h.exists_derivation (Grammar.derives_startClause input)
  exact ⟨d, hv, ht⟩

theorem derived_condition {c : Expression} (h : (Grammar.conditionClause input).Clean c rest) :
    ∃ (d : Option (Derivation .expression)) (semicolon : Spelled .semicolon),
      (d.map (·.tree)).getD (.literal (.boolean true)) = c ∧
      optionalTokens d ++ semicolon.1 :: rest = input := by
  obtain ⟨d, hv, ht, -⟩ := h.exists_derivation (Grammar.derives_conditionClause input)
  exact ⟨d.1, d.2, hv, (List.append_assoc ..).symm.trans ht⟩

theorem derived_step {step : Option Expression} (h : (Grammar.stepClause input).Clean step rest) :
    ∃ (d : Option (Derivation .expression)) (right : Spelled .rightParen),
      d.map (·.tree) = step ∧ optionalTokens d ++ right.1 :: rest = input := by
  obtain ⟨d, hv, ht, -⟩ := h.exists_derivation (Grammar.derives_stepClause input)
  exact ⟨d.1, d.2, hv, (List.append_assoc ..).symm.trans ht⟩

/-- An `else` follows a statement only if the statement could not take it. -/
theorem derived_statement {s : Statement} (h : (Grammar.statement input).Clean s rest) :
    ∃ o, ∃ d : StatementDerivation o, d.tree = s ∧ d.tokens ++ rest = input ∧
      (o = true → NoElse rest) := by
  obtain ⟨⟨o, d⟩, h⟩ := h.exists_derivation (Grammar.derives_statement input)
  exact ⟨o, d, h⟩

/-- A program that is complained about nothing of has a derivation. -/
theorem derived_program (input : List Token) (h : (Grammar.program input).2 = []) :
    ∃ d : ProgramDerivation, d.tokens = input := by
  obtain ⟨d, -, hp⟩ := Grammar.derives_program input (h ▸ onlyTargets_nil)
  rw [h] at hp
  exact ⟨d, by rw [← List.append_nil d.tokens]; exact hp.of_clean⟩

end Derived
end Lox

/-
# The operators of a program that is read

An operator with nothing to do stops a program for good. The parser makes no
such operator: what it reads, with complaints or without, is well formed, and
a well-formed program applies known operators only. So a run of one ends,
fails or goes round for too long, and nothing else.

Key definitions: `Part.Known`, `Action.Meant`.
Key theorems: `Declarations.WellFormed.known`, `execute_meant`, `read_programs_are_meant`.
-/
import Mathlib
import Lox.Proofs.Grammar.WellFormed
import Lox.Proofs.Parts
import Lox.Proofs.Scopes.Restored

namespace Lox

/-- There is something to do for an operator. -/
def Part.Known : Part → Prop
  | .sign token => token.kind = .symbol .bang ∨ token.kind = .symbol .minus
  | .operator token => token.IsBinary
  | .name _ | .target _ | .declared _ => True

/-! ### Well-formed programs have known operators -/

theorem Expression.WellFormed.known : ∀ {e : Expression}, e.WellFormed → ∀ p ∈ e.parts, p.Known
  | .literal _, _ => by
    intro p hp
    cases hp
  | .group inner, h => WellFormed.known (e := inner) h
  | .name _, _ => List.forall_mem_singleton.mpr trivial
  | .assign _ _, h => List.forall_mem_append.mpr ⟨h.2.known, List.forall_mem_singleton.mpr trivial⟩
  | .unary _ _, h => List.forall_mem_append.mpr ⟨h.2.known, List.forall_mem_singleton.mpr h.1⟩
  | .binary _ _ _, h => List.forall_mem_append.mpr
    ⟨List.forall_mem_append.mpr ⟨h.1.known, h.2.2.known⟩, List.forall_mem_singleton.mpr h.2.1⟩
  | .logical _ _ _, h => List.forall_mem_append.mpr ⟨h.1.known, h.2.2.known⟩

mutual

theorem Statement.WellFormed.known : ∀ {s : Statement}, s.WellFormed → ∀ p ∈ s.parts, p.Known
  | .print _, h => by
    rw [Statement.parts]
    exact Expression.WellFormed.known h
  | .evaluate _, h => by
    rw [Statement.parts]
    exact Expression.WellFormed.known h
  | .declare _ none, _ => by
    rw [Statement.parts]
    exact List.forall_mem_singleton.mpr trivial
  | .declare _ (some _), h => by
    rw [Statement.parts]
    exact List.forall_mem_append.mpr ⟨h.2.known, List.forall_mem_singleton.mpr trivial⟩
  | .block _, h => by
    rw [Statement.parts]
    exact Declarations.WellFormed.known h
  | .branch _ _ none, h => by
    rw [Statement.parts]
    exact List.forall_mem_append.mpr ⟨h.1.known, h.2.1.known⟩
  | .branch _ _ (some _), h => by
    rw [Statement.parts]
    exact List.forall_mem_append.mpr
      ⟨List.forall_mem_append.mpr ⟨h.1.known, h.2.1.1.known⟩, h.2.2.1.known⟩
  | .loop _ _, h => by
    rw [Statement.parts]
    exact List.forall_mem_append.mpr ⟨h.1.known, h.2.1.known⟩

theorem Declarations.WellFormed.known : ∀ {ds : Declarations}, Declarations.WellFormed ds →
    ∀ p ∈ Declarations.parts ds, p.Known
  | [], _ => by
    rw [Declarations.parts]
    intro p hp
    cases hp
  | none :: _, h => by
    rw [Declarations.parts]
    exact Declarations.WellFormed.known h
  | some _ :: _, h => by
    rw [Declarations.parts]
    exact List.forall_mem_append.mpr ⟨h.1.known, Declarations.WellFormed.known h.2⟩

end

/-! ### Known operators have something to do -/

theorem applyUnary_of_known {operator : Token} (h : (Part.sign operator).Known) (v : Value)
    (m : Malformed) : applyUnary operator v ≠ .error (.malformed m) := by
  unfold applyUnary Stop.at
  rcases h with h | h
  · rw [h]
    simp
  · rw [h]
    cases v <;> simp

/-- The operators on two numbers are those that are neither an equality nor `+`. -/
theorem isSome_numeric? {s : Symbol} (hs : s ∈ Symbol.binary) (he : s ≠ .equalEqual)
    (hb : s ≠ .bangEqual) (hp : s ≠ .plus) : (Kind.symbol s).numeric?.isSome = true := by
  simp only [Symbol.binary, List.mem_cons, List.not_mem_nil, or_false] at hs
  rcases hs with rfl | rfl | rfl | rfl | rfl | rfl | rfl | rfl | rfl | rfl <;> first
    | rfl
    | contradiction

theorem applyBinary_of_known {operator : Token} (h : (Part.operator operator).Known) (l r : Value)
    (m : Malformed) : applyBinary operator l r ≠ .error (.malformed m) := by
  obtain ⟨s, hs, hk⟩ := h
  unfold applyBinary Stop.at
  rw [hk]
  split
  · simp
  · simp
  · split <;> simp
  · rename_i hne hnb hnp
    have hsome := isSome_numeric? hs (fun h => hne (congrArg _ h)) (fun h => hnb (congrArg _ h))
      (fun h => hnp (congrArg _ h))
    obtain ⟨f, hf⟩ := Option.isSome_iff_exists.mp hsome
    rw [hf]
    split <;> simp

/-! ### What stops a program -/

/-- The action does not stop at an operator with nothing to do. -/
def Action.Meant {σ α : Type} (action : Action σ α) : Prop :=
  ∀ s m t, action s ≠ .error (.malformed m) t

namespace Action

variable {σ α β : Type}

theorem meant_pure (a : α) : (pure a : Action σ α).Meant := by
  intro s m t h
  cases h

theorem meant_ofExcept {e : Except Stop α} (h : ∀ m, e ≠ .error (.malformed m)) :
    (MonadExcept.ofExcept e : Action σ α).Meant := by
  intro s m t hs
  cases e with
  | ok a => cases hs
  | error stop =>
    cases hs
    exact h m rfl

theorem Meant.bind {action : Action σ α} {next : α → Action σ β} (h : action.Meant)
    (hn : ∀ a, (next a).Meant) : Meant (action >>= next) := by
  intro s m t hs
  rcases ha : action s with ⟨a, mid⟩ | ⟨stop, mid⟩
  · rw [bind_of_ok next ha] at hs
    exact hn a mid m t hs
  · rw [bind_of_error next ha] at hs
    cases hs
    exact h s m t ha

end Action

theorem lookup_meant (name : Token) : (lookup name).Meant := by
  intro env m t h
  unfold lookup at h
  split at h <;> cases h

theorem assign_meant (target : Token) (v : Value) : (assign target v).Meant := by
  intro env m t h
  unfold assign at h
  split at h <;> cases h

section Sinks

variable {W : Type}

theorem onVariables_meant {α : Type} {action : Action Environment α} (h : action.Meant) :
    (onVariables action : Action (State W) α).Meant := by
  intro st m t hs
  rcases ha : action st.environment with ⟨a, env⟩ | ⟨stop, env⟩
  · rw [onVariables_of_ok ha] at hs
    cases hs
  · rw [onVariables_of_error ha] at hs
    cases hs
    exact h st.environment m env ha

theorem inScope_meant {body : Action (State W) Unit} (h : body.Meant) : (inScope body).Meant := by
  intro st m t hs
  rcases hb : body ⟨st.environment.enter, st.sink⟩ with ⟨⟨⟩, last⟩ | ⟨stop, last⟩
  · rw [inScope_of_ok hb] at hs
    cases hs
  · rw [inScope_of_error hb] at hs
    cases hs
    exact h _ m last hb

variable [Output W]

theorem writeLine_meant (line : String) : (writeLine line : Action (State W) Unit).Meant := by
  intro st m t h
  rcases hw : Output.writeLine st.sink line with ⟨_ | reason, written⟩
  · rw [writeLine_of_taken hw] at h
    cases h
  · rw [writeLine_of_refused hw] at h
    cases h

theorem flush_meant : (flush : Action (State W) Unit).Meant := by
  intro st m t h
  rw [flush_eq] at h
  split at h <;> cases h

theorem meant_closed :
    Action.ClosedOn Part.Known Action.Meant (Action.Meant : {α : Type} → Action (State W) α → Prop) where
  value := Action.meant_pure
  looking _ := lookup_meant _
  assigning _ := assign_meant _
  signing h v := Action.meant_ofExcept (applyUnary_of_known h v)
  joining h l r := Action.meant_ofExcept (applyBinary_of_known h l r)
  goingOn h hn := h.bind hn
  nothing := Action.meant_pure ()
  exhausted := fun _ _ _ h => by cases h
  evaluating := onVariables_meant
  defining _ _ := fun _ _ _ h => by cases h
  writing := writeLine_meant
  flushing := flush_meant
  enclosing := inScope_meant
  andThen h hn := h.bind hn

theorem execute_meant (rounds : Nat) {s : Statement} (h : s.WellFormed) :
    (execute rounds s : Action (State W) Unit).Meant :=
  meant_closed.execute rounds s h.known

theorem interpret_meant (rounds : Nat) {program : Declarations}
    (h : Declarations.WellFormed program) :
    (interpret rounds program : Action (State W) Unit).Meant :=
  meant_closed.interpret rounds program h.known

/-- No run of a session stops at an operator. -/
theorem Session.run_meant (rounds : Nat) (source : String) (session next : Session W)
    (m : Malformed) :
    run rounds source session ≠ .error (.malformed m) next := by
  intro hr
  have hm := interpret_meant rounds (parse_wellFormed (scan source).tokens) (session.listed source)
  rw [run_eq] at hr
  split at hr
  · cases hr
  · split at hr
    · cases hr
    · cases hr
    · rename_i m' st hi
      exact hm m' st hi
    · cases hr

end Sinks

/-- **No program can make the interpreter give up.** Whatever the tokens, what is read of them has
only known operators, only identifiers for names, and declarations only in lists, at every depth;
so no statement of it, wherever it stands, no run of it whole and no run of a session ever stops at
an operator there is nothing to do for. -/
theorem read_programs_are_meant {W : Type} [Output W] (tokens : List Token) :
    Declarations.WellFormed (parse tokens).declarations ∧
    (∀ path s, (parse tokens).declarations.at? path = some s → ∀ rounds (st : State W) m last,
      execute rounds s st ≠ .error (.malformed m) last) ∧
    (∀ rounds (st : State W) m last,
      interpret rounds (parse tokens).declarations st ≠ .error (.malformed m) last) ∧
    ∀ rounds source (session : Session W) m next,
      Session.run rounds source session ≠ .error (.malformed m) next := by
  have hw := parse_wellFormed tokens
  refine ⟨hw, fun path s hs rounds => ?_, fun rounds => interpret_meant rounds hw, ?_⟩
  · exact execute_meant rounds ((wellFormed_at? path).2 _ s hw hs)
  · exact fun rounds source session m next => Session.run_meant rounds source session next m

/-- `{ -a + b = c; !; }`, where neither of the two statements is right. -/
theorem read_programs_are_meant_of_recovered :
    let a : Token := ⟨.identifier "a", "a", 1⟩
    let b : Token := ⟨.identifier "b", "b", 1⟩
    let c : Token := ⟨.identifier "c", "c", 1⟩
    let minus : Token := ⟨.symbol .minus, "-", 1⟩
    let plus : Token := ⟨.symbol .plus, "+", 1⟩
    let equals : Token := ⟨.symbol .equal, "=", 1⟩
    let bang : Token := ⟨.symbol .bang, "!", 1⟩
    let semicolon : Token := ⟨.symbol .semicolon, ";", 1⟩
    let tokens := [⟨.symbol .leftBrace, "\x7b", 1⟩, minus, a, plus, b, equals, c, semicolon, bang,
      semicolon, ⟨.symbol .rightBrace, "\x7d", 1⟩, ⟨.endOfInput, "", 1⟩]
    let s : Statement := .evaluate (.binary (.unary minus (.name a)) plus (.name b))
    (parse tokens).complaints = [⟨some equals, .assignmentTarget⟩, ⟨some semicolon, .expression⟩] ∧
      (parse tokens).declarations.at? [.first, .inside, .first] = some s ∧
      ∀ rounds (st : State) m last, execute rounds s st ≠ .error (.malformed m) last := by
  intro a b c minus plus equals bang semicolon tokens s
  have hs : (parse tokens).declarations.at? [.first, .inside, .first] = some s := by cbv
  exact ⟨by cbv, hs, (read_programs_are_meant tokens).2.1 [.first, .inside, .first] s hs⟩

end Lox

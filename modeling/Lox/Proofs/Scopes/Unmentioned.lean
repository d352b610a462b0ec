/-
# Names a program does not mention

A program that does not mention a name neither depends on what the scopes bind
it to nor changes that. Two states that differ in the bindings of the name
alone are led to the same result, the same output and environments that again
differ in these alone; and every scope binds the name as it did.

Key definitions: `Environment.without`, `Environment.bindings`, `State.without`.
Key theorems: `interpret_respects`, `interpret_keeps_bindings`, `unmentioned_names_are_inert`.
-/
import Lox.Proofs.Parts
import Lox.Proofs.Sinks.Seen

namespace Lox

variable {x name : String}

/-! ### Scopes without a name -/

/-- What a scope binds the names other than `x` to. -/
def Scope.without (x : String) (scope : Scope) : String → Option Value :=
  fun name => if name = x then none else scope.get? name

theorem Scope.get?_without (h : name ≠ x) (scope : Scope) :
    scope.without x name = scope.get? name := if_neg h

theorem Scope.get?_insert (name other : String) (v : Value) (scope : Scope) :
    (scope.insert name v).get? other = if name = other then some v else scope.get? other := by
  by_cases h : name = other
  · rw [if_pos h, ← h, Scope.get?_insert_self]
  · rw [if_neg h, Scope.get?_insert_of_ne v h]

/-- A binding more is the same to scopes that bind the other names alike. -/
theorem Scope.without_insert {scope other : Scope} (h : scope.without x = other.without x)
    (name : String) (v : Value) :
    (scope.insert name v).without x = (other.insert name v).without x := by
  funext y
  by_cases hy : y = x
  · rw [hy]
    exact (if_pos rfl).trans (if_pos rfl).symm
  · have hg : scope.get? y = other.get? y := by
      rw [← get?_without hy, ← get?_without hy, h]
    rw [get?_without hy, get?_without hy, get?_insert, get?_insert, hg]

namespace Environment

/-- What the scopes bind the names other than `x` to, the innermost first. -/
def without (x : String) (env : Environment) : List (String → Option Value) :=
  env.scopes.map (Scope.without x)

/-- What each scope binds `x` to, the innermost first. -/
def bindings (x : String) (env : Environment) : List (Option Value) :=
  env.scopes.map (Scope.get? x)

/-- A look-up of another name does not depend on `x`. -/
theorem get?_eq_findSome?_without (h : name ≠ x) (env : Environment) :
    env.get? name = (env.without x).findSome? fun binds => binds name := by
  rw [without, List.findSome?_map, get?]
  congr 1
  funext scope
  exact (Scope.get?_without h scope).symm

theorem assignIn_without (h : name ≠ x) (v : Value) : ∀ {scopes others : List Scope},
    scopes.map (Scope.without x) = others.map (Scope.without x) →
    (assignIn name v scopes).map (List.map (Scope.without x)) =
      (assignIn name v others).map (List.map (Scope.without x))
  | [], [], _ => rfl
  | scope :: scopes, other :: others, hs => by
    rw [List.map_cons, List.map_cons] at hs
    obtain ⟨hscope, hrest⟩ := List.cons.inj hs
    have hg : scope.get? name = other.get? name := by
      rw [← Scope.get?_without h, ← Scope.get?_without h, hscope]
    have ih := assignIn_without h v hrest
    rw [assignIn, assignIn, ← hg]
    cases scope.get? name with
    | some old =>
      simp only [Option.map_some, List.map_cons, hrest, Scope.without_insert hscope]
    | none =>
      have hcons : List.map (Scope.without x) ∘ List.cons scope =
          List.cons (scope.without x) ∘ List.map (Scope.without x) := rfl
      have hcons' : List.map (Scope.without x) ∘ List.cons other =
          List.cons (scope.without x) ∘ List.map (Scope.without x) := by
        rw [hscope]
        rfl
      simp only [Option.map_map, hcons, hcons']
      rw [← Option.map_map, ← Option.map_map, ih]

/-- An assignment to another name does not depend on `x`. -/
theorem assign?_without (h : name ≠ x) (v : Value) {env other : Environment}
    (he : env.without x = other.without x) :
    (env.assign? name v).map (without x) = (other.assign? name v).map (without x) := by
  have hm : ∀ e : Environment, (e.assign? name v).map (without x) =
      (assignIn name v e.scopes).map (List.map (Scope.without x)) := by
    intro e
    rw [← scopes_assign?, Option.map_map]
    rfl
  rw [hm, hm, assignIn_without h v he]

theorem define_without {env other : Environment} (he : env.without x = other.without x)
    (name : String) (v : Value) :
    (env.define name v).without x = (other.define name v).without x := by
  obtain ⟨hi, ho⟩ := List.cons.inj he
  show (env.innermost.insert name v).without x :: env.outer.map _ =
    (other.innermost.insert name v).without x :: other.outer.map _
  rw [Scope.without_insert hi, ho]

theorem enter_without {env other : Environment} (he : env.without x = other.without x) :
    env.enter.without x = other.enter.without x :=
  congrArg (Scope.without x [] :: ·) he

theorem leave_without {env other : Environment} (he : env.without x = other.without x) :
    env.leave.without x = other.leave.without x := by
  rcases env with ⟨innermost, _ | ⟨scope, outer⟩⟩ <;>
    rcases other with ⟨innermost', _ | ⟨scope', outer'⟩⟩
  · exact he
  · simp [without, scopes] at he
  · simp [without, scopes] at he
  · exact (List.cons.inj he).2

/-! ### The bindings of a name -/

theorem bindings_define (h : name ≠ x) (env : Environment) (v : Value) :
    (env.define name v).bindings x = env.bindings x := by
  show (env.innermost.insert name v).get? x :: env.outer.map _ = env.innermost.get? x :: env.outer.map _
  rw [Scope.get?_insert_of_ne v h]

theorem bindings_assignIn (h : name ≠ x) {v : Value} : ∀ {scopes assigned : List Scope},
    assignIn name v scopes = some assigned →
    assigned.map (Scope.get? x) = scopes.map (Scope.get? x)
  | [], _, ha => by simp [assignIn] at ha
  | scope :: rest, assigned, ha => by
    unfold assignIn at ha
    split at ha
    · cases ha
      rw [List.map_cons, Scope.get?_insert_of_ne v h, List.map_cons]
    · obtain ⟨tail, ht, rfl⟩ := Option.map_eq_some_iff.mp ha
      rw [List.map_cons, bindings_assignIn h ht, List.map_cons]

theorem bindings_assign? (h : name ≠ x) {v : Value} {env assigned : Environment}
    (ha : env.assign? name v = some assigned) : assigned.bindings x = env.bindings x := by
  apply bindings_assignIn h (v := v)
  rw [← scopes_assign?, ha]
  rfl

theorem bindings_leave {env : Environment} {inner outer : Option Value} {rest : List (Option Value)}
    (h : env.bindings x = inner :: outer :: rest) : env.leave.bindings x = outer :: rest := by
  rcases env with ⟨innermost, _ | ⟨scope, scopes⟩⟩
  · cases h
  · exact (List.cons.inj h).2

end Environment

/-! ### Actions that do not see the difference -/

theorem lookup_respects {token : Token} (h : token.lexeme ≠ x) :
    (lookup token).Respects (Environment.without x) := by
  intro env other he
  have hg : env.get? token.lexeme = other.get? token.lexeme := by
    rw [Environment.get?_eq_findSome?_without h, Environment.get?_eq_findSome?_without h, he]
  unfold lookup
  rw [← hg]
  cases env.get? token.lexeme with
  | some v => exact congrArg (EStateM.Result.ok v) he
  | none => exact congrArg (EStateM.Result.error _) he

theorem assign_respects {target : Token} (h : target.lexeme ≠ x) (v : Value) :
    (assign target v).Respects (Environment.without x) := by
  intro env other he
  have ha := Environment.assign?_without h v he
  unfold assign
  rcases h₁ : env.assign? target.lexeme v with _ | assigned <;>
    rcases h₂ : other.assign? target.lexeme v with _ | assigned' <;> rw [h₁, h₂] at ha
  · exact congrArg (EStateM.Result.error _) he
  · cases ha
  · cases ha
  · exact congrArg (EStateM.Result.ok ()) (Option.some.inj ha)

section Actions

variable {W : Type}

/-- What of a state does not depend on the bindings of `x`. -/
def State.without (x : String) (st : State W) : List (String → Option Value) × W :=
  (st.environment.without x, st.sink)

theorem State.without_eq_seen :
    (State.without x : State W → _) = State.seen (Environment.without x) id := rfl

theorem onVariables_respects {α : Type} {action : Action Environment α}
    (h : action.Respects (Environment.without x)) :
    (onVariables action).Respects (State.without x : State W → _) := by
  rw [State.without_eq_seen]
  exact onVariables_respects_seen h id

theorem define_respects (name : String) (v : Value) :
    (define name v).Respects (State.without x : State W → _) := by
  rw [State.without_eq_seen]
  exact define_respects_seen name v (fun he => Environment.define_without he name v) id

theorem inScope_respects {body : Action (State W) Unit} (h : body.Respects (State.without x)) :
    (inScope body).Respects (State.without x) := by
  rw [State.without_eq_seen] at h ⊢
  exact inScope_respects_seen Environment.enter_without Environment.leave_without h

variable [Output W]

theorem writeLine_respects (line : String) :
    (writeLine line).Respects (State.without x : State W → _) := by
  rw [State.without_eq_seen]
  exact writeLine_respects_seen Output.observes_id line

theorem flush_respects : flush.Respects (State.without x : State W → _) := by
  intro st other he
  obtain ⟨henv, hsink⟩ := Prod.mk.inj he
  rw [flush_eq, flush_eq, ← hsink]
  split
  · exact congrArg (EStateM.Result.ok ()) (Prod.ext henv rfl)
  · exact congrArg (EStateM.Result.error _) (Prod.ext henv rfl)

theorem lexeme_ne {token : Token} (h : some token.lexeme ≠ some x) : token.lexeme ≠ x :=
  fun he => h (congrArg some he)

theorem respects_closed (x : String) :
    Action.ClosedOn (fun p => p.name? ≠ some x) (Action.Respects (Environment.without x))
      (Action.Respects (State.without x : State W → _)) where
  value := Action.respects_pure
  looking h := lookup_respects (lexeme_ne h)
  assigning h v := assign_respects (lexeme_ne h) v
  signing _ _ := Action.respects_ofExcept _
  joining _ _ _ := Action.respects_ofExcept _
  goingOn h hn := h.bind hn
  nothing := Action.respects_pure ()
  exhausted := Action.respects_throw .outOfRounds
  evaluating := onVariables_respects
  defining {name} _ v := define_respects name.lexeme v
  writing := writeLine_respects
  flushing := flush_respects
  enclosing := inScope_respects
  andThen h hn := h.bind hn

end Actions

/-! ### Actions that leave the name alone -/

theorem lookup_keeps_bindings (token : Token) : (lookup token).Keeps (Environment.bindings x) := by
  intro env
  unfold Action.after lookup
  cases env.get? token.lexeme <;> rfl

theorem assign_keeps_bindings {target : Token} (h : target.lexeme ≠ x) (v : Value) :
    (assign target v).Keeps (Environment.bindings x) := by
  intro env
  unfold Action.after assign
  cases ha : env.assign? target.lexeme v with
  | none => rfl
  | some assigned => exact Environment.bindings_assign? h ha

section Bindings

variable {W : Type}

theorem inScope_keeps_bindings {body : Action (State W) Unit}
    (h : body.Keeps fun st => st.environment.bindings x) :
    (inScope body).Keeps fun st => st.environment.bindings x := by
  intro st
  have hs : (body.after ⟨st.environment.enter, st.sink⟩).environment.bindings x =
      none :: st.environment.bindings x := h ⟨st.environment.enter, st.sink⟩
  have hleave : ∀ last : State W, last.environment.bindings x = none :: st.environment.bindings x →
      last.environment.leave.bindings x = st.environment.bindings x :=
    fun last hl => Environment.bindings_leave hl
  rcases hb : body ⟨st.environment.enter, st.sink⟩ with ⟨⟨⟩, last⟩ | ⟨stop, last⟩
  · rw [Action.after_of_ok hb] at hs
    rw [Action.after_of_ok (inScope_of_ok hb)]
    exact hleave last hs
  · rw [Action.after_of_error hb] at hs
    rw [Action.after_of_error (inScope_of_error hb)]
    exact hleave last hs

variable [Output W]

theorem keeps_bindings_closed (x : String) :
    Action.ClosedOn (fun p => p.name? ≠ some x) (Action.Keeps (Environment.bindings x))
      (Action.Keeps fun st : State W => st.environment.bindings x) where
  value := Action.keeps_pure
  looking _ := lookup_keeps_bindings _
  assigning h v := assign_keeps_bindings (lexeme_ne h) v
  signing _ _ := Action.keeps_ofExcept _
  joining _ _ _ := Action.keeps_ofExcept _
  goingOn h hn := h.bind hn
  nothing := Action.keeps_pure ()
  exhausted _ := rfl
  evaluating := onVariables_keeps
  defining h v st := Environment.bindings_define (lexeme_ne h) st.environment v
  writing line st := congrArg (Environment.bindings x) (writeLine_keeps_environment line st)
  flushing st := congrArg (Environment.bindings x) (environment_flush st)
  enclosing := inScope_keeps_bindings
  andThen h hn := h.bind hn

end Bindings

/-! ### Programs -/

section Programs

variable {W : Type} [Output W]

theorem name?_ne_of_not_mem {program : Declarations} (h : x ∉ program.names) :
    ∀ p ∈ Declarations.parts program, p.name? ≠ some x :=
  fun p hp he => h (List.mem_filterMap.mpr ⟨p, hp, he⟩)

theorem interpret_respects (rounds : Nat) {program : Declarations} (h : x ∉ program.names) :
    (interpret rounds program).Respects (State.without x : State W → _) :=
  (respects_closed x).interpret rounds program (name?_ne_of_not_mem h)

theorem interpret_keeps_bindings (rounds : Nat) {program : Declarations} (h : x ∉ program.names) :
    (interpret rounds program).Keeps fun st : State W => st.environment.bindings x :=
  (keeps_bindings_closed x).interpret rounds program (name?_ne_of_not_mem h)

/-- The program ends, in success or of a failure, if its loops may go round for long enough. -/
def Terminates (program : Declarations) (st : State W) : Prop :=
  ∃ rounds failure last, interpret rounds program st = ending failure last

theorem terminates_of_respects {τ : Type} {program : Declarations} {view : State W → τ}
    {st other : State W} (h : ∀ rounds, mapState view (interpret rounds program st) =
      mapState view (interpret rounds program other)) (ht : Terminates program st) :
    Terminates program other := by
  obtain ⟨rounds, failure, last, hi⟩ := ht
  rcases mapState_eq (h rounds) with ⟨⟨⟩, _, last', -, ho, -⟩ | ⟨stop, _, last', hs, ho, -⟩
  · exact ⟨rounds, none, last', ho⟩
  · rw [hi] at hs
    cases failure with
    | none => cases hs
    | some f =>
      cases hs
      exact ⟨rounds, some f, last', ho⟩

/-- **Names a program does not mention are inert.** Let `x` be no name that the program, read or
not, looks up, assigns to or declares. From two states with the same sink, and environments as
deep as each other and equal once `x` is taken out of every scope, the program ends or does not
end alike; for any number of rounds it comes to the same result, with the same failure on the same
line if it fails, and leaves the same sink and environments that are again equal without `x`. And
every scope binds `x` as it did before, or still does not. -/
theorem unmentioned_names_are_inert {program : Declarations} (h : x ∉ program.names) :
    (∀ st other : State W, st.environment.without x = other.environment.without x →
      st.sink = other.sink →
      (Terminates program st ↔ Terminates program other) ∧
      ∀ rounds, mapState (State.without x) (interpret rounds program st) =
        mapState (State.without x) (interpret rounds program other)) ∧
    ∀ rounds (st : State W),
      ((interpret rounds program).after st).environment.bindings x = st.environment.bindings x := by
  refine ⟨fun st other he hsink => ?_, fun rounds => interpret_keeps_bindings rounds h⟩
  have hview : st.without x = other.without x := Prod.ext he hsink
  have hsame : ∀ rounds, mapState (State.without x) (interpret rounds program st) =
      mapState (State.without x) (interpret rounds program other) :=
    fun rounds => interpret_respects rounds h st other hview
  refine ⟨⟨terminates_of_respects hsame, ?_⟩, hsame⟩
  exact terminates_of_respects fun rounds => (hsame rounds).symm

end Programs

/-- `{ var y = true; z = y; w; }` fails in its block, once with the two scopes around it binding `x`
to different values and once with only one of them binding it. -/
theorem unmentioned_names_are_inert_in_block :
    let y : Token := ⟨.identifier "y", "y", 1⟩
    let z : Token := ⟨.identifier "z", "z", 1⟩
    let w : Token := ⟨.identifier "w", "w", 2⟩
    let program : Declarations := [some (.block [some (.declare y (some (.literal (.boolean true)))),
      some (.evaluate (.assign z (.name y))), some (.evaluate (.name w))])]
    let st : State := ⟨⟨[("x", .nil), ("z", .nil)], [[("x", .boolean true)]]⟩, {}⟩
    let other : State := ⟨⟨[("z", .nil)], [[("x", .boolean false)]]⟩, {}⟩
    "x" ∉ program.names ∧ st.environment.without "x" = other.environment.without "x" ∧
      st.sink = other.sink ∧ (Terminates program st ↔ Terminates program other) ∧
      mapState (State.without "x") (interpret 1 program st) =
        mapState (State.without "x") (interpret 1 program other) ∧
      interpret 1 program st = .error (.at w (.undefinedVariable "w"))
        ⟨⟨[("x", .nil), ("z", .boolean true)], [[("x", .boolean true)]]⟩, {}⟩ ∧
      ((interpret 1 program).after other).environment.bindings "x" = [none, some (.boolean false)] := by
  intro y z w program st other
  have h : "x" ∉ program.names := by decide
  have he : st.environment.without "x" = other.environment.without "x" := by
    have hx : ∀ (v : Value) (scope : Scope), Scope.without "x" (("x", v) :: scope) =
        Scope.without "x" scope := by
      intro v scope
      funext name
      by_cases hn : name = "x"
      · exact (if_pos hn).trans (if_pos hn).symm
      · rw [Scope.get?_without hn, Scope.get?_without hn, Scope.get?, if_neg fun e => hn e.symm]
    show [Scope.without "x" _, Scope.without "x" _] = [Scope.without "x" _, Scope.without "x" _]
    rw [hx, hx, hx]
  obtain ⟨hother, hkept⟩ := @unmentioned_names_are_inert "x" Sink _ program h
  obtain ⟨hends, hsame⟩ := hother st other he rfl
  exact ⟨h, he, rfl, hends, hsame 1, rfl, hkept 1 other⟩

end Lox

/-
# Names are found lexically

Which scope a name is found in can be told from the program. One walk over
its tree keeps a list of names for every block around a place and one for
the global scope, adds the name of a declaration to the list it stands in
once its initializer is passed, and notes for each place of a name the innermost
list that has the name. Whenever a run looks the name at that place up, in
whatever round of whatever loop, it finds it in that scope.

Key definitions: `scopeOf?`, `Expression.walk`, `Statement.walk`, `Declarations.walk`,
`Environment.Finds`.
Key theorems: `Environment.finds_scopeOf?`, `Comes.walk`, `LooksUp.mem_walk`,
`lookup_is_lexical`.
-/
import Lox.Proofs.Scopes.Lookups
import Lox.Proofs.Scopes.Restored

namespace Lox

/-! ### The walk -/

/-- The innermost scope with the name, counted from the global one. -/
def scopeOf? (name : String) : (names : List (List String)) → Option Nat
  | [] => none
  | inner :: outer => if name ∈ inner then some outer.length else scopeOf? name outer

/-- The places of names, each with the scope it is to be found in. -/
abbrev Table := List (Path × Option Nat)

/-- The places one turn further away. -/
def Table.along (turn : Turn) (table : Table) : Table :=
  table.map fun (path, scope) => (turn :: path, scope)

def Expression.walk (names : List (List String)) : Expression → Table
  | .literal _ => []
  | .group inner => (inner.walk names).along .inner
  | .name token => [([], scopeOf? token.lexeme names)]
  | .assign target value =>
    ([], scopeOf? target.lexeme names) :: (value.walk names).along .value
  | .unary _ operand => (operand.walk names).along .operand
  | .binary left _ right => (left.walk names).along .left ++ (right.walk names).along .right
  | .logical left _ right => (left.walk names).along .left ++ (right.walk names).along .right

/-- The names after a statement that stands in a list. -/
def Statement.extend (names : List (List String)) : Statement → List (List String)
  | .declare token _ =>
    match names with
    | [] => []
    | inner :: outer => withName token.lexeme inner :: outer
  | _ => names

mutual

def Statement.walk (names : List (List String)) : Statement → Table
  | .print value => (value.walk names).along .head
  | .evaluate e => (e.walk names).along .head
  | .declare _ none => []
  | .declare _ (some e) => (e.walk names).along .head
  | .block body => (Declarations.walk ([] :: names) body).along .inside
  | .branch condition yes none =>
    (condition.walk names).along .head ++ (yes.walk names).along .yes
  | .branch condition yes (some no) =>
    (condition.walk names).along .head ++ ((yes.walk names).along .yes ++ (no.walk names).along .no)
  | .loop condition body =>
    (condition.walk names).along .head ++ (body.walk names).along .body

def Declarations.walk (names : List (List String)) : Declarations → Table
  | [] => []
  | none :: rest => (Declarations.walk names rest).along .later
  | some s :: rest =>
    (s.walk names).along .first ++ (Declarations.walk (s.extend names) rest).along .later

end

/-! ### Each place is walked once -/

namespace Table

theorem mem_along {turn : Turn} {table : Table} {path : Path} {scope : Option Nat}
    (h : (path, scope) ∈ table) : (turn :: path, scope) ∈ table.along turn :=
  List.mem_map.mpr ⟨(path, scope), h, rfl⟩

/-- The places of the table are different from each other. -/
def Apart (table : Table) : Prop := (table.map Prod.fst).Nodup

theorem apart_nil : Apart [] := List.nodup_nil

theorem Apart.along {table : Table} (h : table.Apart) (turn : Turn) : (table.along turn).Apart := by
  have hm : (table.along turn).map Prod.fst = (table.map Prod.fst).map (turn :: ·) := by
    unfold Table.along
    rw [List.map_map, List.map_map]
    rfl
  unfold Apart
  rw [hm]
  exact List.Pairwise.map _ (fun _ _ hne he => hne (List.cons.inj he).2) h

/-- The first turn of every place is one of `turns`. -/
def Within (turns : List Turn) (table : Table) : Prop :=
  ∀ path ∈ table.map Prod.fst, ∃ turn ∈ turns, ∃ more, path = turn :: more

theorem within_along (turn : Turn) (table : Table) : (table.along turn).Within [turn] := by
  intro path hp
  obtain ⟨⟨path', scope⟩, he, rfl⟩ := List.mem_map.mp hp
  obtain ⟨⟨more, scope'⟩, -, he⟩ := List.mem_map.mp he
  cases he
  exact ⟨turn, List.mem_singleton_self turn, more, rfl⟩

theorem Within.append {turns turns' : List Turn} {table table' : Table} (h : table.Within turns)
    (h' : table'.Within turns') : (table ++ table').Within (turns ++ turns') := by
  intro path hp
  rw [List.map_append, List.mem_append] at hp
  rcases hp with hp | hp
  · obtain ⟨turn, ht, hm⟩ := h path hp
    exact ⟨turn, List.mem_append_left _ ht, hm⟩
  · obtain ⟨turn, ht, hm⟩ := h' path hp
    exact ⟨turn, List.mem_append_right _ ht, hm⟩

theorem Apart.append {turns turns' : List Turn} {table table' : Table} (h : table.Apart)
    (h' : table'.Apart) (hw : table.Within turns) (hw' : table'.Within turns')
    (hd : ∀ turn ∈ turns, turn ∉ turns') : (table ++ table').Apart := by
  unfold Apart
  rw [List.map_append]
  refine List.nodup_append.mpr ⟨h, h', fun path hp path' hp' he => ?_⟩
  obtain ⟨turn, ht, more, rfl⟩ := hw path hp
  obtain ⟨turn', ht', more', rfl⟩ := hw' path' hp'
  cases he
  exact hd turn ht ht'

/-- The tables of two parts that are reached by different turns. -/
theorem Apart.beside {table table' : Table} {turn turn' : Turn} (h : table.Apart)
    (h' : table'.Apart) (hne : turn ≠ turn') : (table.along turn ++ table'.along turn').Apart := by
  apply (h.along turn).append (h'.along turn') (within_along turn table) (within_along turn' table')
  intro t ht ht'
  rw [List.mem_singleton] at ht ht'
  exact hne (ht.symm.trans ht')

end Table

theorem Expression.walk_apart (names : List (List String)) : ∀ e : Expression, (e.walk names).Apart
  | .literal _ => Table.apart_nil
  | .group inner => (inner.walk_apart names).along .inner
  | .name _ => List.nodup_cons.mpr ⟨List.not_mem_nil, List.nodup_nil⟩
  | .assign target value => by
    unfold walk Table.Apart
    rw [List.map_cons]
    refine List.nodup_cons.mpr ⟨fun h => ?_, (value.walk_apart names).along .value⟩
    obtain ⟨turn, -, more, he⟩ := Table.within_along .value (value.walk names) _ h
    cases he
  | .unary _ operand => (operand.walk_apart names).along .operand
  | .binary left _ right => (left.walk_apart names).beside (right.walk_apart names) (by decide)
  | .logical left _ right => (left.walk_apart names).beside (right.walk_apart names) (by decide)

mutual

theorem Statement.walk_apart : ∀ (s : Statement) (names : List (List String)), (s.walk names).Apart
  | .print value, names => by
    unfold Statement.walk
    exact (value.walk_apart names).along .head
  | .evaluate e, names => by
    unfold Statement.walk
    exact (e.walk_apart names).along .head
  | .declare _ none, _ => by
    unfold Statement.walk
    exact Table.apart_nil
  | .declare _ (some e), names => by
    unfold Statement.walk
    exact (e.walk_apart names).along .head
  | .block body, names => by
    unfold Statement.walk
    exact (Declarations.walk_apart body ([] :: names)).along .inside
  | .branch condition yes none, names => by
    unfold Statement.walk
    exact (condition.walk_apart names).beside (Statement.walk_apart yes names) (by decide)
  | .branch condition yes (some no), names => by
    have hb : ((yes.walk names).along .yes ++ (no.walk names).along .no).Apart :=
      (Statement.walk_apart yes names).beside (Statement.walk_apart no names) (by decide)
    have hw := (Table.within_along .yes (yes.walk names)).append
      (Table.within_along .no (no.walk names))
    have hh := Table.within_along .head (condition.walk names)
    unfold Statement.walk
    exact ((condition.walk_apart names).along .head).append hb hh hw (by decide)
  | .loop condition body, names => by
    unfold Statement.walk
    exact (condition.walk_apart names).beside (Statement.walk_apart body names) (by decide)

theorem Declarations.walk_apart : ∀ (ds : Declarations) (names : List (List String)),
    (Declarations.walk names ds).Apart
  | [], _ => by
    unfold Declarations.walk
    exact Table.apart_nil
  | none :: rest, names => by
    unfold Declarations.walk
    exact (Declarations.walk_apart rest names).along .later
  | some s :: rest, names => by
    unfold Declarations.walk
    exact (Statement.walk_apart s names).beside (Declarations.walk_apart rest _) (by decide)

end

/-! ### What is looked up is walked -/

/-- Where a name is looked up, the walk has it. -/
theorem Looks.mem_walk {e : Expression} {env env' : Environment} {path : Path} {token : Token}
    (h : Looks e env path token env') :
    (path, scopeOf? token.lexeme env'.names) ∈ e.walk env.names := by
  induction h with
  | name token env => exact List.mem_singleton_self _
  | target hv =>
    rw [(evaluate_keeps_names _).of_ok hv]
    exact List.mem_cons_self
  | value _ ih => exact List.mem_cons_of_mem _ (Table.mem_along ih)
  | inner _ ih => exact Table.mem_along ih
  | operand _ ih => exact Table.mem_along ih
  | left _ ih => exact List.mem_append_left _ (Table.mem_along ih)
  | right hl _ ih =>
    rw [(evaluate_keeps_names _).of_ok hl] at ih
    exact List.mem_append_right _ (Table.mem_along ih)
  | first _ ih => exact List.mem_append_left _ (Table.mem_along ih)
  | second hl _ _ ih =>
    rw [(evaluate_keeps_names _).of_ok hl] at ih
    exact List.mem_append_right _ (Table.mem_along ih)

/-- The walk of a statement has that of its own expression. -/
theorem Statement.walk_head {e : Expression} {names : List (List String)} {path : Path}
    {scope : Option Nat} (hm : (path, scope) ∈ e.walk names) : ∀ {s : Statement},
      s.head? = some e → (.head :: path, scope) ∈ s.walk names
  | .print _, h => by
    cases h
    unfold Statement.walk
    exact Table.mem_along hm
  | .evaluate _, h => by
    cases h
    unfold Statement.walk
    exact Table.mem_along hm
  | .declare _ (some _), h => by
    cases h
    unfold Statement.walk
    exact Table.mem_along hm
  | .branch _ _ none, h => by
    cases h
    unfold Statement.walk
    exact List.mem_append_left _ (Table.mem_along hm)
  | .branch _ _ (some _), h => by
    cases h
    unfold Statement.walk
    exact List.mem_append_left _ (Table.mem_along hm)
  | .loop _ _, h => by
    cases h
    unfold Statement.walk
    exact List.mem_append_left _ (Table.mem_along hm)

/-- A loop is before each round in the scopes it was entered in. -/
theorem names_of_goes {W : Type} [Output W] {rounds n : Nat} {condition : Expression}
    {body : Statement} {st here : State W} (hb : body.IsBody) (h : Goes (holds condition) (execute rounds body) n st here) :
    here.environment.names = st.environment.names := by
  induction h with
  | nowhere => rfl
  | @round n st mid next last ht hs _ ih =>
    have hm := (holds_keeps_names condition).of_ok ht
    have hn := @names_of_isBody _ _ rounds body hb mid
    rw [Action.after_of_ok hs] at hn
    rw [ih, hn, hm]

/-- Behind a statement of a list that comes to its end, the names are those the walk goes on with. -/
theorem names_of_ok {W : Type} [Output W] {rounds : Nat} {s : Statement} {st mid : State W}
    (h : s.WellFormed) (hs : execute rounds s st = .ok () mid) :
    mid.environment.names = s.extend st.environment.names := by
  by_cases hd : s.isDeclaration = true
  · cases s with
    | declare token initializer =>
      have hdefine (env : Environment) (v : Value) (he : env.names = st.environment.names) :
          (env.define token.lexeme v).names =
            (Statement.declare token initializer).extend st.environment.names := by
        rw [← he, Environment.names_define]
        rfl
      cases initializer with
      | none =>
        rw [execute] at hs
        cases hs
        exact hdefine st.environment .nil rfl
      | some e =>
        rw [execute] at hs
        rcases he : evaluate e st.environment with ⟨v, env⟩ | ⟨stop, env⟩
        · rw [Action.bind_of_ok _ (onVariables_of_ok he)] at hs
          cases hs
          exact hdefine env v ((evaluate_keeps_names e).of_ok he)
        · rw [Action.bind_of_error _ (onVariables_of_error he)] at hs
          cases hs
    | _ => cases hd
  · rw [Bool.not_eq_true] at hd
    have hn := @names_of_isBody _ _ rounds s ⟨h, hd⟩ st
    rw [Action.after_of_ok hs] at hn
    rw [hn]
    cases s with
    | declare => cases hd
    | _ => rfl

mutual

/-- Where a run gets to, the walk goes on with the names there are then. -/
theorem Comes.walk {W : Type} [Output W] {rounds : Nat} : ∀ {s t : Statement} {st last : State W}
    {path place : Path} {scope : Option Nat}, Comes rounds s st path t last → s.WellFormed →
    (place, scope) ∈ t.walk last.environment.names →
    (path ++ place, scope) ∈ s.walk st.environment.names
  | _, _, _, _, _, _, _, .here _, _, hm => hm
  | _, _, _, _, _, _, _, .round _ hg, h, hm => by
    rw [names_of_goes h.2 hg] at hm
    exact hm
  | _, _, _, _, _, _, _, .body _ hg ht hc, h, hm => by
    have hw := hc.walk h.2.1 hm
    rw [(holds_keeps_names _).of_ok ht, names_of_goes h.2 hg] at hw
    unfold Statement.walk
    exact List.mem_append_right _ (Table.mem_along hw)
  | _, _, _, _, _, _, _, .inside hc, h, hm => by
    unfold Statement.walk
    exact Table.mem_along (hc.walk h hm)
  | .branch _ _ none, _, _, _, _, _, _, .yes ht hc, h, hm => by
    have hw := hc.walk h.2.1 hm
    rw [(holds_keeps_names _).of_ok ht] at hw
    unfold Statement.walk
    exact List.mem_append_right _ (Table.mem_along hw)
  | .branch _ _ (some _), _, _, _, _, _, _, .yes ht hc, h, hm => by
    have hw := hc.walk h.2.1.1 hm
    rw [(holds_keeps_names _).of_ok ht] at hw
    unfold Statement.walk
    exact List.mem_append_right _ (List.mem_append_left _ (Table.mem_along hw))
  | _, _, _, _, _, _, _, .no ht hc, h, hm => by
    have hw := hc.walk h.2.2.1 hm
    rw [(holds_keeps_names _).of_ok ht] at hw
    unfold Statement.walk
    exact List.mem_append_right _ (List.mem_append_right _ (Table.mem_along hw))

theorem ComesIn.walk {W : Type} [Output W] {rounds : Nat} : ∀ {ds : Declarations} {t : Statement}
    {st last : State W} {path place : Path} {scope : Option Nat}, ComesIn rounds ds st path t last →
    Declarations.WellFormed ds → (place, scope) ∈ t.walk last.environment.names →
    (path ++ place, scope) ∈ Declarations.walk st.environment.names ds
  | _, _, _, _, _, _, _, .first hc, h, hm => by
    unfold Declarations.walk
    exact List.mem_append_left _ (Table.mem_along (hc.walk h.1 hm))
  | _, _, _, _, _, _, _, .later hs hc, h, hm => by
    have hw := hc.walk h.2 hm
    rw [names_of_ok h.1 hs] at hw
    unfold Declarations.walk
    exact List.mem_append_right _ (Table.mem_along hw)
  | _, _, _, _, _, _, _, .skip hc, h, hm => by
    unfold Declarations.walk
    exact Table.mem_along (hc.walk h hm)

end

theorem LooksUp.mem_walk {W : Type} [Output W] {rounds : Nat} {ds : Declarations} {st : State W}
    {place : Path} {token : Token} {env : Environment} (h : LooksUp rounds ds st place token env)
    (hw : Declarations.WellFormed ds) :
    (place, scopeOf? token.lexeme env.names) ∈ Declarations.walk st.environment.names ds := by
  obtain ⟨path, s, last, e, inside, hc, he, hl, rfl⟩ := h
  exact hc.walk hw (Statement.walk_head hl.mem_walk he)

/-! ### Where a name is found -/

namespace Environment

/-- `get?` and `assign?` find the name in the scope with this number from the global one,
or neither finds it. -/
def Finds (env : Environment) (name : String) : (scope : Option Nat) → Prop
  | none => env.get? name = none ∧ ∀ v, env.assign? name v = none
  | some k =>
    ∃ inner scope outer, env.scopes = inner ++ scope :: outer ∧ outer.length = k ∧
      (∃ v, scope.get? name = some v ∧ env.get? name = some v) ∧
      ∀ v, ∃ assigned, env.assign? name v = some assigned ∧
        assigned.scopes = inner ++ scope.insert name v :: outer

theorem found_of_scopeOf? {name : String} {k : Nat} : ∀ {scopes : List Scope},
    scopeOf? name (scopes.map Scope.names) = some k →
    ∃ inner scope outer, scopes = inner ++ scope :: outer ∧ outer.length = k ∧
      (∃ v, scope.get? name = some v ∧ scopes.findSome? (Scope.get? name) = some v) ∧
      ∀ v, assignIn name v scopes = some (inner ++ scope.insert name v :: outer)
  | [], h => by cases h
  | scope :: rest, h => by
    rw [List.map_cons, scopeOf?] at h
    rcases hg : scope.get? name with _ | old
    · have hn : name ∉ scope.names := by
        rw [← Scope.isSome_get?, hg]
        decide
      rw [if_neg hn] at h
      obtain ⟨inner, found, outer, rfl, hk, ⟨v, hv, hf⟩, ha⟩ := found_of_scopeOf? h
      refine ⟨scope :: inner, found, outer, rfl, hk, ⟨v, hv, ?_⟩, fun v => ?_⟩
      · rw [List.findSome?_cons, hg]
        exact hf
      · unfold assignIn
        rw [hg, ha v]
        rfl
    · have hn : name ∈ scope.names := by
        rw [← Scope.isSome_get?, hg]
        rfl
      rw [if_pos hn, List.length_map] at h
      refine ⟨[], scope, rest, rfl, Option.some.inj h, ⟨old, hg, ?_⟩, fun v => ?_⟩
      · rw [List.findSome?_cons, hg]
      · unfold assignIn
        rw [hg]
        rfl

theorem findSome?_of_scopeOf? {name : String} : ∀ {scopes : List Scope},
    scopeOf? name (scopes.map Scope.names) = none → scopes.findSome? (Scope.get? name) = none
  | [], _ => rfl
  | scope :: rest, h => by
    rw [List.map_cons, scopeOf?] at h
    by_cases hn : name ∈ scope.names
    · rw [if_pos hn] at h
      cases h
    · rw [if_neg hn] at h
      have hg : scope.get? name = none := by
        rw [← Option.not_isSome_iff_eq_none, Scope.isSome_get?]
        exact hn
      rw [List.findSome?_cons, hg]
      exact findSome?_of_scopeOf? h

/-- A name is found in the innermost scope that has it. -/
theorem finds_scopeOf? (env : Environment) (name : String) :
    env.Finds name (scopeOf? name env.names) := by
  rcases hs : scopeOf? name env.names with _ | k
  · have hg : env.get? name = none := findSome?_of_scopeOf? hs
    refine ⟨hg, fun v => ?_⟩
    rw [← Option.not_isSome_iff_eq_none, isSome_assign?, hg]
    decide
  · obtain ⟨inner, scope, outer, he, hk, hg, ha⟩ := found_of_scopeOf? hs
    refine ⟨inner, scope, outer, he, hk, hg, fun v => ?_⟩
    have hm := scopes_assign? env name v
    rw [ha v] at hm
    obtain ⟨assigned, hass, hsc⟩ := Option.map_eq_some_iff.mp hm
    exact ⟨assigned, hass, hsc⟩

theorem Finds.get?_eq_none_iff {env : Environment} {name : String} : ∀ {scope : Option Nat},
    env.Finds name scope → (env.get? name = none ↔ scope = none)
  | none, h => ⟨fun _ => rfl, fun _ => h.1⟩
  | some k, h => by
    obtain ⟨_, _, _, _, _, ⟨v, _, hv⟩, _⟩ := h
    rw [hv]
    constructor
    · intro h
      cases h
    · intro h
      cases h

end Environment

theorem Table.Apart.unique : ∀ {table : Table} {path : Path} {scope scope' : Option Nat},
    table.Apart → (path, scope) ∈ table → (path, scope') ∈ table → scope = scope'
  | (place, found) :: rest, path, scope, scope', h, hm, hm' => by
    obtain ⟨hn, hr⟩ := List.nodup_cons.mp h
    have hout (other : Option Nat) (ho : (path, other) ∈ rest) : path ≠ place := by
      rintro rfl
      exact hn (List.mem_map.mpr ⟨_, ho, rfl⟩)
    rcases List.mem_cons.mp hm with he | hm <;> rcases List.mem_cons.mp hm' with he' | hm'
    · cases he
      cases he'
      rfl
    · cases he
      exact (hout scope' hm' rfl).elim
    · cases he'
      exact (hout scope hm rfl).elim
    · exact Table.Apart.unique hr hm hm'

/-- **Names are looked up lexically.** Whatever the tokens a program is read from, and
whatever global variables it is run with: the walk has each place once; a name that is
looked up is at a place the walk has, and is found, each time, in the scope the walk has
for it; and a run fails of an undefined variable exactly when it looks one up at a place
for which the walk has no scope. -/
theorem lookup_is_lexical {W : Type} [Output W] (tokens : List Token) (globals : Scope) (sink : W)
    (rounds : Nat) :
    let program := (parse tokens).declarations
    let start : State W := ⟨⟨globals, []⟩, sink⟩
    let table := Declarations.walk [globals.names] program
    (table.map Prod.fst).Nodup ∧
    (∀ place token env, LooksUp rounds program start place token env →
      place ∈ table.map Prod.fst ∧
        ∀ scope, (place, scope) ∈ table → env.Finds token.lexeme scope) ∧
    (∀ place token env, LooksUp rounds program start place token env → (place, none) ∈ table →
      ∃ last, interpret rounds program start = .error (.undefined token.line token.lexeme) last) ∧
    ∀ line name last, interpret rounds program start = .error (.undefined line name) last →
      ∃ place token env, LooksUp rounds program start place token env ∧ token.line = line ∧
        token.lexeme = name ∧ (place, none) ∈ table := by
  intro program start table
  have hw : Declarations.WellFormed program := parse_wellFormed tokens
  have ha : table.Apart := Declarations.walk_apart program [globals.names]
  have hmem : ∀ place token env, LooksUp rounds program start place token env →
      (place, scopeOf? token.lexeme env.names) ∈ table := fun _ _ _ h => h.mem_walk hw
  have hfinds : ∀ place token env, LooksUp rounds program start place token env →
      ∀ scope, (place, scope) ∈ table → env.Finds token.lexeme scope := by
    intro place token env h scope hs
    rw [ha.unique hs (hmem place token env h)]
    exact env.finds_scopeOf? token.lexeme
  refine ⟨ha, fun place token env h => ⟨?_, hfinds place token env h⟩, ?_, ?_⟩
  · exact List.mem_map.mpr ⟨_, hmem place token env h, rfl⟩
  · intro place token env h hs
    exact h.fails (hfinds place token env h none hs).1
  · intro line name last hi
    obtain ⟨place, token, env, h, hl, hn, hg⟩ := looksUp_of_fails hi
    refine ⟨place, token, env, h, hl, hn, ?_⟩
    have hm := hmem place token env h
    rw [← hn] at hg
    rwa [(env.finds_scopeOf? token.lexeme).get?_eq_none_iff.mp hg] at hm

/-- `{ var a; a; } b;` with a global `a`: the name in the block is the block's, and there
is no `b`. -/
theorem lookup_is_lexical_in_block :
    let a : Token := ⟨.identifier "a", "a", 1⟩
    let b : Token := ⟨.identifier "b", "b", 2⟩
    let semicolon : Token := ⟨.symbol .semicolon, ";", 1⟩
    let tokens := [⟨.symbol .leftBrace, "\x7b", 1⟩, ⟨.symbol .varWord, "var", 1⟩, a, semicolon, a,
      semicolon, ⟨.symbol .rightBrace, "\x7d", 1⟩, b, semicolon, ⟨.endOfInput, "", 2⟩]
    let program : Declarations := [some (.block [some (.declare a none), some (.evaluate (.name a))]),
      some (.evaluate (.name b))]
    let globals : Scope := [("a", .boolean true)]
    let start : State := ⟨⟨globals, []⟩, {}⟩
    let table := Declarations.walk [globals.names] program
    let env : Environment := ⟨[("a", .nil)], [globals]⟩
    (parse tokens).declarations = program ∧
      LooksUp 0 program start [.first, .inside, .later, .first, .head] a env ∧
      ([.first, .inside, .later, .first, .head], some 1) ∈ table ∧ env.Finds "a" (some 1) ∧
      LooksUp 0 program start [.later, .first, .head] b ⟨globals, []⟩ ∧
      ([.later, .first, .head], none) ∈ table ∧
      ∃ last, interpret 0 program start = .error (.undefined 2 "b") last := by
  intro a b semicolon tokens program globals start table env
  have hp : (parse tokens).declarations = program := by cbv
  obtain ⟨-, hfinds, hfails, -⟩ := lookup_is_lexical tokens globals ({} : Sink) 0
  rw [hp] at hfinds hfails
  have hn (token : Token) : ∀ condition body,
      Statement.evaluate (.name token) ≠ .loop condition body := fun _ _ h => by cases h
  have ha : LooksUp 0 program start [.first, .inside, .later, .first, .head] a env :=
    ⟨_, _, ⟨env, {}⟩, _, [], .first (.inside (.later rfl (.first (.here (hn a))))), rfl, .name a env, rfl⟩
  have hb : LooksUp 0 program start [.later, .first, .head] b ⟨globals, []⟩ :=
    ⟨_, _, start, _, [], .later rfl (.first (.here (hn b))), rfl, .name b _, rfl⟩
  have hta : ([.first, .inside, .later, .first, .head], some 1) ∈ table := by decide
  have htb : ([.later, .first, .head], none) ∈ table := by decide
  exact ⟨hp, ha, hta, (hfinds _ _ _ ha).2 _ hta, hb, htb, hfails _ _ _ hb htb⟩

end Lox

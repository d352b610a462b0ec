/-
# Environments

The variables of a running program live in a stack of scopes. The last scope
of the stack, the global one, is never removed, so a stack is never empty.
A name is looked up from the innermost scope outwards, and an assignment
changes the binding that the look-up finds.

Key definitions: `Scope`, `Environment`, `Environment.get?`, `Environment.assign?`,
`Environment.define`, `Environment.enter`, `Environment.leave`.
Key theorems: `Scope.get?_insert_self`, `Scope.get?_insert_of_ne`, `Environment.isSome_assign?`.
-/
import Lox.Value

namespace Lox

/-- The bindings of one scope; of two for a name the first counts. -/
abbrev Scope := List (String × Value)

namespace Scope

def get? (name : String) : Scope → Option Value
  | [] => none
  | (key, value) :: rest => if key = name then some value else get? name rest

/-- Binds `name`, in place of the binding it has. -/
def insert (name : String) (value : Value) : Scope → Scope
  | [] => [(name, value)]
  | (key, old) :: rest =>
    if key = name then (key, value) :: rest else (key, old) :: insert name value rest

/-- The names bound. -/
def names (scope : Scope) : List String := scope.map Prod.fst

theorem get?_insert_self (name : String) (v : Value) :
    ∀ scope : Scope, (scope.insert name v).get? name = some v
  | [] => if_pos rfl
  | (key, old) :: rest => by
    unfold insert
    split
    · exact if_pos ‹_›
    · exact (if_neg ‹_›).trans (get?_insert_self name v rest)

theorem get?_insert_of_ne {name other : String} (v : Value) (h : name ≠ other) :
    ∀ scope : Scope, (scope.insert name v).get? other = scope.get? other
  | [] => if_neg h
  | (key, old) :: rest => by
    unfold insert
    split
    · rename_i hk
      subst hk
      exact (if_neg h).trans (if_neg h).symm
    · unfold get?
      rw [get?_insert_of_ne v h rest]

end Scope

structure Environment where
  innermost : Scope := []
  outer : List Scope := []
deriving DecidableEq

namespace Environment

/-- The scopes, innermost first. -/
def scopes (env : Environment) : List Scope := env.innermost :: env.outer

def depth (env : Environment) : Nat := env.scopes.length

def get? (env : Environment) (name : String) : Option Value :=
  env.scopes.findSome? (Scope.get? name)

def define (env : Environment) (name : String) (value : Value) : Environment :=
  { env with innermost := env.innermost.insert name value }

/-- Changes the binding of `name` in the first of `scopes` that has one. -/
def assignIn (name : String) (value : Value) : (scopes : List Scope) → Option (List Scope)
  | [] => none
  | scope :: rest =>
    match scope.get? name with
    | some _ => some (scope.insert name value :: rest)
    | none => (assignIn name value rest).map (scope :: ·)

/-- Changes the binding that `get?` finds; there is no result when it finds none. -/
def assign? (env : Environment) (name : String) (value : Value) : Option Environment :=
  match env.innermost.get? name with
  | some _ => some (env.define name value)
  | none => (assignIn name value env.outer).map fun outer => { env with outer }

/-- Opens a scope. -/
def enter (env : Environment) : Environment := ⟨[], env.scopes⟩

/-- Closes the innermost scope unless it is the global one. -/
def leave (env : Environment) : Environment :=
  match env.outer with
  | [] => env
  | scope :: outer => ⟨scope, outer⟩

theorem depth_enter (env : Environment) : env.enter.depth = env.depth + 1 := rfl

theorem isSome_assignIn (name : String) (v : Value) :
    ∀ scopes : List Scope,
      (assignIn name v scopes).isSome = (scopes.findSome? (Scope.get? name)).isSome
  | [] => rfl
  | scope :: rest => by
    unfold assignIn
    cases h : scope.get? name with
    | some old => simp [h]
    | none => simp [h, isSome_assignIn name v rest]

/-- A name can be assigned to exactly when it can be looked up. -/
theorem isSome_assign? (env : Environment) (name : String) (v : Value) :
    (env.assign? name v).isSome = (env.get? name).isSome := by
  unfold assign? get? scopes
  cases h : env.innermost.get? name with
  | some old => simp [h]
  | none => simp [h, isSome_assignIn]

end Environment
end Lox

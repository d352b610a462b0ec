/-
# Environments and their past

Definitions, assignments, look-ups and scopes opened and closed, in any order
and as often as one likes, are the past of an environment. Each scope is
opened once and has the number of that operation; the global one is number 0
and never closed. The open scopes, with what was last stored in each, are all
that the environment holds.

Key definitions: `Environment.Operation`, `Environment.after`, `Environment.opened`,
`Environment.holder`, `Environment.stored`.
Key theorems: `Environment.views_of_assign?`, `Environment.isSome_stored`, `Environment.told`.
-/
import Mathlib
import Lox.Proofs.Scopes.Lookups

namespace Lox
namespace Environment

/-! ### What an environment holds -/

/-- What a scope holds, name by name. -/
abbrev View := String → Option Value

def viewOf (scope : Scope) : View := fun name => scope.get? name

/-- The views of the scopes, the innermost first. -/
def views (env : Environment) : List View := env.scopes.map viewOf

variable {env assigned : Environment}

theorem get?_eq (env : Environment) (name : String) :
    env.get? name = env.views.findSome? fun view => view name := by
  rw [views, List.findSome?_map]
  rfl

theorem depth_eq (env : Environment) : env.depth = env.views.length := by
  rw [views, List.length_map]
  rfl

theorem view_insert (name : String) (v : Value) (scope : Scope) :
    viewOf (scope.insert name v) = Function.update (viewOf scope) name (some v) := by
  funext other
  unfold viewOf
  by_cases h : other = name
  · subst h
    rw [Scope.get?_insert_self, Function.update_self]
  · rw [Scope.get?_insert_of_ne v (Ne.symm h), Function.update_of_ne h]

theorem views_define (env : Environment) (name : String) (v : Value) {view : View}
    {outer : List View} (h : env.views = view :: outer) :
    (env.define name v).views = Function.update view name (some v) :: outer := by
  obtain ⟨rfl, rfl⟩ := List.cons.inj h
  exact congrArg (· :: _) (view_insert name v env.innermost)

theorem views_enter (env : Environment) : env.enter.views = (fun _ => none) :: env.views := rfl

theorem views_leave (env : Environment) :
    env.leave.views = if env.views.tail = [] then env.views else env.views.tail := by
  rcases env with ⟨innermost, _ | ⟨scope, outer⟩⟩ <;> rfl

theorem views_of_assignIn {name : String} {v : Value} : ∀ {scopes assigned : List Scope},
    assignIn name v scopes = some assigned →
    ∃ inner scope outer, scopes = inner ++ scope :: outer ∧
      (∀ s ∈ inner, s.get? name = none) ∧ (scope.get? name).isSome ∧
      assigned = inner ++ scope.insert name v :: outer
  | [], _, h => by cases h
  | scope :: rest, assigned, h => by
    unfold assignIn at h
    split at h
    · rename_i old hold
      cases h
      exact ⟨[], scope, rest, rfl, List.forall_mem_nil _, by rw [hold]; rfl, rfl⟩
    · rename_i hnone
      obtain ⟨tail, ht, rfl⟩ := Option.map_eq_some_iff.mp h
      obtain ⟨inner, found, outer, rfl, hinner, hfound, rfl⟩ := views_of_assignIn ht
      exact ⟨scope :: inner, found, outer, rfl, List.forall_mem_cons.mpr ⟨hnone, hinner⟩, hfound, rfl⟩

/-- An assignment changes one binding, in the innermost scope that has one. -/
theorem views_of_assign? {name : String} {v : Value} (h : env.assign? name v = some assigned) :
    ∃ (inner : List View) (view : View) (outer : List View), env.views = inner ++ view :: outer ∧
      (∀ w ∈ inner, w name = none) ∧ (view name).isSome ∧
      assigned.views = inner ++ Function.update view name (some v) :: outer := by
  have hin : assignIn name v env.scopes = some assigned.scopes := by
    rw [← scopes_assign?, h]
    rfl
  obtain ⟨inner, scope, outer, hscopes, hinner, hscope, hassigned⟩ := views_of_assignIn hin
  refine ⟨inner.map viewOf, viewOf scope, outer.map viewOf, ?_, ?_, hscope, ?_⟩
  · rw [views, hscopes, List.map_append, List.map_cons]
  · rintro _ hw
    obtain ⟨s, hs, rfl⟩ := List.mem_map.mp hw
    exact hinner s hs
  · rw [views, hassigned, List.map_append, List.map_cons, view_insert]

theorem lookup_of_some {token : Token} {v : Value} (h : env.get? token.lexeme = some v) :
    lookup token env = .ok v env := by
  unfold lookup
  rw [h]

/-! ### Operations -/

inductive Operation where
  | define (name : String) (v : Value)
  | assign (name : Token) (v : Value)
  | get (name : Token)
  | enter
  | leave

def Operation.action : Operation → Action Environment Unit
  | define name v => modify (·.define name v)
  | assign name v => Lox.assign name v
  | get name => do let _ ← lookup name
  | enter => modify Environment.enter
  | leave => modify Environment.leave

/-- What was done to a new environment, the latest first. -/
abbrev Past := List Operation

/-- What the operations leave, those that fail included. -/
def after : Past → Environment
  | [] => {}
  | operation :: past => operation.action.after (after past)

theorem after_assign (past : Past) (token : Token) (v : Value) :
    after (.assign token v :: past) = ((after past).assign? token.lexeme v).getD (after past) := by
  show Action.after (Lox.assign token v) (after past) = _
  unfold Action.after Lox.assign
  cases (after past).assign? token.lexeme v <;> rfl

theorem after_get (past : Past) (token : Token) : after (.get token :: past) = after past := by
  show Action.after (lookup token >>= fun _ => pure ()) (after past) = after past
  cases h : (after past).get? token.lexeme with
  | none => exact Action.after_bind_of_error _ (lookup_of_none h)
  | some v => exact Action.after_bind_of_ok _ (lookup_of_some h)

/-! ### Scopes and what is stored in them -/

/-- The open scopes, innermost first. -/
def opened : Past → List Nat
  | [] => [0]
  | .enter :: past => (past.length + 1) :: opened past
  | .leave :: past => if (opened past).tail = [] then opened past else (opened past).tail
  | _ :: past => opened past

def innermost? (past : Past) : Option Nat := (opened past).head?

/-- `name` was defined in the scope. -/
def defines : Past → (scope : Nat) → (name : String) → Bool
  | [], _, _ => false
  | .define other _ :: past, scope, name =>
    (innermost? past = some scope && other = name) || defines past scope name
  | _ :: past, scope, name => defines past scope name

/-- The innermost open scope in which `name` was defined. -/
def holder (past : Past) (name : String) : Option Nat :=
  (opened past).find? fun scope => defines past scope name

/-- What was last stored for `name` in the scope, by a definition there or by an assignment for
which it was the innermost with the name. -/
def stored : Past → (scope : Nat) → (name : String) → Option Value
  | [], _, _ => none
  | .define other v :: past, scope, name =>
    if innermost? past = some scope ∧ other = name then some v else stored past scope name
  | .assign token v :: past, scope, name =>
    if holder past token.lexeme = some scope ∧ token.lexeme = name then some v
    else stored past scope name
  | _ :: past, scope, name => stored past scope name

theorem opened_cons (past : Past) : ∃ scope rest, opened past = scope :: rest := by
  apply List.exists_cons_of_ne_nil
  fun_induction opened past with
  | case1 => exact List.cons_ne_nil _ _
  | case2 => exact List.cons_ne_nil _ _
  | case3 past _ ih => exact ih
  | case4 past h _ => exact h
  | case5 operation past _ _ ih => exact ih

/-- A scope is numbered by an operation of the past. -/
theorem le_length_of_mem_opened {past : Past} : ∀ s ∈ opened past, s ≤ past.length := by
  fun_induction opened past with
  | case1 => simp
  | case2 past ih =>
    exact List.forall_mem_cons.mpr ⟨le_rfl, fun s hs => (ih s hs).trans (Nat.le_succ _)⟩
  | case3 past _ ih => exact fun s hs => (ih s hs).trans (Nat.le_succ _)
  | case4 past _ ih => exact fun s hs => (ih s (List.mem_of_mem_tail hs)).trans (Nat.le_succ _)
  | case5 operation past _ _ ih => exact fun s hs => (ih s hs).trans (Nat.le_succ _)

/-- The scopes have been opened one after another, so none is there twice. -/
theorem nodup_opened (past : Past) : (opened past).Nodup := by
  fun_induction opened past with
  | case1 => exact List.nodup_singleton 0
  | case2 past ih =>
    refine List.nodup_cons.mpr ⟨fun hs => ?_, ih⟩
    exact absurd (le_length_of_mem_opened _ hs) (Nat.not_succ_le_self _)
  | case3 past _ ih => exact ih
  | case4 past _ ih => exact ih.tail
  | case5 operation past _ _ ih => exact ih

/-- Where a name is defined there is a value stored for it, and nowhere else. -/
theorem isSome_stored : ∀ (past : Past) (scope : Nat) (name : String),
    (stored past scope name).isSome = defines past scope name
  | [], _, _ => rfl
  | .define other v :: past, scope, name => by
    have ih := isSome_stored past scope name
    by_cases h : innermost? past = some scope ∧ other = name
    · simp [stored, defines, h]
    · have hdefined : (decide (innermost? past = some scope) && decide (other = name)) = false := by
        rw [← Bool.decide_and, decide_eq_false h]
      rw [stored, if_neg h, ih, defines, hdefined, Bool.false_or]
  | .assign token v :: past, scope, name => by
    by_cases h : holder past token.lexeme = some scope ∧ token.lexeme = name
    · have hdefined := List.find?_some h.1
      rw [h.2] at hdefined
      rw [stored, if_pos h]
      exact hdefined.symm
    · rw [stored, if_neg h]
      exact isSome_stored past scope name
  | .get _ :: past, scope, name => isSome_stored past scope name
  | .enter :: past, scope, name => isSome_stored past scope name
  | .leave :: past, scope, name => isSome_stored past scope name

/-- A name is defined only in scopes that have been opened. -/
theorem le_length_of_defines : ∀ (past : Past) {scope : Nat} {name : String},
    defines past scope name = true → scope ≤ past.length
  | .define other v :: past, scope, name, h => by
    rcases (Bool.or_eq_true _ _).mp h with hd | hd
    · have hscope : innermost? past = some scope := of_decide_eq_true (Bool.and_eq_true_iff.mp hd).1
      exact (le_length_of_mem_opened scope (List.mem_of_mem_head? hscope)).trans (Nat.le_succ _)
    · exact (le_length_of_defines past hd).trans (Nat.le_succ _)
  | .assign _ _ :: past, _, _, h => (le_length_of_defines past h).trans (Nat.le_succ _)
  | .get _ :: past, _, _, h => (le_length_of_defines past h).trans (Nat.le_succ _)
  | .enter :: past, _, _, h => (le_length_of_defines past h).trans (Nat.le_succ _)
  | .leave :: past, _, _, h => (le_length_of_defines past h).trans (Nat.le_succ _)

theorem stored_of_length_lt {past : Past} {scope : Nat} (h : past.length < scope) (name : String) :
    stored past scope name = none := by
  rw [← Option.not_isSome_iff_eq_none, isSome_stored]
  exact fun hd => absurd (le_length_of_defines past hd) h.not_ge

/-- The holder of a name splits the open scopes: there is nothing stored in those within it. -/
theorem holder_eq_some_iff {past : Past} {name : String} {scope : Nat} :
    holder past name = some scope ↔ (stored past scope name).isSome ∧
      ∃ inner outer, opened past = inner ++ scope :: outer ∧ ∀ s ∈ inner, stored past s name = none := by
  simp only [holder, List.find?_eq_some_iff_append, ← isSome_stored, Bool.not_eq_true',
    Option.isSome_eq_false_iff, Option.isNone_iff_eq_none]

theorem holder_eq (past : Past) (name : String) :
    holder past name = (opened past).find? fun scope => (stored past scope name).isSome := by
  simp only [isSome_stored, holder]

/-- A name held has a value stored for it. -/
theorem exists_stored_of_holder {past : Past} {name : String} {scope : Nat}
    (h : holder past name = some scope) : ∃ v, stored past scope name = some v :=
  Option.isSome_iff_exists.mp (holder_eq_some_iff.mp h).1

/-! ### The environment holds what is stored -/

/-- The open scopes, with what is stored in each, are those of the environment. -/
def Told (past : Past) : Prop := (after past).views = (opened past).map (stored past)

theorem findSome?_eq_find? {α β : Type} (f : α → Option β) : ∀ l : List α,
    l.findSome? f = (l.find? fun a => (f a).isSome).bind f
  | [] => rfl
  | a :: l => by
    rw [List.findSome?_cons, List.find?_cons]
    cases h : f a with
    | none => exact findSome?_eq_find? f l
    | some b => exact h.symm

theorem Told.get? {past : Past} (h : Told past) (name : String) :
    (after past).get? name = (holder past name).bind fun scope => stored past scope name := by
  rw [get?_eq, show (after past).views = _ from h, List.findSome?_map, holder_eq]
  exact findSome?_eq_find? _ _

theorem Told.holder_eq_none_iff {past : Past} (h : Told past) (name : String) :
    holder past name = none ↔ (after past).get? name = none := by
  rw [h.get?]
  cases hh : holder past name with
  | none => exact ⟨fun _ => rfl, fun _ => rfl⟩
  | some scope =>
    obtain ⟨v, hv⟩ := exists_stored_of_holder hh
    simp [hv]

theorem Told.define {past : Past} (h : Told past) (name : String) (v : Value) :
    Told (.define name v :: past) := by
  obtain ⟨scope, rest, ho⟩ := opened_cons past
  have hinnermost : innermost? past = some scope := by rw [innermost?, ho, List.head?_cons]
  have hnodup := nodup_opened past
  rw [ho, List.nodup_cons] at hnodup
  have hviews : (after past).views = stored past scope :: rest.map (stored past) := by
    rw [show (after past).views = _ from h, ho, List.map_cons]
  have hscope : stored (.define name v :: past) scope =
      Function.update (stored past scope) name (some v) := by
    funext other
    by_cases hname : name = other
    · subst hname
      rw [stored, if_pos ⟨hinnermost, rfl⟩, Function.update_self]
    · rw [stored, if_neg fun hc => hname hc.2, Function.update_of_ne (Ne.symm hname)]
  have hrest : rest.map (stored (.define name v :: past)) = rest.map (stored past) := by
    refine List.map_congr_left fun s hs => funext fun other => ?_
    have hne : innermost? past ≠ some s := by
      rw [hinnermost]
      rintro ⟨⟩
      exact hnodup.1 hs
    rw [stored, if_neg fun hc => hne hc.1]
  calc (after (.define name v :: past)).views
      = Function.update (stored past scope) name (some v) :: rest.map (stored past) :=
        views_define (after past) name v hviews
    _ = (scope :: rest).map (stored (.define name v :: past)) := by rw [List.map_cons, hscope, hrest]
    _ = (opened (.define name v :: past)).map (stored (.define name v :: past)) := by rw [← ho]; rfl

/-- An assignment to a name stores the value in the scope that holds the name. -/
theorem stored_assign {past : Past} {token : Token} {scope : Nat}
    (h : holder past token.lexeme = some scope) (v : Value) :
    stored (.assign token v :: past) scope =
      Function.update (stored past scope) token.lexeme (some v) := by
  funext other
  by_cases hname : token.lexeme = other
  · subst hname
    rw [stored, if_pos ⟨h, rfl⟩, Function.update_self]
  · rw [stored, if_neg fun hc => hname hc.2, Function.update_of_ne (Ne.symm hname)]

theorem stored_assign_of_ne {past : Past} {token : Token} {scope : Nat}
    (h : holder past token.lexeme ≠ some scope) (v : Value) :
    stored (.assign token v :: past) scope = stored past scope := by
  funext other
  rw [stored, if_neg fun hc => h hc.1]

/-- An assignment changes what is stored in the scope that holds the name. -/
theorem Told.of_assign? {past : Past} (h : Told past) {token : Token} {v : Value}
    {assigned : Environment} (ha : (after past).assign? token.lexeme v = some assigned) :
    ∃ before scope rest, opened past = before ++ scope :: rest ∧
      holder past token.lexeme = some scope ∧
      (after past).views =
        before.map (stored past) ++ stored past scope :: rest.map (stored past) ∧
      assigned.views = before.map (stored past) ++
        Function.update (stored past scope) token.lexeme (some v) :: rest.map (stored past) := by
  obtain ⟨inner, view, outer, hviews, hinner, hview, hassigned⟩ := views_of_assign? ha
  have hmap : inner ++ view :: outer = (opened past).map (stored past) := by rw [← hviews, h]
  obtain ⟨before, behind, ho, rfl, hb⟩ := List.append_eq_map_iff.mp hmap
  obtain ⟨scope, rest, rfl, rfl, rfl⟩ := List.map_eq_cons_iff.mp hb
  have hholder : holder past token.lexeme = some scope :=
    holder_eq_some_iff.mpr ⟨hview, before, rest, ho, fun s hs => hinner _ (List.mem_map_of_mem hs)⟩
  exact ⟨before, scope, rest, ho, hholder, hviews, hassigned⟩

theorem Told.assign {past : Past} (h : Told past) (token : Token) (v : Value) :
    Told (.assign token v :: past) := by
  show (after (.assign token v :: past)).views = (opened past).map _
  rw [after_assign]
  cases ha : (after past).assign? token.lexeme v with
  | none =>
    have hget : (after past).get? token.lexeme = none := by
      have hsome := isSome_assign? (after past) token.lexeme v
      rw [ha] at hsome
      exact Option.isNone_iff_eq_none.mp (Option.isSome_eq_false_iff.mp hsome.symm)
    have hholder := (h.holder_eq_none_iff _).mpr hget
    have hstored : stored (.assign token v :: past) = stored past :=
      funext fun s => stored_assign_of_ne (by rw [hholder]; exact fun hn => by cases hn) v
    rw [hstored]
    exact h
  | some assigned =>
    obtain ⟨before, scope, rest, ho, hholder, -, hassigned⟩ := h.of_assign? ha
    have hnodup := nodup_opened past
    rw [ho, List.nodup_middle, List.nodup_cons] at hnodup
    have hothers : ∀ s ∈ before ++ rest, stored (.assign token v :: past) s = stored past s := by
      refine fun s hs => stored_assign_of_ne ?_ v
      rw [hholder]
      rintro ⟨⟩
      exact hnodup.1 hs
    obtain ⟨hbefore, hrest⟩ := List.forall_mem_append.mp hothers
    calc ((some assigned).getD (after past)).views
        = before.map (stored past) ++
            Function.update (stored past scope) token.lexeme (some v) :: rest.map (stored past) :=
          hassigned
      _ = (before ++ scope :: rest).map (stored (.assign token v :: past)) := by
          rw [List.map_append, List.map_cons, stored_assign hholder, List.map_congr_left hbefore,
            List.map_congr_left hrest]
      _ = (opened past).map (stored (.assign token v :: past)) := by rw [ho]

theorem Told.enter {past : Past} (h : Told past) : Told (.enter :: past) := by
  have hfresh : stored (.enter :: past) (past.length + 1) = fun _ => none :=
    funext fun name => stored_of_length_lt (Nat.lt_succ_self past.length) name
  calc (after (.enter :: past)).views = (fun _ => none) :: (after past).views :=
      views_enter (after past)
    _ = (opened (.enter :: past)).map (stored (.enter :: past)) := by
      rw [show (after past).views = _ from h, ← hfresh]
      rfl

theorem Told.leave {past : Past} (h : Told past) : Told (.leave :: past) := by
  have htail : (after past).views.tail = (opened past).tail.map (stored past) := by
    rw [show (after past).views = _ from h, List.map_tail]
  calc (after (.leave :: past)).views
      = if (after past).views.tail = [] then (after past).views else (after past).views.tail :=
        views_leave (after past)
    _ = if (opened past).tail = [] then (opened past).map (stored past)
        else (opened past).tail.map (stored past) := by
      simp only [htail, List.map_eq_nil_iff]
      rw [show (after past).views = _ from h]
    _ = (if (opened past).tail = [] then opened past else (opened past).tail).map (stored past) :=
      (apply_ite _ _ _ _).symm
    _ = (opened (.leave :: past)).map (stored (.leave :: past)) := rfl

/-- **An environment holds what its past has stored in the scopes it has left open.** -/
theorem told : ∀ past : Past, Told past
  | [] => rfl
  | .define name v :: past => (told past).define name v
  | .assign token v :: past => (told past).assign token v
  | .get token :: past => by
    rw [Told, after_get]
    exact told past
  | .enter :: past => (told past).enter
  | .leave :: past => (told past).leave

end Environment
end Lox

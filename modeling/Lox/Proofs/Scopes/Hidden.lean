/-
# What the past tells

As an environment holds what its past has stored in the scopes left open, a
look-up finds what was last stored in the innermost of them with the name, and
an assignment changes just that. What a scope has around it stays as long as
it is open, so a binding that a definition within hides is found again, as it
was, when the scope of that definition is closed.

Key definitions: `Environment.binding`.
Key theorems: `Environment.opened_of_innermost?`, `Environment.stored_hidden`,
`Environment.get?_of_hidden`, `Environment.binding_of_assign`, `environment_obeys_past`.
-/
import Lox.Proofs.Scopes.Stored

namespace Lox
namespace Environment

/-! ### Hidden bindings -/

theorem mem_opened_of_cons {past : Past} {s : Nat} (hs : s ≤ past.length) :
    ∀ operation : Operation, s ∈ opened (operation :: past) → s ∈ opened past
  | .enter, h => (List.mem_cons.mp h).resolve_left (Nat.ne_of_lt (Nat.lt_succ_of_le hs))
  | .leave, h => by
    have h : s ∈ if (opened past).tail = [] then opened past else (opened past).tail := h
    split at h
    · exact h
    · exact List.mem_of_mem_tail h
  | .define _ _, h => h
  | .assign _ _, h => h
  | .get _, h => h

section Inner

variable {base : Past} {s : Nat} {rest : List Nat}

theorem le_length_append (ho : opened base = s :: rest) (later : Past) :
    s ≤ (later ++ base).length := by
  have hs : s ≤ base.length := le_length_of_mem_opened s (by rw [ho]; exact List.mem_cons_self)
  rw [List.length_append]
  omega

/-- As long as a scope is open, so are those around it. -/
theorem suffix_of_mem_opened (ho : opened base = s :: rest) : ∀ later : Past,
    s ∈ opened (later ++ base) → s :: rest <:+ opened (later ++ base)
  | [], _ => by rw [List.nil_append, ho]
  | operation :: later, h => by
    have hle := le_length_append ho later
    have ih := suffix_of_mem_opened ho later (mem_opened_of_cons hle operation h)
    cases operation with
    | enter => exact ih.trans (List.suffix_cons _ _)
    | leave =>
      have hopened : opened ((.leave :: later) ++ base) = if (opened (later ++ base)).tail = []
          then opened (later ++ base) else (opened (later ++ base)).tail := rfl
      rw [hopened] at h ⊢
      by_cases ht : (opened (later ++ base)).tail = []
      · rw [if_pos ht]
        exact ih
      · rw [if_neg ht] at h ⊢
        obtain ⟨inner, more, hm⟩ := opened_cons (later ++ base)
        have hnodup := nodup_opened (later ++ base)
        rw [hm, List.tail_cons] at h ⊢
        rw [hm] at ih hnodup
        rcases List.suffix_cons_iff.mp ih with he | hsuffix
        · obtain ⟨rfl, rfl⟩ := List.cons.inj he
          exact absurd h (List.nodup_cons.mp hnodup).1
        · exact hsuffix
    | define => exact ih
    | assign => exact ih
    | get => exact ih

/-- When a scope is the innermost again, what it has around it is what it had. -/
theorem opened_of_innermost? (ho : opened base = s :: rest) {later : Past}
    (h : innermost? (later ++ base) = some s) : opened (later ++ base) = s :: rest := by
  obtain ⟨inner, hi⟩ := suffix_of_mem_opened ho later (List.mem_of_mem_head? h)
  have hnodup := nodup_opened (later ++ base)
  cases inner with
  | nil => exact hi.symm
  | cons t inner =>
    rw [innermost?, ← hi] at h
    cases h
    rw [← hi, List.cons_append, List.nodup_cons] at hnodup
    exact absurd (List.mem_append_right _ List.mem_cons_self) hnodup.1

variable {past : Past} {scope : Nat} {name : String}

theorem innermost?_ne (h : s :: rest <:+ opened past) (hscope : scope ∈ rest) :
    innermost? past ≠ some scope := by
  obtain ⟨inner, hi⟩ := h
  have hnodup := nodup_opened past
  rw [← hi] at hnodup
  intro hin
  rw [innermost?, ← hi] at hin
  cases inner with
  | nil =>
    cases hin
    exact (List.nodup_cons.mp hnodup).1 hscope
  | cons t inner =>
    cases hin
    exact (List.nodup_cons.mp hnodup).1 (List.mem_append_right _ (List.mem_cons_of_mem _ hscope))

/-- A scope around another with the name does not hold it. -/
theorem holder_ne (h : s :: rest <:+ opened past) (hscope : scope ∈ rest)
    (hd : defines past s name = true) : holder past name ≠ some scope := by
  obtain ⟨inner, hi⟩ := h
  have hnodup := nodup_opened past
  rw [← hi, List.nodup_append'] at hnodup
  obtain ⟨-, hnodup, hdisjoint⟩ := hnodup
  have hfirst : (s :: rest).find? (fun t => defines past t name) = some s :=
    List.find?_cons_of_pos hd
  rw [holder, ← hi, List.find?_append, hfirst]
  cases hf : inner.find? fun t => defines past t name with
  | none =>
    rintro ⟨⟩
    exact (List.nodup_cons.mp hnodup).1 hscope
  | some t =>
    rintro ⟨⟩
    exact hdisjoint (List.mem_of_find?_eq_some hf) (List.mem_cons_of_mem _ hscope)

theorem defines_append (hd : defines base s name = true) : ∀ later : Past,
    defines (later ++ base) s name = true
  | [] => hd
  | .define other v :: later => by
    rw [List.cons_append, defines, defines_append hd later, Bool.or_true]
  | .assign _ _ :: later => defines_append hd later
  | .get _ :: later => defines_append hd later
  | .enter :: later => defines_append hd later
  | .leave :: later => defines_append hd later

/-- What is stored for a name around a scope that has the name too stays as long as that is open. -/
theorem stored_hidden (ho : opened base = s :: rest) (hd : defines base s name = true)
    (hscope : scope ∈ rest) : ∀ later : Past, s ∈ opened (later ++ base) →
    stored (later ++ base) scope name = stored base scope name
  | [], _ => rfl
  | operation :: later, h => by
    have hle := le_length_append ho later
    have hopen := mem_opened_of_cons hle operation h
    have ih := stored_hidden ho hd hscope later hopen
    have hsuffix := suffix_of_mem_opened ho later hopen
    cases operation with
    | define other v =>
      rw [List.cons_append, stored, if_neg fun hc => innermost?_ne hsuffix hscope hc.1, ih]
    | assign token v =>
      have hne : ¬ (holder (later ++ base) token.lexeme = some scope ∧ token.lexeme = name) := by
        rintro ⟨hh, rfl⟩
        exact holder_ne hsuffix hscope (defines_append hd later) hh
      rw [List.cons_append, stored, if_neg hne, ih]
    | get => exact ih
    | enter => exact ih
    | leave => exact ih

end Inner

/-- A binding that a definition in a scope within hides is found when that scope is closed, with the
value it had. -/
theorem get?_of_hidden {before later : Past} {name : String} {w v : Value} {scope : Nat}
    (hholder : holder before name = some scope) (hne : innermost? before ≠ some scope)
    (hv : stored before scope name = some v)
    (hinner : innermost? (later ++ .define name w :: before) = innermost? before) :
    (after (.leave :: (later ++ .define name w :: before))).get? name = some v := by
  obtain ⟨s, rest, ho⟩ := opened_cons before
  have hs : innermost? before = some s := by rw [innermost?, ho, List.head?_cons]
  have ho' : opened (.define name w :: before) = s :: rest := ho
  have hd : defines (.define name w :: before) s name = true := by
    rw [defines, hs]
    simp
  have hopened : opened (later ++ .define name w :: before) = s :: rest :=
    opened_of_innermost? ho' (hinner.trans hs)
  have hstored : ∀ t ∈ rest, stored (later ++ .define name w :: before) t name = stored before t name := by
    intro t ht
    have hopen : s ∈ opened (later ++ .define name w :: before) := by
      rw [hopened]
      exact List.mem_cons_self
    have hneq : innermost? before ≠ some t := innermost?_ne (by rw [ho]) ht
    rw [stored_hidden ho' hd ht later hopen, stored, if_neg fun hc => hneq hc.1]
  have hfind : rest.find? (fun t => (stored before t name).isSome) = some scope := by
    rw [holder_eq, ho, List.find?_cons] at hholder
    split at hholder
    · cases hholder
      exact absurd hs hne
    · exact hholder
  have hmem : scope ∈ rest := List.mem_of_find?_eq_some hfind
  have hleave : opened (.leave :: (later ++ .define name w :: before)) = rest := by
    rw [opened, hopened, List.tail_cons, if_neg (List.ne_nil_of_mem hmem)]
  have hholder' : holder (.leave :: (later ++ .define name w :: before)) name = some scope := by
    rw [holder_eq, hleave, ← hfind]
    exact List.find?_congr fun t ht => congrArg Option.isSome (hstored t ht)
  rw [(told _).get?, hholder']
  exact (hstored scope hmem).trans hv

/-! ### What operations find and change -/

/-- The binding of `name` in the scope that is `i` scopes out. -/
def binding (env : Environment) (i : Nat) (name : String) : Option Value :=
  (env.views[i]?).bind fun view => view name

theorem defines_iff : ∀ {past : Past} {scope : Nat} {name : String},
    defines past scope name = true ↔
      ∃ v before, .define name v :: before <:+ past ∧ innermost? before = some scope
  | [], scope, name => by simp [defines]
  | operation :: past, scope, name => by
    have ih : defines past scope name = true ↔ _ := defines_iff
    have hsplit : (∃ v before, .define name v :: before <:+ operation :: past ∧
          innermost? before = some scope) ↔
        (∃ v, operation = .define name v ∧ innermost? past = some scope) ∨
          defines past scope name = true := by
      rw [ih]
      simp only [List.suffix_cons_iff, List.cons.injEq]
      constructor
      · rintro ⟨v, before, ⟨rfl, rfl⟩ | hb, hs⟩
        · exact .inl ⟨v, rfl, hs⟩
        · exact .inr ⟨v, before, hb, hs⟩
      · rintro (⟨v, rfl, hs⟩ | ⟨v, before, hb, hs⟩)
        · exact ⟨v, past, .inl ⟨rfl, rfl⟩, hs⟩
        · exact ⟨v, before, .inr hb, hs⟩
    rw [hsplit]
    cases operation with
    | define other w =>
      rw [defines, Bool.or_eq_true, Bool.and_eq_true, decide_eq_true_iff, decide_eq_true_iff]
      simp only [Operation.define.injEq]
      refine or_congr_left ⟨?_, ?_⟩
      · rintro ⟨hs, rfl⟩
        exact ⟨w, ⟨rfl, rfl⟩, hs⟩
      · rintro ⟨_, ⟨rfl, rfl⟩, hs⟩
        exact ⟨hs, rfl⟩
    | assign | get | enter | leave => simp [defines]

theorem lookup_eq_ok_iff {env : Environment} {token : Token} {v : Value} :
    lookup token env = .ok v env ↔ env.get? token.lexeme = some v := by
  cases h : env.get? token.lexeme with
  | none => simp [lookup_of_none h]
  | some w => simp [lookup_of_some h]

/-- A look-up succeeds exactly when the name was defined in a scope that is open. -/
theorem exists_lookup_iff (past : Past) (token : Token) :
    (∃ v, lookup token (after past) = .ok v (after past)) ↔
      ∃ scope ∈ opened past, defines past scope token.lexeme = true := by
  have hfind : (holder past token.lexeme).isSome = true ↔
      ∃ scope ∈ opened past, defines past scope token.lexeme = true := List.find?_isSome
  simp only [lookup_eq_ok_iff, ← Option.isSome_iff_exists]
  rw [← hfind, (told past).get?]
  cases h : holder past token.lexeme with
  | none => rfl
  | some scope =>
    obtain ⟨v, hv⟩ := exists_stored_of_holder h
    simp [hv]

theorem lookup_of_holder {past : Past} {token : Token} {scope : Nat}
    (h : holder past token.lexeme = some scope) :
    ∃ v, stored past scope token.lexeme = some v ∧ lookup token (after past) = .ok v (after past) := by
  obtain ⟨v, hv⟩ := exists_stored_of_holder h
  refine ⟨v, hv, lookup_of_some ?_⟩
  rw [(told past).get?, h]
  exact hv

theorem exists_assign_iff (env : Environment) (token : Token) (v : Value) :
    (∃ env', assign token v env = .ok () env') ↔ ∃ w, lookup token env = .ok w env := by
  have hsome := isSome_assign? env token.lexeme v
  simp only [lookup_eq_ok_iff, ← Option.isSome_iff_exists, ← hsome]
  unfold Lox.assign
  cases env.assign? token.lexeme v <;> simp

theorem assign_eq_ok_iff {env assigned : Environment} {token : Token} {v : Value} :
    Lox.assign token v env = .ok () assigned ↔ env.assign? token.lexeme v = some assigned := by
  unfold Lox.assign
  cases env.assign? token.lexeme v <;> simp

theorem of_assign_error {env env' : Environment} {token : Token} {v : Value} {stop : Stop}
    (h : Lox.assign token v env = .error stop env') : env' = env := by
  unfold Lox.assign at h
  cases ha : env.assign? token.lexeme v with
  | none =>
    rw [ha] at h
    cases h
    rfl
  | some assigned =>
    rw [ha] at h
    cases h

theorem binding_update (inner outer : List View) (view : View) (name : String) (v : Value) (j : Nat)
    (other : String) :
    ((inner ++ Function.update view name (some v) :: outer)[j]?.bind fun view => view other) =
      if j = inner.length ∧ other = name then some v
      else (inner ++ view :: outer)[j]?.bind fun view => view other := by
  rcases Nat.lt_trichotomy j inner.length with hj | rfl | hj
  · rw [if_neg fun h => hj.ne h.1, List.getElem?_append_left hj, List.getElem?_append_left hj]
  · by_cases hname : other = name
    · simp [hname]
    · simp [hname, Function.update_of_ne]
  · obtain ⟨k, rfl⟩ := Nat.exists_eq_add_of_lt hj
    rw [if_neg fun h => hj.ne' h.1, List.getElem?_append_right (by omega),
      List.getElem?_append_right (by omega)]
    have hk : inner.length + k + 1 - inner.length = k + 1 := by omega
    rw [hk, List.getElem?_cons_succ, List.getElem?_cons_succ]

/-- An assignment changes the binding in the scope that holds the name, and no other. -/
theorem binding_of_assign {past : Past} {token : Token} {v : Value} {assigned : Environment}
    (h : Lox.assign token v (after past) = .ok () assigned) :
    ∃ i scope, (opened past)[i]? = some scope ∧ holder past token.lexeme = some scope ∧
      assigned.depth = (after past).depth ∧
      ∀ j name, assigned.binding j name =
        if j = i ∧ name = token.lexeme then some v else (after past).binding j name := by
  obtain ⟨before, scope, rest, ho, hholder, hviews, hassigned⟩ :=
    (told past).of_assign? (assign_eq_ok_iff.mp h)
  refine ⟨before.length, scope, ?_, hholder, ?_, fun j name => ?_⟩
  · rw [ho]
    simp
  · rw [depth_eq, depth_eq, hassigned, hviews]
    simp
  · rw [binding, binding, hassigned, hviews, binding_update, List.length_map]

theorem leave_of_depth_one {env : Environment} (h : env.depth = 1) : env.leave = env := by
  rcases env with ⟨innermost, _ | ⟨scope, outer⟩⟩
  · rfl
  · cases h

end Environment

open Environment

/-- **What an environment finds is told by its past.** A look-up succeeds exactly when its name was
defined in a scope that is still open, and finds what was last stored in the innermost such scope. An
assignment succeeds exactly when a look-up does, changes that binding alone, and changes nothing
else. Closing more scopes than were opened changes nothing, and a binding that a definition in an
inner scope hides is found again, with the value it had, when that scope is closed. -/
theorem environment_obeys_past (past : Past) :
    (∀ token : Token, (∃ v, lookup token (after past) = .ok v (after past)) ↔
      ∃ scope ∈ opened past, ∃ v before, .define token.lexeme v :: before <:+ past ∧
        innermost? before = some scope) ∧
    (∀ (token : Token) (scope : Nat), holder past token.lexeme = some scope →
      ∃ v, stored past scope token.lexeme = some v ∧
        lookup token (after past) = .ok v (after past)) ∧
    (∀ (token : Token) (v : Value), (∃ env, assign token v (after past) = .ok () env) ↔
      ∃ w, lookup token (after past) = .ok w (after past)) ∧
    (∀ (token : Token) (v : Value) (env : Environment), assign token v (after past) = .ok () env →
      ∃ i scope, (opened past)[i]? = some scope ∧ holder past token.lexeme = some scope ∧
        env.depth = (after past).depth ∧ ∀ j name, env.binding j name =
          if j = i ∧ name = token.lexeme then some v else (after past).binding j name) ∧
    (∀ (token : Token) (v : Value) (stop : Stop) (env : Environment),
      assign token v (after past) = .error stop env → env = after past) ∧
    (after past).depth = (opened past).length ∧
    ((after past).depth = 1 → after (.leave :: past) = after past) ∧
    ∀ (before later : Past) (token : Token) (w v : Value) (scope : Nat),
      past = later ++ .define token.lexeme w :: before → innermost? past = innermost? before →
      holder before token.lexeme = some scope → innermost? before ≠ some scope →
      stored before scope token.lexeme = some v →
      lookup token (after (.leave :: past)) = .ok v (after (.leave :: past)) := by
  refine ⟨fun token => ?_, fun _ _ => lookup_of_holder, fun token v => exists_assign_iff _ token v,
    fun token v env => binding_of_assign, fun token v stop env => of_assign_error, ?_,
    leave_of_depth_one, ?_⟩
  · rw [exists_lookup_iff]
    simp only [defines_iff]
  · rw [depth_eq, told past, List.length_map]
  · rintro before later token w v scope rfl hinner hholder hne hv
    exact lookup_of_some (get?_of_hidden hholder hne hv hinner)

/-- A global name that a block hides is found again behind it, whatever was assigned in the block. -/
theorem environment_obeys_past_of_hidden :
    lookup ⟨.identifier "a", "a", 1⟩ (after [.leave, .assign ⟨.identifier "a", "a", 1⟩ .nil,
        .define "a" (.boolean false), .enter, .define "a" (.boolean true)]) =
      .ok (.boolean true) (after [.leave, .assign ⟨.identifier "a", "a", 1⟩ .nil,
        .define "a" (.boolean false), .enter, .define "a" (.boolean true)]) :=
  (environment_obeys_past _).2.2.2.2.2.2.2 [.enter, .define "a" (.boolean true)]
    [.assign ⟨.identifier "a", "a", 1⟩ .nil] ⟨.identifier "a", "a", 1⟩ (.boolean false)
    (.boolean true) 0 rfl rfl rfl (by decide) rfl

end Lox

/-
# Attempts at declarations

Reading a program is one attempt at a declaration after another, at the top
and in every block; the attempts in a block belong to the attempt at the
declaration that the block is part of. An account of a reading says what it
has taken and what came of it. Reading never goes back: every attempt is made
at a place that reading has come to. Each attempt that fails, at any depth, is
complained about once, and all other complaints are about targets of
assignments. The braces that reading takes are those of blocks: but for the
ones that recovery skips, and for blocks that are not closed, they match.

Key definitions: `Grammar.attempts`, `Grammar.failure?`, `Grammar.discarded`, `Grammar.Account`.
Key theorems: `Grammar.Account.trans`, `Grammar.account_declaration`, `Grammar.accounted_block`,
`Grammar.account_program`.
-/
import Lox.Proofs.Recovery.Depth

namespace Lox

/-- How many blocks are left open where a reading gets stuck at `p`. -/
def Problem.opened (p : Problem) : Int := if p = .braceAfterBlock then 1 else 0

theorem Problem.opened_of_isPlain {p : Problem} (h : p.isPlain = true) : p.opened = 0 :=
  if_neg (Problem.ne_brace_of_isPlain h)

/-! ### The attempts -/

/-- What `next` makes of the tokens a reading leaves, if it comes to its value. -/
def Reading.behind {n : Nat} {α β : Type} (r : Reading n α)
    (next : (rest : List Token) → rest.length < n → List β) : List β :=
  match r with
  | .done _ _ rest shorter => next rest shorter
  | .stuck .. => []

namespace Grammar

/-! An attempt is given by the tokens that it starts with. The attempts stand in the order in which
they end, those in a block before the one that the block belongs to. -/

mutual

/-- The attempt at a declaration at the front of `t :: after`, and those in it. -/
def attemptsAt (t : Token) (after : List Token) : List (List Token) :=
  (if t.kind = .symbol .varWord then [] else attemptsInStatement (t :: after)) ++ [t :: after]
termination_by (after.length + 1, 1)

def attemptsInStatement (input : List Token) : List (List Token) :=
  match input with
  | [] => []
  | t :: after =>
    match t.kind with
    | .symbol .ifWord => attemptsInIf after
    | .symbol .printWord => []
    | .symbol .leftBrace => attemptsInBlock after
    | .symbol .whileWord => attemptsInWhile after
    | .symbol .forWord => attemptsInFor after
    | _ => []
termination_by (input.length, 0)

/-- The attempts in a block, from after its brace on. -/
def attemptsInBlock (input : List Token) : List (List Token) :=
  match input with
  | [] => []
  | t :: after =>
    if t.kind = .symbol .rightBrace then []
    else attemptsAt t after ++ attemptsInBlock (declaration t after).rest
termination_by (input.length, 2)
decreasing_by
  · exact Prod.Lex.right _ (Nat.lt_succ_self _)
  · exact Prod.Lex.left _ _ (declaration t after).shorter

def attemptsInIf (input : List Token) : List (List Token) :=
  (expect .leftParen .parenAfterIf input).behind fun rest _ =>
  (expression rest).behind fun rest _ =>
  (expect .rightParen .parenAfterIfCondition rest).behind fun rest _ =>
  attemptsInStatement rest ++ (statement rest).behind fun rest _ =>
    match rest with
    | [] => []
    | t :: after => if t.kind = .symbol .elseWord then attemptsInStatement after else []
termination_by (input.length, 0)
decreasing_by all_goals exact Prod.Lex.left _ _ (by grind)

def attemptsInWhile (input : List Token) : List (List Token) :=
  (expect .leftParen .parenAfterWhile input).behind fun rest _ =>
  (expression rest).behind fun rest _ =>
  (expect .rightParen .parenAfterCondition rest).behind fun rest _ =>
  attemptsInStatement rest
termination_by (input.length, 0)

def attemptsInFor (input : List Token) : List (List Token) :=
  (expect .leftParen .parenAfterFor input).behind fun rest _ =>
  (startClause rest).behind fun rest _ =>
  (conditionClause rest).behind fun rest _ =>
  (stepClause rest).behind fun rest _ =>
  attemptsInStatement rest
termination_by (input.length, 0)

end

/-- All the attempts at declarations that reading `input` takes. -/
def attempts (input : List Token) : List (List Token) :=
  match input with
  | [] => []
  | t :: after => attemptsAt t after ++ attempts (declaration t after).rest
termination_by input.length
decreasing_by exact (declaration t after).shorter

/-! ### Recovery -/

theorem recoverAfter_suffix (previous : Token) : ∀ input : List Token,
    recoverAfter previous input <:+ input
  | [] => List.suffix_refl _
  | t :: rest => by
    rw [recoverAfter]
    split
    · exact List.suffix_refl _
    · exact (recoverAfter_suffix t rest).trans (List.suffix_cons t rest)

theorem recover_suffix (input : List Token) : recover input <:+ input := by
  cases input with
  | nil => exact List.suffix_refl _
  | cons t rest => exact (recoverAfter_suffix t rest).trans (List.suffix_cons t rest)

/-- The tokens that recovery skips. -/
def skipped (input : List Token) : List Token :=
  input.take (input.length - (recover input).length)

theorem skipped_append (input : List Token) : skipped input ++ recover input = input :=
  List.suffix_iff_eq_append.mp (recover_suffix input)

/-- What is complained about when the attempt fails. -/
def failure? : List Token → Option Complaint
  | [] => none
  | t :: after =>
    match phrase t after with
    | .done .. => none
    | .stuck p _ rest _ => some ⟨rest.head?, p⟩

/-- The tokens that are skipped when the attempt fails. -/
def discarded : List Token → List Token
  | [] => []
  | t :: after =>
    match phrase t after with
    | .done .. => []
    | .stuck _ _ rest _ => skipped rest

/-! ### Accounts -/

/-- How many complaints are about blocks that are not closed. -/
def unclosed (cs : List Complaint) : Nat := cs.countP (·.problem = .braceAfterBlock)

theorem unclosed_append (cs more : List Complaint) :
    unclosed (cs ++ more) = unclosed cs + unclosed more := List.countP_append

theorem unclosed_singleton (blamed : Option Token) (p : Problem) :
    unclosed [⟨blamed, p⟩] = if p = .braceAfterBlock then 1 else 0 := by
  simp [unclosed, List.countP_singleton]

theorem unclosed_targets {cs : List Complaint} (h : OnlyTargets cs) : unclosed cs = 0 :=
  h.countP_eq_zero (fun p => decide (p = .braceAfterBlock)) rfl

theorem filter_isFatal_eq_nil {cs : List Complaint} (h : OnlyTargets cs) :
    cs.filter (·.problem.isFatal) = [] :=
  List.filter_eq_nil_iff.mpr (List.countP_eq_zero.mp (h.countP_eq_zero Problem.isFatal rfl))

/-- The attempts skip no braces. -/
def KeepsBraces (attempts : List (List Token)) : Prop :=
  ∀ t ∈ attempts.flatMap discarded, t.kind.isBrace = false

/-- The braces among the tokens taken are those that were skipped, one for each block not closed,
and those of `opened` blocks more. Where none is skipped, none is taken from around. -/
structure Matched (opened : Int) (taken : List Token) (attempts : List (List Token))
    (cs : List Complaint) : Prop where
  depth : depth taken = depth (attempts.flatMap discarded) + unclosed cs + opened
  above : KeepsBraces attempts → StaysAbove taken

/-- Reading has gone from `input` on to `rest`, by attempts at places on the way, and has complained
once about each that failed and besides only about targets of assignments. When it complains about
a block it is at the end, and it closes no more blocks. -/
structure Account (opened : Int) (input : List Token) (attempts : List (List Token))
    (cs : List Complaint) (rest : List Token) : Prop where
  taken : ∃ taken, taken ++ rest = input ∧ Matched opened taken attempts cs
  inside : ∀ attempt ∈ attempts, attempt ≠ [] ∧ attempt <:+ input
  failures : cs.filter (·.problem.isFatal) = attempts.filterMap failure?
  ended : unclosed cs ≠ 0 → rest = [] ∧ 0 ≤ opened

/-- Only tokens without a brace are taken from `input`, and `rest` is left. -/
def PlainlyLeaves (input rest : List Token) : Prop :=
  ∃ taken, taken ++ rest = input ∧ ∀ t ∈ taken, t.kind.isBrace = false

theorem keepsBraces_append {as bs : List (List Token)} :
    KeepsBraces (as ++ bs) ↔ KeepsBraces as ∧ KeepsBraces bs := by
  rw [KeepsBraces, List.flatMap_append]
  exact List.forall_mem_append

namespace Matched

variable {opened : Int} {taken more : List Token} {as bs : List (List Token)} {cs ds : List Complaint}

theorem of_targets (hc : OnlyTargets cs) (h : ∀ t ∈ taken, t.kind.isBrace = false) :
    Matched 0 taken [] cs where
  depth := by
    rw [depth_of_no_brace h, unclosed_targets hc]
    rfl
  above _ := staysAbove_of_no_brace h

/-- What has taken no brace from around leaves the next all its room. -/
theorem append {before total : Int} (hb : 0 ≤ before) (h : Matched before taken as cs)
    (h' : Matched opened more bs ds) (ht : before + opened = total) :
    Matched total (taken ++ more) (as ++ bs) (cs ++ ds) where
  depth := by
    have hd := h.depth
    have hd' := h'.depth
    rw [depth_append, List.flatMap_append, depth_append, unclosed_append]
    omega
  above hk := by
    obtain ⟨hkeeps, hkeeps'⟩ := keepsBraces_append.mp hk
    have hd := h.depth
    rw [depth_of_no_brace hkeeps] at hd
    exact (h.above hkeeps).append (by omega) (h'.above hkeeps')

theorem leftBrace {t : Token} (ht : t.kind = .symbol .leftBrace) : Matched 1 [t] [] [] where
  depth := by
    rw [depth_cons, ht]
    rfl
  above _ := staysAbove_singleton t

theorem rightBrace {t : Token} (ht : t.kind = .symbol .rightBrace) : Matched (-1) [t] [] [] where
  depth := by
    rw [depth_cons, ht]
    rfl
  above _ := staysAbove_singleton t

theorem read {t : Token} {after : List Token} {s : Statement} {noted : List Complaint}
    {rest : List Token} {shorter : rest.length < after.length + 1}
    (hp : phrase t after = .done s noted rest shorter) : Matched 0 [] [t :: after] [] where
  depth := by
    have hd : discarded (t :: after) = [] := by rw [discarded, hp]
    simp [hd, unclosed]
  above _ := staysAbove_of_no_brace (List.forall_mem_nil _)

theorem failed {t : Token} {after : List Token} {p : Problem} {noted : List Complaint}
    {rest : List Token} {within : rest.length ≤ after.length + 1}
    (hp : phrase t after = .stuck p noted rest within) :
    Matched (-p.opened) (skipped rest) [t :: after] [⟨rest.head?, p⟩] := by
  have hd : discarded (t :: after) = skipped rest := by rw [discarded, hp]
  constructor
  · have hu : (unclosed [⟨rest.head?, p⟩] : Int) = p.opened := by
      rw [unclosed_singleton, Problem.opened]
      split <;> rfl
    rw [List.flatMap_singleton, hd, hu]
    omega
  · intro hk
    rw [KeepsBraces, List.flatMap_singleton, hd] at hk
    exact staysAbove_of_no_brace hk

end Matched

namespace Account

variable {opened : Int} {input mid rest : List Token} {as bs : List (List Token)}
  {cs more : List Complaint}

theorem forward (h : Account opened input as cs rest) : rest <:+ input := by
  obtain ⟨taken, htaken, -⟩ := h.taken
  exact ⟨taken, htaken⟩

theorem of_targets (hc : OnlyTargets cs) (h : PlainlyLeaves input rest) :
    Account 0 input [] cs rest where
  taken := by
    obtain ⟨taken, htaken, hplain⟩ := h
    exact ⟨taken, htaken, .of_targets hc hplain⟩
  inside _ ha := by cases ha
  failures := filter_isFatal_eq_nil hc
  ended hu := absurd (unclosed_targets hc) hu

theorem nothing (input : List Token) : Account 0 input [] [] input :=
  .of_targets onlyTargets_nil ⟨[], rfl, List.forall_mem_nil _⟩

theorem rightBrace {t : Token} (ht : t.kind = .symbol .rightBrace) (after : List Token) :
    Account (-1) (t :: after) [] [] after where
  taken := ⟨[t], rfl, .rightBrace ht⟩
  inside := List.forall_mem_nil _
  failures := rfl
  ended hu := absurd rfl hu

/-- At the end of the input there is nothing to take. -/
theorem of_nil (h : Account opened [] as cs rest) : rest = [] ∧ 0 ≤ opened := by
  refine ⟨List.suffix_nil.mp h.forward, ?_⟩
  have has : as = [] := by
    refine List.eq_nil_iff_forall_not_mem.mpr fun a ha => ?_
    obtain ⟨hne, hs⟩ := h.inside a ha
    exact hne (List.suffix_nil.mp hs)
  obtain ⟨taken, htaken, hm⟩ := h.taken
  have hd := hm.depth
  rw [(List.append_eq_nil_iff.mp htaken).1, has, List.flatMap_nil, depth_nil] at hd
  by_cases hu : unclosed cs = 0
  · omega
  · exact (h.ended hu).2

theorem trans (h : Account 0 input as cs mid) (h' : Account opened mid bs more rest) :
    Account opened input (as ++ bs) (cs ++ more) rest where
  taken := by
    obtain ⟨taken, htaken, hm⟩ := h.taken
    obtain ⟨taken', htaken', hm'⟩ := h'.taken
    have htotal := hm.append (Int.le_refl 0) hm' (Int.zero_add opened)
    exact ⟨taken ++ taken', by rw [List.append_assoc, htaken', htaken], htotal⟩
  inside := by
    refine List.forall_mem_append.mpr ⟨h.inside, fun b hb => ?_⟩
    obtain ⟨hne, hs⟩ := h'.inside b hb
    exact ⟨hne, hs.trans h.forward⟩
  failures := by rw [List.filter_append, List.filterMap_append, h.failures, h'.failures]
  ended hu := by
    rw [unclosed_append] at hu
    by_cases hcs : unclosed cs = 0
    · exact h'.ended (by omega)
    · have hmid := (h.ended hcs).1
      rw [hmid] at h'
      exact h'.of_nil

theorem later {t : Token} (ht : t.kind.isBrace = false) (h : Account opened input as cs rest) :
    Account opened (t :: input) as cs rest := by
  have hone : Account 0 (t :: input) [] [] input :=
    .of_targets onlyTargets_nil ⟨[t], rfl, by simpa using ht⟩
  exact hone.trans h

/-- The account of a block is one of a whole statement, with the brace in front. -/
theorem cons_leftBrace {t : Token} (ht : t.kind = .symbol .leftBrace)
    (h : Account (-1 + opened) input as cs rest) : Account opened (t :: input) as cs rest where
  taken := by
    obtain ⟨taken, htaken, hm⟩ := h.taken
    exact ⟨[t] ++ taken, by rw [List.append_assoc, htaken]; rfl,
      (Matched.leftBrace ht).append (by decide) hm (by omega)⟩
  inside a ha := ⟨(h.inside a ha).1, (h.inside a ha).2.trans (List.suffix_cons t input)⟩
  failures := h.failures
  ended hu := ⟨(h.ended hu).1, by have hpos := (h.ended hu).2; omega⟩

end Account

end Grammar

/-! ### Readings with their attempts -/

namespace Reading

open Grammar

variable {m n : Nat} {α β : Type} {opened : Int} {input : List Token} {as : List (List Token)}

/-- Of the reading of `input`, which takes the attempts `as`, there is an account. It gets stuck at
no target of an assignment, and about a block only at the end. -/
def Accounted (opened : Int) (input : List Token) (as : List (List Token)) (r : Reading n α) : Prop :=
  r.Ends (fun _ cs rest => Account opened input as cs rest)
    (fun p cs rest => Account (opened + p.opened) input as cs rest ∧ p.isFatal = true ∧
      (p = .braceAfterBlock → rest = []))

@[simp] theorem accounted_within (h : m ≤ n) (r : Reading m α) :
    (r.within h).Accounted opened input as ↔ r.Accounted opened input as := ends_within h r

@[simp] theorem accounted_past (r : Reading n α) :
    r.past.Accounted opened input as ↔ r.Accounted opened input as := ends_past r

@[simp] theorem accounted_map (f : α → β) (r : Reading n α) :
    (r.map f).Accounted opened input as ↔ r.Accounted opened input as := ends_map f r

/-- A phrase without a block takes no attempts. -/
theorem Leaves.accounted {r : Reading n α}
    (h : r.Leaves (PlainlyLeaves input) (PlainlyLeaves input)) : r.Accounted 0 input [] := by
  refine h.ends.imp (fun _ _ _ h => .of_targets h.1 h.2) fun p _ _ h => ?_
  obtain ⟨hc, hplain, hrest⟩ := h
  rw [Problem.opened_of_isPlain hplain]
  exact ⟨.of_targets hc hrest, Problem.isFatal_of_isPlain hplain,
    fun hp => absurd hp (Problem.ne_brace_of_isPlain hplain)⟩

theorem Accounted.later {r : Reading n α} (h : r.Accounted opened input as) {t : Token}
    (ht : t.kind.isBrace = false) : r.Accounted opened (t :: input) as :=
  h.imp (fun _ _ _ h => h.later ht) fun _ _ _ h => ⟨h.1.later ht, h.2⟩

/-- The reading of a block is that of a whole statement, with the brace in front. -/
theorem Accounted.cons_leftBrace {r : Reading n α} (h : r.Accounted (-1) input as) {t : Token}
    (ht : t.kind = .symbol .leftBrace) : r.Accounted 0 (t :: input) as := by
  refine h.imp (fun _ _ _ h => h.cons_leftBrace ht) fun p _ _ h => ⟨?_, h.2⟩
  rw [Int.zero_add]
  exact h.1.cons_leftBrace ht

theorem Accounted.andPerhaps {r : Reading n α} (h : r.Accounted 0 input as)
    {next : (rest : List Token) → rest.length < n → α → Reading n β}
    {within : (rest : List Token) → rest.length < n → List (List Token)}
    (hn : ∀ rest shorter v, (next rest shorter v).Accounted 0 rest (within rest shorter)) :
    (r.andPerhaps next).Accounted 0 input (as ++ r.behind within) := by
  cases r with
  | done v cs rest s =>
    refine (ends_noting cs _).mpr ((hn rest s v).imp (fun _ _ _ h' => ?_) fun _ _ _ h' => ?_)
    · exact h.trans h'
    · exact ⟨h.trans h'.1, h'.2⟩
  | stuck p cs rest w =>
    show Account (0 + p.opened) input (as ++ []) cs rest ∧ _
    rw [List.append_nil]
    exact h

theorem Accounted.andThen {r : Reading n α} (h : r.Accounted 0 input as)
    {next : (rest : List Token) → rest.length < n → α → Reading rest.length β}
    {within : (rest : List Token) → rest.length < n → List (List Token)}
    (hn : ∀ rest shorter v, (next rest shorter v).Accounted 0 rest (within rest shorter)) :
    (r.andThen next).Accounted 0 input (as ++ r.behind within) :=
  h.andPerhaps fun rest s v => (accounted_within _ _).mpr (hn rest s v)

/-- After a phrase without a block all the attempts are those behind it. -/
theorem Leaves.andThen_accounted {r : Reading n α}
    (h : r.Leaves (PlainlyLeaves input) (PlainlyLeaves input))
    {next : (rest : List Token) → rest.length < n → α → Reading rest.length β}
    {within : (rest : List Token) → rest.length < n → List (List Token)}
    (hn : ∀ rest shorter v, (next rest shorter v).Accounted 0 rest (within rest shorter)) :
    (r.andThen next).Accounted 0 input (r.behind within) := h.accounted.andThen hn

end Reading

namespace Grammar

theorem plainlyLeaves_refl (input : List Token) : PlainlyLeaves input input :=
  ⟨[], rfl, List.forall_mem_nil _⟩

theorem plainlyLeaves_cons {t : Token} (ht : t.kind.isBrace = false) (after : List Token) :
    PlainlyLeaves (t :: after) after := ⟨[t], rfl, by simpa using ht⟩

theorem passes_plainly (input : List Token) : Passes (!·.isBrace) (PlainlyLeaves input) := by
  rintro t rest ht ⟨taken, rfl, hplain⟩
  refine ⟨taken ++ [t], by simp, List.forall_mem_append.mpr ⟨hplain, ?_⟩⟩
  simpa using ht

/-- A declaration is accounted for with the attempt at it. -/
theorem account_ofReading {t : Token} {after : List Token} {as : List (List Token)}
    (h : (phrase t after).Accounted 0 (t :: after) as) :
    Account 0 (t :: after) (as ++ [t :: after]) (declaration t after).complaints
      (declaration t after).rest := by
  have hself : ∀ a ∈ [t :: after], a ≠ [] ∧ a <:+ t :: after := by simp
  rw [declaration_eq]
  cases hp : phrase t after with
  | done s cs rest shorter =>
    rw [hp] at h
    obtain ⟨⟨taken, htaken, hm⟩, hinside, hfailures, hended⟩ : Account 0 (t :: after) as cs rest := h
    have hf : failure? (t :: after) = none := by rw [failure?, hp]
    have hm' := hm.append (Int.le_refl 0) (Matched.read hp) rfl
    rw [List.append_nil, List.append_nil] at hm'
    exact ⟨⟨taken, htaken, hm'⟩, List.forall_mem_append.mpr ⟨hinside, hself⟩,
      by simp [Declared.ofReading, hfailures, hf], hended⟩
  | stuck p cs rest within =>
    rw [hp] at h
    obtain ⟨⟨⟨taken, htaken, hm⟩, hinside, hfailures, hended⟩, hfatal, hend⟩ :
      Account (0 + p.opened) (t :: after) as cs rest ∧ _ := h
    have hf : failure? (t :: after) = some ⟨rest.head?, p⟩ := by rw [failure?, hp]
    have hpos : 0 ≤ 0 + p.opened := by
      unfold Problem.opened
      split <;> decide
    have hm' : Matched 0 (taken ++ skipped rest) (as ++ [t :: after]) (cs ++ [⟨rest.head?, p⟩]) :=
      hm.append hpos (Matched.failed hp) (by omega)
    refine ⟨⟨taken ++ skipped rest, ?_, hm'⟩, List.forall_mem_append.mpr ⟨hinside, hself⟩,
      by simp [Declared.ofReading, hfailures, hf, hfatal], fun hu => ?_⟩
    · rw [List.append_assoc]
      show taken ++ (skipped rest ++ recover rest) = t :: after
      rw [skipped_append, htaken]
    · have hrest : rest = [] := by
        by_cases hbrace : p = .braceAfterBlock
        · exact hend hbrace
        · have hsplit : unclosed (cs ++ [⟨rest.head?, p⟩]) ≠ 0 := hu
          rw [unclosed_append, unclosed_singleton, if_neg hbrace] at hsplit
          exact (hended hsplit).1
      refine ⟨?_, Int.le_refl 0⟩
      show recover rest = []
      rw [hrest, recover]

mutual

theorem account_declaration (t : Token) (after : List Token) :
    Account 0 (t :: after) (attemptsAt t after) (declaration t after).complaints
      (declaration t after).rest := by
  rw [attemptsAt]
  apply account_ofReading
  rw [phrase]
  split
  · rename_i hk
    rw [Reading.accounted_past]
    have ht : t.kind.isBrace = false := by rw [hk]; rfl
    exact (leaves_variableDeclaration (passes_plainly (t :: after)).passesOn
      (plainlyLeaves_cons ht after)).accounted
  · exact accounted_statement (t :: after)
termination_by (after.length + 1, 1)

theorem accounted_statement (input : List Token) :
    (statement input).Accounted 0 input (attemptsInStatement input) := by
  have hP := (passes_plainly input).passesOn
  have hexpression : (expressionStatement input).Accounted 0 input [] :=
    (leaves_expressionStatement hP (plainlyLeaves_refl input)).accounted
  cases input with
  | nil =>
    rw [statement, attemptsInStatement]
    exact hexpression
  | cons t after =>
    rw [statement, attemptsInStatement]
    cases hk : t.kind with
    | symbol s =>
      cases s with
      | ifWord =>
        rw [Reading.accounted_past]
        exact (accounted_if after).later (by rw [hk]; rfl)
      | printWord =>
        rw [Reading.accounted_past]
        exact (leaves_printStatement hP (plainlyLeaves_cons (by rw [hk]; rfl) after)).accounted
      | leftBrace =>
        rw [Reading.accounted_past, Reading.accounted_map]
        exact (accounted_block after).cons_leftBrace hk
      | whileWord =>
        rw [Reading.accounted_past]
        exact (accounted_while after).later (by rw [hk]; rfl)
      | forWord =>
        rw [Reading.accounted_past]
        exact (accounted_for after).later (by rw [hk]; rfl)
      | _ => exact hexpression
    | _ => exact hexpression
termination_by (input.length, 0)

theorem accounted_block (input : List Token) :
    (block input).Accounted (-1) input (attemptsInBlock input) := by
  cases input with
  | nil =>
    rw [block, attemptsInBlock]
    exact ⟨.nothing [], rfl, fun _ => rfl⟩
  | cons t after =>
    rw [block, attemptsInBlock]
    split
    · rename_i hk
      exact .rightBrace hk after
    · have hd := account_declaration t after
      have hlt := (declaration t after).shorter
      have hb := accounted_block (declaration t after).rest
      rw [Reading.accounted_within]
      refine (Reading.ends_noting _ _).mpr ((Reading.ends_map _ _).mpr (hb.imp ?_ ?_))
      · exact fun _ _ _ h => hd.trans h
      · exact fun _ _ _ h => ⟨hd.trans h.1, h.2⟩
termination_by (input.length, 2)

theorem accounted_if (input : List Token) :
    (ifStatement input).Accounted 0 input (attemptsInIf input) := by
  rw [ifStatement, attemptsInIf]
  apply Reading.Leaves.andThen_accounted
    (leaves_expect (passes_plainly input) rfl rfl (plainlyLeaves_refl input))
  intro rest h1 _
  apply Reading.Leaves.andThen_accounted
    (leaves_expression (passes_plainly rest).passesOn.token rest (plainlyLeaves_refl rest))
  intro rest h2 condition
  apply Reading.Leaves.andThen_accounted
    (leaves_expect (passes_plainly rest) rfl rfl (plainlyLeaves_refl rest))
  intro rest h3 _
  apply Reading.Accounted.andPerhaps (accounted_statement rest)
  intro rest h4 yes
  cases rest with
  | nil => exact .nothing []
  | cons t after =>
    show Reading.Accounted _ _ (if t.kind = .symbol .elseWord then _ else _)
      (if t.kind = .symbol .elseWord then _ else _)
    split
    · rename_i hk
      rw [Reading.accounted_within, Reading.accounted_map]
      exact (accounted_statement after).later (by rw [hk]; rfl)
    · exact .nothing (t :: after)
termination_by (input.length, 0)
decreasing_by all_goals exact Prod.Lex.left _ _ (by grind)

theorem accounted_while (input : List Token) :
    (whileStatement input).Accounted 0 input (attemptsInWhile input) := by
  rw [whileStatement, attemptsInWhile]
  apply Reading.Leaves.andThen_accounted
    (leaves_expect (passes_plainly input) rfl rfl (plainlyLeaves_refl input))
  intro rest h1 _
  apply Reading.Leaves.andThen_accounted
    (leaves_expression (passes_plainly rest).passesOn.token rest (plainlyLeaves_refl rest))
  intro rest h2 condition
  apply Reading.Leaves.andThen_accounted
    (leaves_expect (passes_plainly rest) rfl rfl (plainlyLeaves_refl rest))
  intro rest h3 _
  rw [Reading.accounted_map]
  exact accounted_statement rest
termination_by (input.length, 0)

theorem accounted_for (input : List Token) :
    (forStatement input).Accounted 0 input (attemptsInFor input) := by
  rw [forStatement, attemptsInFor]
  apply Reading.Leaves.andThen_accounted
    (leaves_expect (passes_plainly input) rfl rfl (plainlyLeaves_refl input))
  intro rest h1 _
  apply Reading.Leaves.andThen_accounted
    (leaves_startClause (passes_plainly rest) (plainlyLeaves_refl rest))
  intro rest h2 start
  apply Reading.Leaves.andThen_accounted
    (leaves_conditionClause (passes_plainly rest) (plainlyLeaves_refl rest))
  intro rest h3 condition
  apply Reading.Leaves.andThen_accounted
    (leaves_stepClause (passes_plainly rest) (plainlyLeaves_refl rest))
  intro rest h4 step
  rw [Reading.accounted_map]
  exact accounted_statement rest
termination_by (input.length, 0)

end

/-- Reading a program goes to the end of it. -/
theorem account_program (input : List Token) :
    Account 0 input (attempts input) (program input).2 [] := by
  cases input with
  | nil =>
    rw [attempts, program]
    exact .nothing []
  | cons t after =>
    have hlt := (declaration t after).shorter
    rw [attempts, program_cons]
    exact (account_declaration t after).trans (account_program (declaration t after).rest)
termination_by input.length

end Grammar
end Lox

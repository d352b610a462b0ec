/-
# Blame

No token is blamed for two things. A declaration that fails blames the token
it gets stuck at, and recovery takes that token before it looks for the next
statement; the target of an assignment is blamed on its `=`, which has been
taken. So every token is blamed at most as often as it is taken. Failures are
complained about in the order of their tokens, those at the end of the input
last. A wrong target is complained about only when the value has been read, so
its complaint may stand behind others for later tokens.

Key definitions: `Blame`, `Blames`, `Diagnostic.line?`.
Key theorems: `Blame.append`, `stepwise_blames`, `Blame.nodup_lines`, `Blame.pairwise_failures`,
`no_token_blamed_twice`.
-/
import Mathlib
import Lox.Proofs.Recovery.Gaps
import Lox.Proofs.Recovery.Passage
import Lox.Proofs.Recovery.Progress

namespace Lox

/-- What can be complained about when `taken` has been taken and `rest` is left. -/
structure Blame (taken : List Token) (cs : List Complaint) (rest : List Token) : Prop where
  once : (cs.filterMap Complaint.blamed).Subperm taken
  /-- The failures blame tokens in their order and then `k` times the end. -/
  inOrder : ∃ (ts : List Token) (k : Nat), ts.Sublist taken ∧ (k ≠ 0 → rest = []) ∧
    (cs.filter (·.problem.isFatal)).map Complaint.blamed = ts.map some ++ List.replicate k none
  targets : ∀ c ∈ cs, c.problem.isFatal = false →
    ∃ t ∈ taken, c.blamed = some t ∧ t.kind = .symbol .equal

/-- Reading comes from `input` to `rest`, and the complaints blame what it takes. -/
def Blames (input : List Token) (cs : List Complaint) (rest : List Token) : Prop :=
  ∃ taken, taken ++ rest = input ∧ Blame taken cs rest

namespace Blame

variable {taken more rest : List Token} {cs ds : List Complaint}

theorem nil (taken rest : List Token) : Blame taken [] rest where
  once := List.nil_subperm
  inOrder := ⟨[], 0, List.nil_sublist taken, fun h => absurd rfl h, rfl⟩
  targets := List.forall_mem_nil _

/-- After a complaint about the end nothing more is taken. -/
theorem append (h : Blame taken cs (more ++ rest)) (h' : Blame more ds rest) :
    Blame (taken ++ more) (cs ++ ds) rest where
  once := by
    rw [List.filterMap_append]
    exact h.once.append h'.once
  inOrder := by
    obtain ⟨ts, k, hts, hk, hcs⟩ := h.inOrder
    obtain ⟨us, l, hus, hl, hds⟩ := h'.inOrder
    rw [List.filter_append, List.map_append, hcs, hds]
    by_cases hzero : k = 0
    · subst hzero
      exact ⟨ts ++ us, l, hts.append hus, hl, by simp⟩
    · obtain ⟨hmore, hrest⟩ := List.append_eq_nil_iff.mp (hk hzero)
      have hnone : us = [] := List.sublist_nil.mp (hmore ▸ hus)
      refine ⟨ts, k + l, hts.trans (List.sublist_append_left taken more), fun _ => hrest, ?_⟩
      rw [hnone, List.map_nil, List.nil_append, List.append_assoc, List.replicate_append_replicate]
  targets := by
    refine List.forall_mem_append.mpr ⟨fun c hc hp => ?_, fun c hc hp => ?_⟩
    · obtain ⟨t, ht, hblamed⟩ := h.targets c hc hp
      exact ⟨t, List.mem_append_left more ht, hblamed⟩
    · obtain ⟨t, ht, hblamed⟩ := h'.targets c hc hp
      exact ⟨t, List.mem_append_right taken ht, hblamed⟩

/-- The `=` has been taken before the value, and is blamed after it. -/
theorem target {t : Token} (ht : t.kind = .symbol .equal) (h : Blame taken cs rest) :
    Blame (t :: taken) (cs ++ [⟨some t, .assignmentTarget⟩]) rest where
  once := by
    have hlast := h.once.append (List.Subperm.refl [t])
    rw [List.filterMap_append]
    exact hlast.trans (List.perm_append_singleton t taken).subperm
  inOrder := by
    obtain ⟨ts, k, hts, hk, hcs⟩ := h.inOrder
    refine ⟨ts, k, hts.cons t, hk, ?_⟩
    rw [List.filter_append, List.map_append, hcs]
    exact List.append_nil _
  targets := by
    refine List.forall_mem_append.mpr ⟨fun c hc hp => ?_, fun c hc _ => ?_⟩
    · obtain ⟨u, hu, hblamed⟩ := h.targets c hc hp
      exact ⟨u, List.mem_cons_of_mem t hu, hblamed⟩
    · rw [List.mem_singleton.mp hc]
      exact ⟨t, List.mem_cons_self, rfl, ht⟩

/-- A failure blames a token that recovery takes, or else the end. -/
theorem failure {p : Problem} (hp : p.isFatal = true) {blamed : Option Token}
    (ht : ∀ t ∈ blamed, t ∈ taken) (hend : blamed = none → rest = []) :
    Blame taken [⟨blamed, p⟩] rest where
  once := by
    cases blamed with
    | none => exact List.nil_subperm
    | some t => exact List.singleton_subperm_iff.mpr (ht t rfl)
  inOrder := by
    have hfatal : [(⟨blamed, p⟩ : Complaint)].filter (·.problem.isFatal) = [⟨blamed, p⟩] :=
      List.filter_cons_of_pos hp
    rw [hfatal]
    cases blamed with
    | none => exact ⟨[], 1, List.nil_sublist taken, fun _ => hend rfl, rfl⟩
    | some t => exact ⟨[t], 0, List.singleton_sublist.mpr (ht t rfl), fun h => absurd rfl h, rfl⟩
  targets := by
    intro c hc hno
    rw [List.mem_singleton.mp hc, hp] at hno
    cases hno

end Blame

/-- Recovery takes at least the first token. -/
theorem Grammar.mem_skipped (t : Token) (after : List Token) : t ∈ skipped (t :: after) := by
  obtain ⟨more, hmore⟩ := recoverAfter_suffix t after
  have hall : t :: more ++ recover (t :: after) = skipped (t :: after) ++ recover (t :: after) :=
    (congrArg (t :: ·) hmore).trans (skipped_append (t :: after)).symm
  rw [← List.append_cancel_right hall]
  exact List.mem_cons_self

theorem stepwise_blames : Stepwise Blames where
  nothing input := ⟨[], rfl, .nil [] input⟩
  token t rest := ⟨[t], rfl, .nil [t] rest⟩
  trans := by
    rintro input cs mid more rest ⟨taken, rfl, h⟩ ⟨taken', rfl, h'⟩
    exact ⟨taken ++ taken', List.append_assoc taken taken' rest, h.append h'⟩
  target := by
    rintro t after cs rest ht ⟨taken, rfl, h⟩
    exact ⟨t :: taken, rfl, h.target ht⟩
  failure := by
    intro p rest hp
    refine ⟨Grammar.skipped rest, Grammar.skipped_append rest, .failure hp ?_ ?_⟩
    · intro t ht
      obtain ⟨after, rfl⟩ := List.head?_eq_some_iff.mp ht
      exact Grammar.mem_skipped t after
    · intro hnone
      rw [List.head?_eq_none_iff.mp hnone, Grammar.recover]

/-! ### Lines -/

/-- The line a diagnostic stands on. -/
def Diagnostic.line? : Diagnostic → Option Nat
  | .static line _ _ | .evaluation line _ => some line
  | .output _ => none

theorem Complaint.line?_diagnostic (c : Complaint) (endLine : Nat) :
    (c.diagnostic endLine).line? = some ((c.blamed.map Token.line).getD endLine) := by
  unfold diagnostic
  split <;> rename_i hb <;> rw [hb] <;> rfl

/-- Where no two diagnostics stand on one line, but for the last, each is alone on its line. -/
theorem Diagnostic.countP_line_eq_one {ds : List Diagnostic} {endLine line : Nat}
    (honce : ((ds.filter (·.line? ≠ some endLine)).map Diagnostic.line?).Nodup) {d : Diagnostic}
    (hd : d ∈ ds) (hline : d.line? = some line) (hne : line ≠ endLine) :
    ds.countP (·.line? = some line) = 1 := by
  have hmem : some line ∈ (ds.filter (·.line? ≠ some endLine)).map Diagnostic.line? :=
    List.mem_map.mpr ⟨d, List.mem_filter.mpr ⟨hd, by simp [hline, hne]⟩, hline⟩
  have hcount := List.count_eq_one_of_mem honce hmem
  rw [List.count, List.countP_map, List.countP_filter] at hcount
  rw [← hcount]
  refine List.countP_congr fun e _ => ?_
  suffices e.line? = some line → e.line? ≠ some endLine by simpa using this
  intro he
  rw [he]
  simpa using hne

section Lines

variable {cs : List Complaint} {endLine : Nat}

theorem lines_elsewhere (h : ∀ t ∈ cs.filterMap Complaint.blamed, t.line ≠ endLine) :
    ((cs.map (Complaint.diagnostic endLine)).filter (·.line? ≠ some endLine)).map Diagnostic.line? =
      (cs.filterMap Complaint.blamed).map (some ·.line) := by
  induction cs with
  | nil => rfl
  | cons c cs ih =>
    have hline := c.line?_diagnostic endLine
    cases hb : c.blamed with
    | none =>
      rw [List.filterMap_cons_none hb] at h ⊢
      rw [hb] at hline
      rw [← ih h, List.map_cons, List.filter_cons_of_neg (by simp [hline])]
    | some t =>
      rw [List.filterMap_cons_some hb] at h ⊢
      obtain ⟨ht, hcs⟩ := List.forall_mem_cons.mp h
      rw [hb] at hline
      have hne : t.line ≠ endLine := ht
      rw [List.map_cons, List.map_cons, ← ih hcs, List.filter_cons_of_pos (by simp [hline, hne]),
        List.map_cons, hline]
      rfl

theorem lines_of_failures {ts : List Token} {k : Nat}
    (h : (cs.filter (·.problem.isFatal)).map Complaint.blamed =
      ts.map some ++ List.replicate k none) :
    ((cs.map (Complaint.diagnostic endLine)).filter Diagnostic.isFailure).map Diagnostic.line? =
      ts.map (some ·.line) ++ List.replicate k (some endLine) := by
  have hfilter : cs.filter (Diagnostic.isFailure ∘ Complaint.diagnostic endLine) =
      cs.filter (·.problem.isFatal) :=
    List.filter_congr fun c _ => c.isFailure_diagnostic endLine
  have hline : Diagnostic.line? ∘ Complaint.diagnostic endLine =
      (fun b : Option Token => some ((b.map Token.line).getD endLine)) ∘ Complaint.blamed :=
    funext fun c => c.line?_diagnostic endLine
  rw [List.filter_map, hfilter, List.map_map, hline, ← List.map_map, h, List.map_append,
    List.map_map, List.map_replicate]
  rfl

end Lines

namespace Blame

variable {taken rest : List Token} {cs : List Complaint} {endLine : Nat}

theorem placed (h : Blame taken cs rest) (endLine : Nat) :
    ∀ d ∈ cs.map (Complaint.diagnostic endLine),
      (∃ t ∈ taken, d = .static t.line (" at '" ++ t.lexeme ++ "'") d.problem) ∨
        d = .static endLine " at end" d.problem := by
  intro d hd
  obtain ⟨c, hc, rfl⟩ := List.mem_map.mp hd
  rw [c.problem_diagnostic]
  unfold Complaint.diagnostic
  split
  · rename_i t ht
    exact .inl ⟨t, h.once.subset (List.mem_filterMap.mpr ⟨c, hc, ht⟩), rfl⟩
  · exact .inr rfl

section Ordered

variable (h : Blame taken cs rest) (ho : taken.Pairwise (·.line < ·.line))
  (he : ∀ t ∈ taken, t.line < endLine)
include h ho he

/-- Where the lines tell the tokens apart, they tell apart what is complained about. -/
theorem nodup_lines :
    (((cs.map (Complaint.diagnostic endLine)).filter (·.line? ≠ some endLine)).map
      Diagnostic.line?).Nodup := by
  obtain ⟨ts, hperm, hts⟩ := h.once
  have hlines : (ts.map (some ·.line)).Nodup := by
    refine List.pairwise_map.mpr ((ho.sublist hts).imp fun hlt heq => ?_)
    exact absurd (Option.some.inj heq) (Nat.ne_of_lt hlt)
  rw [lines_elsewhere fun t ht => Nat.ne_of_lt (he t (h.once.subset ht))]
  exact (hperm.map _).nodup hlines

theorem pairwise_failures :
    ((cs.map (Complaint.diagnostic endLine)).filter Diagnostic.isFailure).Pairwise fun d e =>
      d.line? < e.line? ∨ d.line? = some endLine ∧ e.line? = some endLine := by
  obtain ⟨ts, k, hts, -, hcs⟩ := h.inOrder
  let Before (m n : Option Nat) : Prop := m < n ∨ m = some endLine ∧ n = some endLine
  have hfront : (ts.map (some ·.line)).Pairwise Before := by
    refine List.pairwise_map.mpr ((ho.sublist hts).imp fun hlt => .inl ?_)
    exact Option.some_lt_some.mpr hlt
  have hback : (List.replicate k (some endLine)).Pairwise Before :=
    List.pairwise_replicate.mpr (.inr (.inr ⟨rfl, rfl⟩))
  have hbetween : ∀ m ∈ ts.map (some ·.line), ∀ n ∈ List.replicate k (some endLine), Before m n := by
    intro m hm n hn
    obtain ⟨t, ht, rfl⟩ := List.mem_map.mp hm
    rw [(List.mem_replicate.mp hn).2]
    exact .inl (Option.some_lt_some.mpr (he t (hts.subset ht)))
  have hlines : (((cs.map (Complaint.diagnostic endLine)).filter Diagnostic.isFailure).map
      Diagnostic.line?).Pairwise Before := by
    rw [lines_of_failures hcs]
    exact List.pairwise_append.mpr ⟨hfront, hback, hbetween⟩
  exact List.pairwise_map.mp hlines

/-- A wrong target stands alone on the line of its `=`. -/
theorem target_alone {d : Diagnostic} (hd : d ∈ cs.map (Complaint.diagnostic endLine))
    (hp : d.problem = "Invalid assignment target.") :
    ∃ t ∈ taken, t.kind = .symbol .equal ∧ d.line? = some t.line ∧
      (cs.map (Complaint.diagnostic endLine)).countP (·.line? = some t.line) = 1 := by
  obtain ⟨c, hc, rfl⟩ := List.mem_map.mp hd
  have hsoft : c.problem.isFatal = false := by
    rw [← c.isFailure_diagnostic endLine, Diagnostic.isFailure, hp]
    decide
  obtain ⟨t, ht, hblamed, hequal⟩ := h.targets c hc hsoft
  have hline : (c.diagnostic endLine).line? = some t.line := by
    rw [c.line?_diagnostic, hblamed]
    rfl
  have hne : t.line ≠ endLine := Nat.ne_of_lt (he t ht)
  exact ⟨t, ht, hequal, hline,
    Diagnostic.countP_line_eq_one (h.nodup_lines ho he) hd hline hne⟩

end Ordered
end Blame

theorem blame_program (input : List Token) : Blame input (Grammar.program input).2 [] := by
  obtain ⟨taken, htaken, hblame⟩ := Grammar.relates_program stepwise_blames input
  rw [List.append_nil] at htaken
  exact htaken ▸ hblame

/-- **No token is blamed twice.** When the lines tell the tokens apart, no two diagnostics stand on
the line of one token before the end, those of failures stand in the order of the tokens, and a
wrong target is blamed on an `=` that nothing else is blamed on. -/
theorem no_token_blamed_twice (body : List Token) (last : Token) (hl : last.isEnd = true)
    (hb : ∀ t ∈ body, t.isEnd = false) (ho : (body ++ [last]).Pairwise (·.line < ·.line)) :
    let ds := (parse (body ++ [last])).diagnostics
    (∀ d ∈ ds, (∃ t ∈ body, d = .static t.line (" at '" ++ t.lexeme ++ "'") d.problem) ∨
      d = .static last.line " at end" d.problem) ∧
    ((ds.filter (·.line? ≠ some last.line)).map Diagnostic.line?).Nodup ∧
    ((ds.filter (·.problem ≠ "Invalid assignment target.")).Pairwise fun d e =>
      d.line? < e.line? ∨ d.line? = some last.line ∧ e.line? = some last.line) ∧
    ∀ d ∈ ds, d.problem = "Invalid assignment target." →
      ∃ t ∈ body, t.kind = .symbol .equal ∧ d.line? = some t.line ∧
        ds.countP (·.line? = some t.line) = 1 := by
  obtain ⟨horder, -, hlast⟩ := List.pairwise_append.mp ho
  have hbefore : ∀ t ∈ body, t.line < last.line := fun t ht => hlast t ht last List.mem_cons_self
  have hblame := blame_program body
  have hds : (parse (body ++ [last])).diagnostics =
      (Grammar.program body).2.map (Complaint.diagnostic last.line) := by
    rw [parse_of_first_end hb hl [], Parse.diagnostics]
  rw [hds]
  exact ⟨hblame.placed last.line, hblame.nodup_lines horder hbefore,
    hblame.pairwise_failures horder hbefore,
    fun d hd hp => hblame.target_alone horder hbefore hd hp⟩

/-- `nil = nil = nil; ; {`, a token a line: the second target is complained about first, and the
block that is not closed after everything else. -/
theorem no_token_blamed_twice_of_targets :
    let word (s : Symbol) (lexeme : String) (line : Nat) : Token := ⟨.symbol s, lexeme, line⟩
    let body := [word .nilWord "nil" 1, word .equal "=" 2, word .nilWord "nil" 3,
      word .equal "=" 4, word .nilWord "nil" 5, word .semicolon ";" 6, word .semicolon ";" 7,
      word .leftBrace "\x7b" 8]
    let last : Token := ⟨.endOfInput, "", 9⟩
    let ds := (parse (body ++ [last])).diagnostics
    ds = [.static 4 " at '='" "Invalid assignment target.",
        .static 2 " at '='" "Invalid assignment target.",
        .static 7 " at ';'" "Expect expression.",
        .static 9 " at end" "Expect '\x7d' after block."] ∧
      ((ds.filter (·.line? ≠ some last.line)).map Diagnostic.line?).Nodup ∧
      ((ds.filter (·.problem ≠ "Invalid assignment target.")).Pairwise fun d e =>
        d.line? < e.line? ∨ d.line? = some last.line ∧ e.line? = some last.line) ∧
      ∀ d ∈ ds, d.problem = "Invalid assignment target." → ds.countP (·.line? = d.line?) = 1 := by
  intro word body last ds
  have hread : (parse (body ++ [last])).diagnostics =
      [.static 4 " at '='" "Invalid assignment target.",
      .static 2 " at '='" "Invalid assignment target.",
      .static 7 " at ';'" "Expect expression.",
      .static 9 " at end" "Expect '\x7d' after block."] := by cbv
  obtain ⟨-, honce, horder, htargets⟩ :=
    no_token_blamed_twice body last rfl (by decide) (by decide)
  refine ⟨hread, honce, horder, fun d hd hproblem => ?_⟩
  obtain ⟨t, -, -, hline, hcount⟩ := htargets d hd hproblem
  rw [hline]
  exact hcount

end Lox

/-
# Recovery and blocks

Recovery stops at semicolons and at keywords, not at braces. A block in which
it skips no brace is read to the brace that closes it, whatever else is wrong
in it. In a program with balanced braces there is one complaint about a block
that is not closed for each right brace that recovery skips beyond the left
ones, so none if it skips no right brace; and one complaint for each
declaration that fails.

Key theorems: `Grammar.block_of_balanced`, `Grammar.unclosed_program`, `recovery_keeps_blocks`.
-/
import Lox.Proofs.Recovery.Gaps
import Lox.Proofs.Recovery.Progress

namespace Lox

namespace Grammar

/-- Where recovery skips no brace of a block, the block ends at the brace that closes it. -/
theorem block_of_balanced {inner rest : List Token} {brace : Token} (hi : Balanced inner)
    (hb : brace.kind = .symbol .rightBrace)
    (hk : KeepsBraces (attemptsInBlock (inner ++ brace :: rest))) :
    ∃ entries cs shorter, block (inner ++ brace :: rest) = .done entries cs rest shorter := by
  have haccount := accounted_block (inner ++ brace :: rest)
  obtain ⟨_, _, _, -, hends⟩ := turns_block (inner ++ brace :: rest)
  cases hblock : block (inner ++ brace :: rest) with
  | done entries cs after shorter =>
    rw [hblock] at haccount
    obtain ⟨⟨taken, htaken, hm⟩, -, -, hended⟩ : Account (-1) _ _ cs after := haccount
    have hu : unclosed cs = 0 := by
      by_contra hu
      have hpos := (hended hu).2
      omega
    have hd := hm.depth
    rw [depth_of_no_brace hk] at hd
    obtain rfl := hi.eq_of_staysAbove hb htaken.symm (hm.above hk) (by omega)
    exact ⟨entries, cs, shorter, rfl⟩
  | stuck p cs after within =>
    rw [hblock] at haccount hends
    obtain ⟨⟨⟨taken, htaken, hm⟩, -⟩, -⟩ : Account (-1 + p.opened) _ _ cs after ∧ _ := haccount
    obtain ⟨rfl, -, -, rfl⟩ := hends
    rw [List.append_nil] at htaken
    have hd := hm.depth
    have ho : Problem.braceAfterBlock.opened = 1 := rfl
    rw [depth_of_no_brace hk, ho, htaken] at hd
    have hneg := hi.depth_neg hb (htaken ▸ hm.above hk)
    omega

/-- What is skipped and what is not closed make up for each other. -/
theorem unclosed_program (input : List Token) :
    depth input = depth ((attempts input).flatMap discarded) + unclosed (program input).2 := by
  obtain ⟨taken, htaken, hm⟩ := (account_program input).taken
  have hd := hm.depth
  rw [List.append_nil] at htaken
  rw [htaken] at hd
  omega

end Grammar

/-! ### Diagnostics -/

theorem Problem.message_eq_brace_iff (p : Problem) :
    p.message = "Expect '\x7d' after block." ↔ p = .braceAfterBlock := by
  cases p <;> decide

theorem Parse.length_unclosed (p : Parse) :
    (p.diagnostics.filter (·.problem = "Expect '\x7d' after block.")).length =
      Grammar.unclosed p.complaints := by
  rw [diagnostics, Grammar.unclosed, ← List.countP_eq_length_filter, List.countP_map]
  refine List.countP_congr fun c _ => ?_
  rw [Function.comp_apply, c.problem_diagnostic, decide_eq_true_iff, decide_eq_true_iff]
  exact c.problem.message_eq_brace_iff

/-- The diagnostics of failures are those of the attempts that fail. -/
theorem Parse.failures_diagnostics {p : Parse} {attempts : List (List Token)}
    (h : p.complaints.filter (·.problem.isFatal) = attempts.filterMap Grammar.failure?) :
    p.diagnostics.filter (·.problem ≠ "Invalid assignment target.") =
      (attempts.filterMap Grammar.failure?).map (Complaint.diagnostic p.endLine) := by
  rw [← h, diagnostics, List.filter_map]
  congr 1
  refine List.filter_congr fun c _ => ?_
  exact c.isFailure_diagnostic p.endLine

/-- **Recovery keeps to blocks as far as it skips no braces.** In a program with balanced braces
there are as many diagnostics of blocks that are not closed as recovery skips right braces beyond
left ones, so none if it skips no right brace; there is one diagnostic for each attempt at a
declaration that fails, besides those about targets of assignments; and a block in which recovery
skips no brace is read to the brace that closes it, and what stands behind it is left. -/
theorem recovery_keeps_blocks (body : List Token) (last : Token) (hl : last.isEnd = true)
    (hbody : ∀ t ∈ body, t.isEnd = false) (hb : Balanced body) :
    let read := parse (body ++ [last])
    let skipped := (Grammar.attempts body).flatMap Grammar.discarded
    ((read.diagnostics.filter (·.problem = "Expect '\x7d' after block.")).length +
        skipped.countP Token.isLeftBrace = skipped.countP Token.isRightBrace) ∧
    (skipped.countP Token.isRightBrace = 0 →
      ∀ d ∈ read.diagnostics, d.problem ≠ "Expect '\x7d' after block.") ∧
    (read.diagnostics.filter (·.problem ≠ "Invalid assignment target.") =
      ((Grammar.attempts body).filterMap Grammar.failure?).map (Complaint.diagnostic last.line)) ∧
    ∀ inner brace rest, Balanced inner → brace.isRightBrace = true →
      Grammar.KeepsBraces (Grammar.attemptsInBlock (inner ++ brace :: rest)) →
      ∃ entries cs shorter,
        Grammar.block (inner ++ brace :: rest) = .done entries cs rest shorter := by
  intro read skipped
  have hread : read = ⟨(Grammar.program body).1, (Grammar.program body).2, last.line⟩ :=
    parse_of_first_end hbody hl []
  have hcount : (read.diagnostics.filter (·.problem = "Expect '\x7d' after block.")).length +
      skipped.countP Token.isLeftBrace = skipped.countP Token.isRightBrace := by
    have hlength := read.length_unclosed
    have hdepth : depth body = depth skipped + Grammar.unclosed read.complaints := by
      rw [hread]
      exact Grammar.unclosed_program body
    rw [hb.closed, depth_eq_countP] at hdepth
    omega
  refine ⟨hcount, fun hnone d hd hproblem => ?_, ?_, ?_⟩
  · have hmem : d ∈ read.diagnostics.filter (·.problem = "Expect '\x7d' after block.") :=
      List.mem_filter.mpr ⟨hd, decide_eq_true hproblem⟩
    have hpos := List.length_pos_of_mem hmem
    omega
  · rw [hread]
    exact Parse.failures_diagnostics (Grammar.account_program body).failures
  · intro inner brace rest hi hbrace hk
    exact Grammar.block_of_balanced hi (of_decide_eq_true hbrace) hk

/-- `{ a }` is balanced, but recovery skips the brace that closes the block. -/
theorem brace_skipped_after_name :
    let body : List Token := [⟨.symbol .leftBrace, "\x7b", 1⟩, ⟨.identifier "a", "a", 1⟩,
      ⟨.symbol .rightBrace, "\x7d", 1⟩]
    let last : Token := ⟨.endOfInput, "", 1⟩
    last.isEnd = true ∧ (∀ t ∈ body, t.isEnd = false) ∧ Balanced body ∧
      (parse (body ++ [last])).diagnostics.map Diagnostic.message =
        ["[line 1] Error at '\x7d': Expect ';' after expression.",
          "[line 1] Error at end: Expect '\x7d' after block."] ∧
      ∃ d ∈ (parse (body ++ [last])).diagnostics, d.problem = "Expect '\x7d' after block." := by
  intro body last
  have hread : (parse (body ++ [last])).diagnostics =
      [.static 1 " at '\x7d'" "Expect ';' after expression.",
        .static 1 " at end" "Expect '\x7d' after block."] := by cbv
  rw [hread]
  exact ⟨rfl, by decide, by decide, by decide, by decide⟩

/-- `{ { a } b; }`, where the inner block ends at the outer brace. -/
theorem recovery_keeps_blocks_of_nested :
    let left : Token := ⟨.symbol .leftBrace, "\x7b", 1⟩
    let right : Token := ⟨.symbol .rightBrace, "\x7d", 1⟩
    let a : Token := ⟨.identifier "a", "a", 1⟩
    let b : Token := ⟨.identifier "b", "b", 1⟩
    let semicolon : Token := ⟨.symbol .semicolon, ";", 1⟩
    let body := [left, left, a, right, b, semicolon, right]
    let last : Token := ⟨.endOfInput, "", 1⟩
    last.isEnd = true ∧ (∀ t ∈ body, t.isEnd = false) ∧ Balanced body ∧
      (Grammar.attempts body).flatMap Grammar.discarded = [right, b, semicolon] ∧
      ((parse (body ++ [last])).diagnostics.filter
        (·.problem = "Expect '\x7d' after block.")).length = 1 := by
  intro left right a b semicolon body last
  have hskipped : (Grammar.attempts body).flatMap Grammar.discarded = [right, b, semicolon] := by cbv
  have hcount := (recovery_keeps_blocks body last rfl (by decide) (by decide)).1
  rw [hskipped] at hcount
  exact ⟨rfl, by decide, by decide, hskipped, hcount⟩

end Lox

/-
# Forms are read back

The head of a form and the number of its items say what node it is of, and the
kind of a word can be told from its text. So the tree that a form is of can be
made out of it again, but for the lines of the tokens: nothing else of a tree
is lost in its form, if its tokens are written as their kinds are, none of them
is a string, and its numbers are finite.

Key definitions: `Token.Shows`, `tokenOf?`, `Form.expression?`, `Form.statement?`.
Key theorems: `Lexeme.isWord`, `Expression.expression?_form`, `Statement.statement?_form`.
-/
import Lox.Proofs.Grammar.Material
import Lox.Proofs.Grammar.WellFormed
import Lox.Proofs.Lines.Moved
import Lox.Proofs.Numbers.ReadBack
import Lox.Proofs.Outlines.Forms

namespace Lox

/-- The token is written as its kind is, and is told by its text in an outline. -/
structure Token.Shows (t : Token) : Prop where
  lexeme : Lexeme t.lexeme.toList t.kind
  plain : ∀ contents, t.kind ≠ .string contents
  finite : ∀ x, t.kind = .number x → x.toBits.toNat < Binary64.infinity

/-! ### Words -/

theorem Form.breaks_of_continuesWord {c : Char} (h : Piece.continuesWord c = true) :
    Form.breaks c = false := by
  by_contra hb
  have hbreaks : Form.breaks c = true := eq_true_of_ne_false hb
  have hc : ((c = ' ' ∨ c = '(') ∨ c = ')') ∨ c = '\n' := by simpa [Form.breaks] using hbreaks
  rcases hc with ((rfl | rfl) | rfl) | rfl <;> exact absurd h (by decide)

theorem Form.breaks_of_isDigit {c : Char} (h : c.isDigit = true) : Form.breaks c = false :=
  Form.breaks_of_continuesWord (by rw [Piece.continuesWord, h, Bool.or_true])

theorem Form.forall_of_all {cs : List Char} (h : cs.all (!Form.breaks ·) = true) :
    ∀ c ∈ cs, Form.breaks c = false := by
  simpa using h

theorem operators_words : ∀ p ∈ operators, p.2 ≠ .leftParen → p.2 ≠ .rightParen →
    p.1 ≠ [] ∧ p.1.all (!Form.breaks ·) = true := by decide

theorem keywords_words : ∀ p ∈ keywords, p.1.toList ≠ [] ∧ p.1.toList.all (!Form.breaks ·) = true := by
  decide

/-- The text of a token that is neither a string nor a parenthesis is a word. -/
theorem Lexeme.isWord {text : String} {kind : Kind} (h : Lexeme text.toList kind)
    (hs : ∀ contents, kind ≠ .string contents) (hl : kind ≠ .symbol .leftParen)
    (hr : kind ≠ .symbol .rightParen) : Form.IsWord text := by
  have hword : text.toList ≠ [] ∧ ∀ c ∈ text.toList, Form.breaks c = false := by
    generalize text.toList = cs at h
    cases h with
    | operator h =>
      obtain ⟨hne, hall⟩ :=
        operators_words _ h (fun he => hl (congrArg _ he)) fun he => hr (congrArg _ he)
      exact ⟨hne, Form.forall_of_all hall⟩
    | keyword h =>
      obtain ⟨hne, hall⟩ := keywords_words _ h
      exact ⟨hne, Form.forall_of_all hall⟩
    | identifier hc hm _ =>
      have hfirst := Form.breaks_of_continuesWord (by rw [Piece.continuesWord, hc, Bool.true_or])
      exact ⟨List.cons_ne_nil _ _, List.forall_mem_cons.mpr
        ⟨hfirst, fun d hd => Form.breaks_of_continuesWord (hm d hd)⟩⟩
    | string _ => exact absurd rfl (hs _)
    | whole hc hd =>
      exact ⟨List.cons_ne_nil _ _, List.forall_mem_cons.mpr
        ⟨Form.breaks_of_isDigit hc, fun d hm => Form.breaks_of_isDigit (hd d hm)⟩⟩
    | fraction hc hw hd hp =>
      refine ⟨List.cons_ne_nil _ _, List.forall_mem_append.mpr ⟨?_, ?_⟩⟩
      · exact List.forall_mem_cons.mpr
          ⟨Form.breaks_of_isDigit hc, fun d hm => Form.breaks_of_isDigit (hw d hm)⟩
      · exact List.forall_mem_cons.mpr ⟨rfl, List.forall_mem_cons.mpr
          ⟨Form.breaks_of_isDigit hd, fun d hm => Form.breaks_of_isDigit (hp d hm)⟩⟩
  exact ⟨fun he => hword.1 (String.toList_eq_nil_iff.mpr he), hword.2⟩

/-- The token that is written as the text, on line 0. -/
def tokenOf? (text : String) : Option Token :=
  match Piece.cut text.toList with
  | [⟨_, .token kind⟩] => some ⟨kind, text, 0⟩
  | _ => none

theorem tokenOf?_of_lexeme {text : String} {kind : Kind} (h : Lexeme text.toList kind) :
    tokenOf? text = some ⟨kind, text, 0⟩ := by
  rw [tokenOf?, Piece.cut_lexeme_alone h]

/-- The tree without the lines of its tokens. -/
abbrev Expression.unplaced (e : Expression) : Expression := e.moved fun _ => 0

abbrev Statement.unplaced (s : Statement) : Statement := s.moved fun _ => 0

theorem Token.Shows.tokenOf? {t : Token} (h : t.Shows) :
    tokenOf? t.lexeme = some (t.moved fun _ => 0) := tokenOf?_of_lexeme h.lexeme

theorem Token.Shows.isWord {t : Token} (h : t.Shows) (hl : t.kind ≠ .symbol .leftParen)
    (hr : t.kind ≠ .symbol .rightParen) : Form.IsWord t.lexeme := h.lexeme.isWord h.plain hl hr

/-- A literal is told from its text. -/
theorem Value.exists_lexeme {v : Value} (h : v.MadeOf Token.Shows) :
    ∃ kind, Lexeme v.text.toList kind ∧ kind.literal? = some v ∧
      ∀ contents, kind ≠ .string contents := by
  cases v with
  | nil =>
    have hk : Lexeme "nil".toList (.symbol .nilWord) := .keyword (by decide)
    exact ⟨_, hk, rfl, nofun⟩
  | boolean b =>
    have ht : Lexeme "true".toList (.symbol .trueWord) := .keyword (by decide)
    have hf : Lexeme "false".toList (.symbol .falseWord) := .keyword (by decide)
    cases b with
    | true => exact ⟨_, ht, rfl, nofun⟩
    | false => exact ⟨_, hf, rfl, nofun⟩
  | number x =>
    rcases h with h | ⟨t, ht, hv⟩
    · cases h
    · have hk : t.kind = .number x := by
        unfold Kind.literal? at hv
        split at hv <;> cases hv
        assumption
      exact ⟨.number x, Numeral.lexeme_text (ht.finite x hk), rfl, nofun⟩
  | string contents =>
    rcases h with h | ⟨t, ht, hv⟩
    · cases h
    · have hk : t.kind = .string contents := by
        unfold Kind.literal? at hv
        split at hv <;> cases hv
        assumption
      exact absurd hk (ht.plain contents)

/-! ### Expressions -/

/-- The expression with the two parts and the token for its operator. -/
def Token.joined (t : Token) (l r : Expression) : Expression :=
  match t.kind, l with
  | .symbol .equal, .name target => .assign target r
  | .symbol .orWord, _ | .symbol .andWord, _ => .logical l t r
  | _, _ => .binary l t r

/-- The expression that the form is of, without lines. -/
def Form.expression? : Form → Option Expression
  | .word text => do
    let t ← tokenOf? text
    match t.kind.literal? with
    | some v => some (.literal v)
    | none => some (.name t)
  | .node head [item] => do
    let e ← item.expression?
    if head = "group" then some (.group e) else (tokenOf? head).map (.unary · e)
  | .node head [left, right] => do
    let t ← tokenOf? head
    let l ← left.expression?
    let r ← right.expression?
    some (t.joined l r)
  | _ => none

theorem Token.joined_binary {t : Token} (h : t.IsBinary) (l r : Expression) :
    t.joined l r = .binary l t r := by
  obtain ⟨s, hs, hk⟩ := h
  have hjoined : ∀ s ∈ Symbol.binary, ∀ t : Token, t.kind = .symbol s →
      t.joined l r = .binary l t r := by
    simp only [Symbol.binary, List.forall_mem_cons, List.not_mem_nil, false_implies, implies_true,
      and_true]
    and_intros
    all_goals
      intro t hk
      simp only [joined, hk]
  exact hjoined s hs t hk

theorem Token.joined_logical {t : Token} (h : t.kind = .symbol .orWord ∨ t.kind = .symbol .andWord)
    (l r : Expression) : t.joined l r = .logical l t r := by
  rcases h with hk | hk <;> simp only [joined, hk]

theorem Form.expression?_pair {head : String} {left right : Form} {t : Token} {l r : Expression}
    (ht : tokenOf? head = some t) (hl : left.expression? = some l) (hr : right.expression? = some r) :
    (Form.node head [left, right]).expression? = some (t.joined l r) := by
  rw [expression?, ht, hl, hr]
  rfl

theorem Form.expression?_name {t : Token} (h : t.Shows) (hn : t.IsName) :
    (Form.word t.lexeme).expression? = some (.name (t.moved fun _ => 0)) := by
  obtain ⟨_, hk⟩ := hn
  have hliteral : t.kind.literal? = none := by
    rw [hk]
    rfl
  simp [expression?, h.tokenOf?, Token.moved, hliteral]

/-- A prefix operator is not the head of a group. -/
theorem Token.Shows.ne_group {t : Token} (h : t.Shows)
    (hk : t.kind = .symbol .bang ∨ t.kind = .symbol .minus) : t.lexeme ≠ "group" := by
  intro hg
  have hmore : ['r', 'o', 'u', 'p'].all Piece.continuesWord = true := rfl
  have hgroup : Lexeme "group".toList (.identifier "group") :=
    Piece.lexeme_word (c := 'g') rfl (List.all_eq_true.mp hmore)
  have htoken := h.tokenOf?
  rw [hg, tokenOf?_of_lexeme hgroup] at htoken
  have hkind : Kind.identifier "group" = t.kind := congrArg Token.kind (Option.some.inj htoken)
  rw [← hkind] at hk
  rcases hk with hk | hk <;> cases hk

/-- **The tree of an expression can be told from its form**, but for the lines. -/
theorem Expression.expression?_form : ∀ e : Expression, e.WellFormed → e.MadeOf Token.Shows →
    e.form.expression? = some e.unplaced
  | .literal v, _, hm => by
    obtain ⟨kind, hlexeme, hv, -⟩ := Value.exists_lexeme hm
    simp [form, Form.expression?, tokenOf?_of_lexeme hlexeme, hv, moved]
  | .group inner, hw, hm => by
    simp [form, Form.expression?, inner.expression?_form hw hm, moved]
  | .name token, hn, hm => Form.expression?_name hm hn
  | .assign target value, ⟨hn, hw⟩, ⟨ht, hm⟩ => by
    have hequal : Lexeme "=".toList (.symbol .equal) := .operator (by decide)
    exact Form.expression?_pair (tokenOf?_of_lexeme hequal) (Form.expression?_name ht hn)
      (value.expression?_form hw hm)
  | .unary operator operand, ⟨hk, hw⟩, ⟨ho, hm⟩ => by
    simp [form, Form.expression?, operand.expression?_form hw hm, ho.ne_group hk, ho.tokenOf?, moved]
  | .binary left operator right, ⟨hl, hk, hr⟩, ⟨hml, ho, hmr⟩ => by
    have hk' : (operator.moved fun _ => 0).IsBinary := hk
    rw [form, Form.expression?_pair ho.tokenOf? (left.expression?_form hl hml)
      (right.expression?_form hr hmr), Token.joined_binary hk']
    rfl
  | .logical left operator right, ⟨hl, hk, hr⟩, ⟨hml, ho, hmr⟩ => by
    have hk' : (operator.moved fun _ => 0).kind = .symbol .orWord ∨
      (operator.moved fun _ => 0).kind = .symbol .andWord := hk
    rw [form, Form.expression?_pair ho.tokenOf? (left.expression?_form hl hml)
      (right.expression?_form hr hmr), Token.joined_logical hk']
    rfl

/-! ### Statements -/

mutual

/-- The statement that the form is of, without lines. -/
def Form.statement? : Form → Option Statement
  | .node "print" [value] => value.expression?.map .print
  | .node ";" [e] => e.expression?.map .evaluate
  | .node "var" [.word name] => (tokenOf? name).map (.declare · none)
  | .node "var" [.word name, e] => do
    let t ← tokenOf? name
    let e ← e.expression?
    some (.declare t (some e))
  | .node "block" items => (Form.entries? items).map .block
  | .node "if" [condition, yes] => do
    let c ← condition.expression?
    let y ← yes.statement?
    some (.branch c y none)
  | .node "if" [condition, yes, no] => do
    let c ← condition.expression?
    let y ← yes.statement?
    let n ← no.statement?
    some (.branch c y (some n))
  | .node "while" [condition, body] => do
    let c ← condition.expression?
    let b ← body.statement?
    some (.loop c b)
  | _ => none

def Form.entries? : List Form → Option Declarations
  | [] => some []
  | .word _ :: rest => do
    let later ← Form.entries? rest
    some (none :: later)
  | item :: rest => do
    let s ← item.statement?
    let later ← Form.entries? rest
    some (some s :: later)

end

theorem Statement.exists_node (s : Statement) : ∃ head items, s.form = .node head items := by
  unfold form
  split <;> exact ⟨_, _, rfl⟩

mutual

/-- **The tree of a statement can be told from its form**, but for the lines. -/
theorem Statement.statement?_form : ∀ s : Statement, s.WellFormed → s.MadeOf Token.Shows →
    s.form.statement? = some s.unplaced
  | .print value, hw, hm => by
    simp [form, Form.statement?, value.expression?_form hw hm, moved]
  | .evaluate e, hw, hm => by
    simp [form, Form.statement?, e.expression?_form hw hm, moved]
  | .declare name none, hw, hm => by
    have ht : name.Shows := hm
    simp [form, Form.statement?, ht.tokenOf?, moved]
  | .declare name (some e), ⟨_, hw⟩, ⟨ht, hm⟩ => by
    simp [form, Form.statement?, ht.tokenOf?, e.expression?_form hw hm, moved]
  | .block body, hw, hm => by
    simp [form, Form.statement?, Statement.entries?_forms body hw hm, moved]
  | .branch condition yes none, ⟨hc, hy, _⟩, ⟨hmc, hmy⟩ => by
    simp [form, Form.statement?, condition.expression?_form hc hmc, yes.statement?_form hy hmy, moved]
  | .branch condition yes (some no), ⟨hc, ⟨hy, _⟩, hn, _⟩, ⟨hmc, hmy, hmn⟩ => by
    simp [form, Form.statement?, condition.expression?_form hc hmc, yes.statement?_form hy hmy,
      no.statement?_form hn hmn, moved]
  | .loop condition body, ⟨hc, hb, _⟩, ⟨hmc, hmb⟩ => by
    simp [form, Form.statement?, condition.expression?_form hc hmc, body.statement?_form hb hmb, moved]

theorem Statement.entries?_forms : ∀ ds : Declarations, Declarations.WellFormed ds →
    Declarations.MadeOf Token.Shows ds →
    Form.entries? (Declarations.forms ds) = some (Declarations.moved (fun _ => 0) ds)
  | [], _, _ => by simp [Declarations.forms, Form.entries?, Declarations.moved]
  | none :: rest, hw, hm => by
    simp [Declarations.forms, Form.entries?, Statement.entries?_forms rest hw hm, Declarations.moved]
  | some s :: rest, ⟨hs, hw⟩, ⟨hms, hm⟩ => by
    have hfirst := s.statement?_form hs hms
    have hlater := Statement.entries?_forms rest hw hm
    obtain ⟨head, items, hnode⟩ := s.exists_node
    rw [hnode] at hfirst
    simp [Declarations.forms, Form.entries?, hnode, hfirst, hlater, Declarations.moved]

end

end Lox

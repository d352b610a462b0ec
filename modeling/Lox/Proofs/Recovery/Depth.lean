/-
# Braces

The depth of a list of tokens is the number of its left braces less that of
its right braces. A list is balanced when every right brace closes a left one
before it and none is left open. The braces of a block stand above those
around it: the depth of what is read of it is nowhere below zero, but at the
brace that closes it.

Key definitions: `depth`, `Balanced`, `StaysAbove`.
Key theorems: `depth_eq_countP`, `StaysAbove.append`, `Balanced.eq_of_staysAbove`.
-/
import Lox.Proofs.Grammar.Endings

namespace Lox

/-! ### Depth -/

/-- How much deeper one is behind a token than before it. -/
def Kind.rise : Kind → Int
  | .symbol .leftBrace => 1
  | .symbol .rightBrace => -1
  | _ => 0

theorem Kind.rise_of_not_isBrace {k : Kind} (h : k.isBrace = false) : k.rise = 0 := by
  unfold rise
  split <;> first | rfl | cases h

/-- The number of left braces less that of right braces. -/
def depth : List Token → Int
  | [] => 0
  | t :: rest => t.kind.rise + depth rest

@[simp] theorem depth_nil : depth [] = 0 := rfl

@[simp] theorem depth_cons (t : Token) (rest : List Token) :
    depth (t :: rest) = t.kind.rise + depth rest := rfl

@[simp] theorem depth_append (tokens more : List Token) :
    depth (tokens ++ more) = depth tokens + depth more := by
  induction tokens with
  | nil => simp
  | cons t rest ih =>
    rw [List.cons_append, depth_cons, depth_cons, ih]
    omega

theorem depth_of_no_brace {tokens : List Token} (h : ∀ t ∈ tokens, t.kind.isBrace = false) :
    depth tokens = 0 := by
  induction tokens with
  | nil => rfl
  | cons t rest ih =>
    obtain ⟨ht, hrest⟩ := List.forall_mem_cons.mp h
    rw [depth_cons, ih hrest, Kind.rise_of_not_isBrace ht, Int.add_zero]

def Token.isLeftBrace (t : Token) : Bool := t.kind = .symbol .leftBrace

def Token.isRightBrace (t : Token) : Bool := t.kind = .symbol .rightBrace

theorem depth_eq_countP (tokens : List Token) :
    depth tokens = tokens.countP Token.isLeftBrace - tokens.countP Token.isRightBrace := by
  induction tokens with
  | nil => rfl
  | cons t rest ih =>
    rw [depth_cons, List.countP_cons, List.countP_cons, ih]
    unfold Kind.rise
    split
    · rename_i hk
      have hl : t.isLeftBrace = true := decide_eq_true hk
      have hr : t.isRightBrace = false := by rw [Token.isRightBrace, hk]; decide
      simp only [hl, hr, ↓reduceIte, Bool.false_eq_true]
      omega
    · rename_i hk
      have hl : t.isLeftBrace = false := by rw [Token.isLeftBrace, hk]; decide
      have hr : t.isRightBrace = true := decide_eq_true hk
      simp only [hl, hr, ↓reduceIte, Bool.false_eq_true]
      omega
    · rename_i hleft hright
      have hl : t.isLeftBrace = false := decide_eq_false hleft
      have hr : t.isRightBrace = false := decide_eq_false hright
      simp only [hl, hr, ↓reduceIte, Bool.false_eq_true]
      omega

/-! ### Levels -/

/-- Every right brace closes a left one before it, and no left brace is left open. -/
structure Balanced (tokens : List Token) : Prop where
  closing : ∀ front, front <+: tokens → 0 ≤ depth front
  closed : depth tokens = 0

theorem balanced_iff (tokens : List Token) :
    Balanced tokens ↔ (∀ n < tokens.length + 1, 0 ≤ depth (tokens.take n)) ∧ depth tokens = 0 := by
  constructor
  · intro h
    exact ⟨fun n _ => h.closing _ (List.take_prefix n tokens), h.closed⟩
  · rintro ⟨hclosing, hclosed⟩
    refine ⟨fun front hf => ?_, hclosed⟩
    have hle := hf.length_le
    rw [List.prefix_iff_eq_take.mp hf]
    exact hclosing front.length (by omega)

instance (tokens : List Token) : Decidable (Balanced tokens) :=
  decidable_of_iff _ (balanced_iff tokens).symm

/-- Before the end the depth is nowhere below zero. -/
def StaysAbove (tokens : List Token) : Prop :=
  ∀ front, front <+: tokens → front ≠ tokens → 0 ≤ depth front

theorem staysAbove_of_no_brace {tokens : List Token} (h : ∀ t ∈ tokens, t.kind.isBrace = false) :
    StaysAbove tokens := by
  intro front hf _
  exact Int.le_of_eq (depth_of_no_brace fun t ht => h t (hf.subset ht)).symm

theorem staysAbove_singleton (t : Token) : StaysAbove [t] := by
  intro front hf hne
  rcases List.prefix_cons_iff.mp hf with rfl | ⟨more, rfl, hmore⟩
  · exact Int.le_refl 0
  · rw [List.prefix_nil.mp hmore] at hne
    exact absurd rfl hne

namespace StaysAbove

theorem append {tokens more : List Token} (h : StaysAbove tokens) (hd : 0 ≤ depth tokens)
    (hm : StaysAbove more) : StaysAbove (tokens ++ more) := by
  intro front hf hne
  rcases List.prefix_or_prefix_of_prefix hf (List.prefix_append tokens more) with hin | ⟨back, rfl⟩
  · by_cases he : front = tokens
    · rw [he]
      exact hd
    · exact h front hin he
  · have hback : back <+: more := (List.prefix_append_right_inj tokens).mp hf
    have hne' : back ≠ more := fun he => hne (by rw [he])
    have habove := hm back hback hne'
    rw [depth_append]
    omega

end StaysAbove

section Closing

variable {inner rest : List Token} {brace : Token}

theorem Balanced.depth_closing (hi : Balanced inner) (hb : brace.kind = .symbol .rightBrace) :
    depth (inner ++ [brace]) = -1 := by
  have hbrace : depth [brace] = -1 := by
    rw [depth_cons, hb]
    rfl
  rw [depth_append, hi.closed, hbrace]
  rfl

/-- Nothing that stays above zero goes on behind the brace that closes what is balanced. -/
theorem Balanced.eq_of_prefix {taken : List Token} (hi : Balanced inner)
    (hb : brace.kind = .symbol .rightBrace) (ht : StaysAbove taken)
    (hp : inner ++ [brace] <+: taken) : taken = inner ++ [brace] := by
  have hclosing := hi.depth_closing hb
  by_cases he : inner ++ [brace] = taken
  · exact he.symm
  · have hpos := ht _ hp he
    omega

theorem Balanced.depth_neg (hi : Balanced inner) (hb : brace.kind = .symbol .rightBrace)
    (h : StaysAbove (inner ++ brace :: rest)) : depth (inner ++ brace :: rest) < 0 := by
  have hclosing := hi.depth_closing hb
  have he := hi.eq_of_prefix hb h ⟨rest, by simp⟩
  rw [he]
  omega

/-- What stays above zero till it falls below ends at the brace that closes what is balanced. -/
theorem Balanced.eq_of_staysAbove {taken after : List Token} (hi : Balanced inner)
    (hb : brace.kind = .symbol .rightBrace) (heq : inner ++ brace :: rest = taken ++ after)
    (ht : StaysAbove taken) (hneg : depth taken < 0) : after = rest := by
  have hwhole : inner ++ brace :: rest = (inner ++ [brace]) ++ rest := by simp
  have htaken : taken <+: (inner ++ [brace]) ++ rest := ⟨after, by rw [← heq, hwhole]⟩
  have he : taken = inner ++ [brace] := by
    rcases List.prefix_or_prefix_of_prefix htaken (List.prefix_append _ rest) with hshort | hlong
    · rcases List.prefix_or_prefix_of_prefix hshort (List.prefix_append inner [brace]) with
        hin | ⟨back, rfl⟩
      · have hpos := hi.closing taken hin
        omega
      · have hback : back <+: [brace] := (List.prefix_append_right_inj inner).mp hshort
        rcases List.prefix_cons_iff.mp hback with rfl | ⟨more, rfl, hmore⟩
        · rw [List.append_nil, hi.closed] at hneg
          omega
        · rw [List.prefix_nil.mp hmore]
    · exact hi.eq_of_prefix hb ht hlong
  rw [hwhole, he] at heq
  exact (List.append_cancel_left heq).symm

end Closing
end Lox

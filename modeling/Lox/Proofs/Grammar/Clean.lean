/-
# Readings without a complaint

A reading is clean when it comes to its value and complains about nothing.
Every way of putting readings together is clean exactly when its parts are,
so what a phrase is read as without a complaint can be computed from the
equations of its function.

Key definitions: `Reading.Clean`.
Key theorems: `Reading.clean_andThen`, `Reading.clean_andPerhaps`, `clean_expect`.
-/
import Lox.Grammar.Reading

namespace Lox
namespace Reading

variable {m n : Nat} {α β : Type}

/-- The reading comes to `value` without a complaint and leaves `rest`. -/
def Clean (r : Reading n α) (value : α) (rest : List Token) : Prop :=
  ∃ shorter, r = .done value [] rest shorter

theorem Clean.shorter {r : Reading n α} {v : α} {rest : List Token} (h : r.Clean v rest) :
    rest.length < n := h.1

/-- A reading is clean in at most one way. -/
theorem Clean.unique {r : Reading n α} {v w : α} {rest after : List Token} (h : r.Clean v rest)
    (h' : r.Clean w after) : v = w ∧ rest = after := by
  obtain ⟨_, rfl⟩ := h
  obtain ⟨_, he⟩ := h'
  cases he
  exact ⟨rfl, rfl⟩

@[simp] theorem clean_within (h : m ≤ n) (r : Reading m α) (v : α) (rest : List Token) :
    (r.within h).Clean v rest ↔ r.Clean v rest := by
  cases r with
  | done w cs after shorter =>
    simp only [Clean, within, done.injEq]
    exact ⟨fun ⟨_, e⟩ => ⟨e.2.2 ▸ shorter, e⟩, fun ⟨s, e⟩ => ⟨Nat.lt_of_lt_of_le s h, e⟩⟩
  | stuck p cs after w => simp [Clean, within]

@[simp] theorem clean_past (r : Reading n α) (v : α) (rest : List Token) :
    r.past.Clean v rest ↔ r.Clean v rest := clean_within _ r v rest

@[simp] theorem clean_map (f : α → β) (r : Reading n α) (w : β) (rest : List Token) :
    (r.map f).Clean w rest ↔ ∃ v, r.Clean v rest ∧ f v = w := by
  cases r with
  | done v cs after shorter =>
    simp only [Clean, map, done.injEq]
    constructor
    · rintro ⟨s, rfl, rfl, rfl⟩
      exact ⟨v, ⟨s, rfl, rfl, rfl⟩, rfl⟩
    · rintro ⟨_, ⟨s, rfl, rfl, rfl⟩, rfl⟩
      exact ⟨s, rfl, rfl, rfl⟩
  | stuck p cs after w => simp [Clean, map]

@[simp] theorem clean_noting (before : List Complaint) (r : Reading n α) (v : α)
    (rest : List Token) : (r.noting before).Clean v rest ↔ before = [] ∧ r.Clean v rest := by
  cases r with
  | done w cs after shorter =>
    simp only [Clean, noting, done.injEq, List.append_eq_nil_iff]
    constructor
    · rintro ⟨s, rfl, ⟨rfl, rfl⟩, rfl⟩
      exact ⟨rfl, s, rfl, rfl, rfl⟩
    · rintro ⟨rfl, s, rfl, rfl, rfl⟩
      exact ⟨s, rfl, ⟨rfl, rfl⟩, rfl⟩
  | stuck p cs after w => simp [Clean, noting]

@[simp] theorem clean_andPerhaps (r : Reading n α)
    (next : (rest : List Token) → rest.length < n → α → Reading n β) (w : β)
    (after : List Token) :
    (r.andPerhaps next).Clean w after ↔
      ∃ v rest, ∃ h : r.Clean v rest, (next rest h.shorter v).Clean w after := by
  cases r with
  | done v cs rest shorter =>
    rw [andPerhaps_done, clean_noting]
    constructor
    · rintro ⟨rfl, h⟩
      exact ⟨v, rest, ⟨shorter, rfl⟩, h⟩
    · rintro ⟨_, _, ⟨_, e⟩, h⟩
      cases e
      exact ⟨rfl, h⟩
  | stuck p cs rest within =>
    rw [andPerhaps_stuck]
    constructor
    · rintro ⟨_, e⟩
      cases e
    · rintro ⟨_, _, ⟨_, e⟩, _⟩
      cases e

@[simp] theorem clean_andThen (r : Reading n α)
    (next : (rest : List Token) → rest.length < n → α → Reading rest.length β) (w : β)
    (after : List Token) :
    (r.andThen next).Clean w after ↔
      ∃ v rest, ∃ h : r.Clean v rest, (next rest h.shorter v).Clean w after := by
  simp [andThen]

@[simp] theorem clean_done (v w : α) (cs : List Complaint) (rest after : List Token)
    (shorter : rest.length < n) :
    (done v cs rest shorter).Clean w after ↔ v = w ∧ cs = [] ∧ rest = after := by
  simp only [Clean, done.injEq]
  exact ⟨fun ⟨_, e⟩ => e, fun e => ⟨e.2.2 ▸ shorter, e⟩⟩

@[simp] theorem clean_one (v w : α) (after rest : List Token) :
    (one v after).Clean w rest ↔ v = w ∧ after = rest := by
  simp [one]

@[simp] theorem not_clean_stop (p : Problem) (input : List Token) (v : α) (rest : List Token) :
    ¬ (stop p input).Clean v rest := by
  simp [Clean, stop]

end Reading

@[simp] theorem clean_expect (s : Symbol) (p : Problem) (input : List Token) (t : Token)
    (rest : List Token) :
    (expect s p input).Clean t rest ↔ input = t :: rest ∧ t.kind = .symbol s := by
  cases input with
  | nil => simp [expect]
  | cons u after =>
    simp only [expect]
    split
    · rename_i h
      simp only [Reading.clean_one, List.cons.injEq]
      exact ⟨fun ⟨e, e'⟩ => ⟨⟨e, e'⟩, e ▸ h⟩, fun ⟨e, _⟩ => e⟩
    · rename_i h
      simp only [Reading.not_clean_stop, List.cons.injEq, false_iff, not_and]
      rintro ⟨rfl, _⟩ hs
      exact h hs

end Lox

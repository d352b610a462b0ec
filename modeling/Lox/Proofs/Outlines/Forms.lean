/-
# Forms

An outline is the text of a form: a word, or a node with a word for its head
and forms for its items. As words have no spaces, parentheses or newlines in
them, the text of a form says where it ends, whatever follows, so no two forms
have one text, and no two lists of forms the same lines.

Key definitions: `Form`, `Form.text`, `Form.Clear`, `Expression.form`, `Statement.form`.
Key theorems: `Form.eq_of_text_append`, `Form.eq_of_lines`, `outline_toList`.
-/
import Mathlib
import Lox.Outline

namespace Lox

inductive Form where
  | word (text : String)
  | node (head : String) (items : List Form)

namespace Form

mutual

def text : Form → List Char
  | .word text => text.toList
  | .node head items => '(' :: (head.toList ++ textOfItems items)

/-- The items of a node, each after a space, and its closing parenthesis. -/
def textOfItems : List Form → List Char
  | [] => [')']
  | item :: rest => ' ' :: (item.text ++ textOfItems rest)

end

/-- Whether a character ends a word. -/
def breaks (c : Char) : Bool := c = ' ' || c = '(' || c = ')' || c = '\n'

def IsWord (word : String) : Prop := word ≠ "" ∧ ∀ c ∈ word.toList, breaks c = false

mutual

/-- All words of the form are words. -/
def Clear : Form → Prop
  | .word text => IsWord text
  | .node head items => IsWord head ∧ ClearItems items

def ClearItems : List Form → Prop
  | [] => True
  | item :: rest => item.Clear ∧ ClearItems rest

end

/-! ### Where a form ends -/

/-- A word can end before the text. -/
def Ends (rest : List Char) : Prop := ∀ c ∈ rest.head?, breaks c = true

theorem ends_nil : Ends [] := by
  rintro _ ⟨⟩

theorem ends_cons {c : Char} (h : breaks c = true) (rest : List Char) : Ends (c :: rest) := by
  rintro _ ⟨⟩
  exact h

theorem ends_items (items : List Form) (rest : List Char) : Ends (textOfItems items ++ rest) := by
  cases items with
  | nil => exact ends_cons rfl rest
  | cons item items => exact ends_cons rfl _

variable {word word' : String} {rest rest' : List Char}

theorem takeWhile_word (hw : IsWord word) (hr : Ends rest) :
    (word.toList ++ rest).takeWhile (!breaks ·) = word.toList := by
  have hword : ∀ c ∈ word.toList, (!breaks c) = true := fun c hc => by rw [hw.2 c hc]; rfl
  rw [List.takeWhile_append_of_pos hword]
  cases rest with
  | nil => exact List.append_nil _
  | cons c rest =>
    have hc : (!breaks c) = false := by rw [hr c rfl]; rfl
    rw [List.takeWhile_cons, hc]
    exact List.append_nil _

theorem eq_of_word_append (hw : IsWord word) (hw' : IsWord word') (hr : Ends rest) (hr' : Ends rest')
    (h : word.toList ++ rest = word'.toList ++ rest') : word = word' ∧ rest = rest' := by
  have hword : word.toList = word'.toList := by
    rw [← takeWhile_word hw hr, h, takeWhile_word hw' hr']
  refine ⟨String.toList_inj.mp hword, ?_⟩
  rw [hword] at h
  exact List.append_cancel_left h

/-- A word does not start as a node does. -/
theorem word_ne_node (hw : IsWord word) (more : List Char) : word.toList ++ rest ≠ '(' :: more := by
  have hne : word.toList ≠ [] := fun h => hw.1 (String.toList_eq_nil_iff.mp h)
  obtain ⟨c, cs, hc⟩ := List.exists_cons_of_ne_nil hne
  have hbreaks := hw.2 c (by rw [hc]; exact List.mem_cons_self)
  rw [hc]
  rintro ⟨⟩
  cases hbreaks

mutual

/-- **The text of a form says where it ends.** -/
theorem eq_of_text_append : ∀ {f g : Form} {rest rest' : List Char}, f.Clear → g.Clear → Ends rest →
    Ends rest' → f.text ++ rest = g.text ++ rest' → f = g ∧ rest = rest'
  | .word w, .word w', rest, rest', hf, hg, hr, hr', h => by
    obtain ⟨hw, hrest⟩ := eq_of_word_append hf hg hr hr' h
    exact ⟨congrArg word hw, hrest⟩
  | .word w, .node head items, _, _, hf, _, _, _, h => absurd h (word_ne_node hf _)
  | .node head items, .word w, _, _, _, hg, _, _, h => absurd h.symm (word_ne_node hg _)
  | .node head items, .node head' items', rest, rest', hf, hg, _, _, h => by
    have h : head.toList ++ (textOfItems items ++ rest) =
        head'.toList ++ (textOfItems items' ++ rest') := by
      simpa [text] using h
    obtain ⟨hhead, hitems⟩ :=
      eq_of_word_append hf.1 hg.1 (ends_items items rest) (ends_items items' rest') h
    obtain ⟨hitems, hrest⟩ := eq_of_items_append hf.2 hg.2 hitems
    exact ⟨congr (congrArg node hhead) hitems, hrest⟩

theorem eq_of_items_append : ∀ {fs gs : List Form} {rest rest' : List Char}, ClearItems fs →
    ClearItems gs → textOfItems fs ++ rest = textOfItems gs ++ rest' → fs = gs ∧ rest = rest'
  | [], [], _, _, _, _, h => ⟨rfl, (List.cons.inj h).2⟩
  | [], g :: gs, _, _, _, _, h => by
    have hhead := (List.cons.inj h).1
    exact absurd hhead (by decide)
  | f :: fs, [], _, _, _, _, h => by
    have hhead := (List.cons.inj h).1
    exact absurd hhead (by decide)
  | f :: fs, g :: gs, rest, rest', hf, hg, h => by
    have h : f.text ++ (textOfItems fs ++ rest) = g.text ++ (textOfItems gs ++ rest') := by
      simpa [textOfItems] using h
    obtain ⟨hfirst, hlater⟩ :=
      eq_of_text_append hf.1 hg.1 (ends_items fs rest) (ends_items gs rest') h
    obtain ⟨hlater, hrest⟩ := eq_of_items_append hf.2 hg.2 hlater
    exact ⟨congr (congrArg List.cons hfirst) hlater, hrest⟩

end

/-! ### Lines -/

/-- The lines after the first, a newline before each. -/
def textOfLines (fs : List Form) : List Char := fs.flatMap fun f => '\n' :: f.text

theorem ends_lines (fs : List Form) : Ends (textOfLines fs) := by
  cases fs with
  | nil => exact ends_nil
  | cons f fs => exact ends_cons rfl _

theorem eq_of_textOfLines : ∀ {fs gs : List Form}, (∀ f ∈ fs, f.Clear) → (∀ g ∈ gs, g.Clear) →
    textOfLines fs = textOfLines gs → fs = gs
  | [], [], _, _, _ => rfl
  | [], _ :: _, _, _, h => by cases h
  | _ :: _, [], _, _, h => by cases h
  | f :: fs, g :: gs, hf, hg, h => by
    obtain ⟨hfirst, hf⟩ := List.forall_mem_cons.mp hf
    obtain ⟨hfirst', hg⟩ := List.forall_mem_cons.mp hg
    have h : f.text ++ textOfLines fs = g.text ++ textOfLines gs := (List.cons.inj h).2
    obtain ⟨hfg, hlater⟩ := eq_of_text_append hfirst hfirst' (ends_lines fs) (ends_lines gs) h
    rw [hfg, eq_of_textOfLines hf hg hlater]

theorem text_ne_nil {f : Form} (hf : f.Clear) : f.text ≠ [] := by
  cases f with
  | word text => exact fun h => hf.1 (String.toList_eq_nil_iff.mp h)
  | node head items => exact List.cons_ne_nil _ _

theorem intercalate_text (f : Form) (fs : List Form) :
    ['\n'].intercalate ((f :: fs).map text) = f.text ++ textOfLines fs := by
  induction fs generalizing f with
  | nil => simp [textOfLines]
  | cons g fs ih =>
    have hlater := ih g
    rw [List.map_cons] at hlater
    rw [List.map_cons, List.map_cons, List.intercalate_cons_cons, hlater, List.append_assoc]
    rfl

/-- The lines of forms determine them. -/
theorem eq_of_lines {fs gs : List Form} (hf : ∀ f ∈ fs, f.Clear) (hg : ∀ g ∈ gs, g.Clear)
    (h : ['\n'].intercalate (fs.map text) = ['\n'].intercalate (gs.map text)) : fs = gs := by
  cases fs with
  | nil =>
    cases gs with
    | nil => rfl
    | cons g gs =>
      rw [intercalate_text] at h
      exact absurd (List.append_eq_nil_iff.mp h.symm).1 (text_ne_nil (hg g List.mem_cons_self))
  | cons f fs =>
    cases gs with
    | nil =>
      rw [intercalate_text] at h
      exact absurd (List.append_eq_nil_iff.mp h).1 (text_ne_nil (hf f List.mem_cons_self))
    | cons g gs =>
      rw [intercalate_text, intercalate_text] at h
      obtain ⟨hfirst, hf⟩ := List.forall_mem_cons.mp hf
      obtain ⟨hfirst', hg⟩ := List.forall_mem_cons.mp hg
      obtain ⟨hfg, hlater⟩ := eq_of_text_append hfirst hfirst' (ends_lines fs) (ends_lines gs) h
      rw [hfg, eq_of_textOfLines hf hg hlater]

end Form

/-! ### The forms of trees -/

def Expression.form : Expression → Form
  | .literal v => .word v.text
  | .group inner => .node "group" [inner.form]
  | .name token => .word token.lexeme
  | .assign target value => .node "=" [.word target.lexeme, value.form]
  | .unary operator operand => .node operator.lexeme [operand.form]
  | .binary left operator right | .logical left operator right =>
    .node operator.lexeme [left.form, right.form]

mutual

def Statement.form : Statement → Form
  | .print value => .node "print" [value.form]
  | .evaluate e => .node ";" [e.form]
  | .declare name none => .node "var" [.word name.lexeme]
  | .declare name (some e) => .node "var" [.word name.lexeme, e.form]
  | .block body => .node "block" (Declarations.forms body)
  | .branch condition yes none => .node "if" [condition.form, yes.form]
  | .branch condition yes (some no) => .node "if" [condition.form, yes.form, no.form]
  | .loop condition body => .node "while" [condition.form, body.form]

def Declarations.forms : Declarations → List Form
  | [] => []
  | none :: rest => .word unreadable :: Declarations.forms rest
  | some s :: rest => s.form :: Declarations.forms rest

end

theorem Expression.outline_toList : ∀ e : Expression, e.outline.toList = e.form.text
  | .literal v => rfl
  | .group inner => by
    simp [outline, form, Form.text, Form.textOfItems, outline_toList inner]
  | .name token => rfl
  | .assign target value => by
    simp [outline, form, Form.text, Form.textOfItems, outline_toList value]
  | .unary operator operand => by
    simp [outline, form, Form.text, Form.textOfItems, outline_toList operand]
  | .binary left operator right => by
    simp [outline, form, Form.text, Form.textOfItems, outline_toList left, outline_toList right]
  | .logical left operator right => by
    simp [outline, form, Form.text, Form.textOfItems, outline_toList left, outline_toList right]

mutual

theorem Statement.outline_toList : ∀ s : Statement, s.outline.toList = s.form.text
  | .print value => by
    simp [outline, form, Form.text, Form.textOfItems, value.outline_toList]
  | .evaluate e => by
    simp [outline, form, Form.text, Form.textOfItems, e.outline_toList]
  | .declare name none => by
    simp [outline, form, Form.text, Form.textOfItems]
  | .declare name (some e) => by
    simp [outline, form, Form.text, Form.textOfItems, e.outline_toList]
  | .block body => by
    have hbody := Statement.outlineBody_toList body
    simp [outline, form, Form.text, ← hbody]
  | .branch condition yes none => by
    simp [outline, form, Form.text, Form.textOfItems, condition.outline_toList, yes.outline_toList]
  | .branch condition yes (some no) => by
    simp [outline, form, Form.text, Form.textOfItems, condition.outline_toList, yes.outline_toList,
      no.outline_toList]
  | .loop condition body => by
    simp [outline, form, Form.text, Form.textOfItems, condition.outline_toList, body.outline_toList]

theorem Statement.outlineBody_toList : ∀ ds : Declarations,
    (Statement.outlineBody ds).toList ++ [')'] = Form.textOfItems (Declarations.forms ds)
  | [] => rfl
  | none :: rest => by
    have hrest := Statement.outlineBody_toList rest
    simp [outlineBody, Declarations.forms, Form.textOfItems, Form.text, ← hrest]
  | some s :: rest => by
    have hrest := Statement.outlineBody_toList rest
    simp [outlineBody, Declarations.forms, Form.textOfItems, s.outline_toList, ← hrest]

end

theorem Declarations.forms_eq (ds : Declarations) : Declarations.forms ds =
    ds.map fun | some s => s.form | none => .word unreadable := by
  induction ds with
  | nil => rfl
  | cons entry rest ih =>
    cases entry <;> simp [forms, ih]

/-- The outline of a program is the lines of its forms. -/
theorem outline_toList (ds : Declarations) :
    (outline ds).toList = ['\n'].intercalate ((Declarations.forms ds).map Form.text) := by
  have hlines : ∀ entry : Option Statement,
      (match entry with | some s => s.outline | none => unreadable).toList =
        (match entry with | some s => s.form | none => .word unreadable : Form).text := by
    rintro (_ | s)
    · rfl
    · exact s.outline_toList
  rw [outline, String.toList_intercalate, List.map_map, Declarations.forms_eq, List.map_map]
  exact congrArg _ (List.map_congr_left fun entry _ => hlines entry)

end Lox

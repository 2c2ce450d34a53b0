import HeaderDocs.Proofs.Scan.Lexemes
import HeaderDocs.Proofs.Scan.Names
import HeaderDocs.Proofs.Scan.Written
import HeaderDocs.Proofs.Text.Occurrence
import HeaderDocs.Proofs.Tree.Named

/-!
# The names that declarations are recorded under

A name is a word or a mark, or a part of one, and has neither white space nor a double quote in it.
There are two exceptions. A declarator that ends in a parenthesis, such as `(*f)(int x)`, is a name
from its first parenthesis on, and a literal is taken for a name where one is expected. Both show in
the first character (`IsDeclared`).

* `Declarator.isDeclared_name`: what a declarator is called.
* `Context.Named`: the lexemes of a context, and the names in the nodes that it holds on to.
-/
namespace HeaderDocs

open HeaderDocs.Text

/-- A character that is neither white space nor a double quote. -/
def IsIdChar (c : Char) : Prop := isSpace c = false ∧ c ≠ '"'

instance (c : Char) : Decidable (IsIdChar c) := inferInstanceAs (Decidable (_ ∧ _))

theorem made_idChars {text : String} (h : text.toList.all (decide <| IsIdChar ·) = true) :
    Node.Made IsIdChar text :=
  fun c hc => of_decide_eq_true (List.all_eq_true.mp h c hc)

/-- The text starts with one of the characters. -/
def StartsWithOneOf (starts : List Char) (text : String) : Prop :=
  ∃ c ∈ starts, text.toList.head? = some c

/-- A name as declarations are recorded under it. -/
def IsDeclared (name : String) : Prop :=
  Node.Made IsIdChar name ∨ StartsWithOneOf ['(', '"', '\''] name

/-- All names in a tree are as declarations are recorded under them. -/
abbrev Node.Declared (n : Node) : Prop := n.Everywhere (Named IsDeclared)

namespace Scan

open HeaderDocs.Node

/-! ## Texts -/

/-- A word, a mark or a literal. -/
def IsLexeme (text : String) : Prop := Made IsIdChar text ∨ StartsWithOneOf ['"', '\''] text

theorem IsLexeme.isDeclared {text : String} (h : IsLexeme text) : IsDeclared text :=
  h.imp_right fun ⟨c, hc, hhead⟩ => ⟨c, List.mem_cons_of_mem _ hc, hhead⟩

/-- What is left of a lexeme when its end is cut off. -/
theorem IsLexeme.of_prefix {text start : String} (h : IsLexeme text)
    (hp : start.toList <+: text.toList) : IsLexeme start := by
  rcases h with h | ⟨c, hc, hhead⟩
  · exact .inl fun d hd => h d (hp.subset hd)
  · rcases hs : start.toList with _ | ⟨d, rest⟩
    · exact .inl (by simp [Made, hs])
    · obtain ⟨after, htext⟩ := hp
      rw [← htext, hs] at hhead
      exact .inr ⟨c, hc, by rw [hs]; exact hhead⟩

theorem IsLexeme.withoutColons {text : String} (h : IsLexeme text) : IsLexeme (withoutColons text) :=
  h.of_prefix (by
    rw [Scan.withoutColons, toList_onChars]
    exact dropEndWhile_isPrefix _ _)

theorem isLexeme_mark {mark : String}
    (h : mark ∈ ["*", "+", "-", "&", ":", "(", ")", ",", "=", "/"]) : IsLexeme mark := by
  have hall : ["*", "+", "-", "&", ":", "(", ")", ",", "=", "/"].all
      (·.toList.all (decide <| IsIdChar ·)) = true := by decide
  exact .inl (made_idChars (List.all_eq_true.mp hall mark h))

theorem isIdChar_of_isWordPart {c : Char} (h : State.isWordPart 2 c = true) : IsIdChar c := by
  constructor
  · cases hs : isSpace c with
    | false => rfl
    | true => exact absurd (isWordPart_of_isSpace hs 2) (by rw [h]; exact nofun)
  · rintro rfl
    revert h
    decide

theorem made_of_splitQualified {word qualifier name : String} (h : Made IsIdChar word)
    (hs : OpenScope.splitQualified word = some (qualifier, name)) : Made IsIdChar name := by
  unfold OpenScope.splitQualified at hs
  split at hs
  · rename_i before after hbreak
    split at hs
    · cases hs
    · cases hs
      refine made_ofList fun c hc => h c ?_
      rw [eq_of_breakOn? hbreak]
      exact List.mem_append_right _ hc
  · cases hs

/-- A declarator is called by one lexeme, or by all of them from a parenthesis on. -/
theorem Declarator.isDeclared_name {run : Run} (h : run.Each IsLexeme) {d : Declarator}
    (hd : Declarator.ofRun? run = some d) : IsDeclared d.name := by
  unfold Declarator.ofRun? at hd
  dsimp only at hd
  split at hd
  · cases hd
  · rename_i last hlast
    cases hd
    have hone : IsDeclared
        (Run.text ((declaredPart run).drop ((declaredPart run).length - 1))) := by
      obtain ⟨before, hsplit⟩ := List.getLast?_eq_some_iff.mp hlast
      have htext : Run.text [last] = last.text := by simp [Run.text_cons]
      rw [hsplit, List.length_append, List.length_singleton, Nat.add_sub_cancel,
        List.drop_left, htext]
      exact (h last ((List.takeWhile_sublist _).subset (List.mem_of_getLast? hlast))).isDeclared
    dsimp only [nameStart]
    split
    · cases hfind : (declaredPart run).findIdx? (·.startsWith '(') with
      | none => exact hone
      | some i =>
        obtain ⟨hlt, hopen, -⟩ := List.findIdx?_eq_some_iff_getElem.mp hfind
        refine .inr ⟨'(', List.mem_cons_self .., ?_⟩
        rw [Option.getD_some, List.drop_eq_getElem_cons hlt, Run.text_cons, String.toList_append,
          List.head?_append, eq_of_beq hopen]
        rfl
    · exact hone

/-! ## Nodes that are made -/

theorem Run.everywhere_named_toType {N : String → Prop} (run : Run) :
    run.toType.Everywhere (Node.Named N) := by
  refine everywhere_iff.mpr ⟨named_of_none rfl, fun c hc => ?_⟩
  obtain ⟨f, -, rfl⟩ := List.mem_map.mp hc
  exact everywhere_named_leaf (named_of_none rfl) rfl

theorem everywhere_named_typed {N : String → Prop} {n : Node} {run : Run} (h : n.Named N)
    (hc : n.children = [run.toType]) : n.Everywhere (Node.Named N) := by
  refine everywhere_iff.mpr ⟨h, fun c hmem => ?_⟩
  rw [hc, List.mem_singleton] at hmem
  rw [hmem]
  exact run.everywhere_named_toType

theorem Declarator.everywhere_named_toNode (kind : Kind) {d : Declarator} (h : IsDeclared d.name) :
    (d.toNode kind).Declared :=
  everywhere_named_typed (named_of_some rfl h) rfl

/-- What a function returns has no name. -/
theorem everywhere_named_function {N : String → Prop} {attrs : Attributes} {name : String}
    (hname : attrs.name = some name) (h : N name) (run : Run) (comment : Option String) :
    Everywhere (Node.Named N)
      { kind := .function, attrs, children := (OpenScope.resultOf? run comment).toList } := by
  refine everywhere_iff.mpr ⟨named_of_some hname h, fun c hc => ?_⟩
  have hc := Option.mem_toList.mp hc
  unfold OpenScope.resultOf? at hc
  split at hc
  · dsimp only at hc
    split at hc
    · cases hc
    · cases hc
      exact everywhere_named_describe (everywhere_named_typed (named_of_none rfl) rfl) _
  · cases hc

/-! ## Contexts -/

namespace Context

/-- The lexemes of a context, and the names in the nodes that it holds on to. -/
structure Named (c : Context) : Prop where
  run : c.run.Each IsLexeme
  base : c.base.Each IsLexeme
  header : ∀ h, c.header = some h → h.node.Declared
  record : ∀ n, c.record = some (.aside n) → n.Declared
  enumeration : ∀ n, c.enumeration = some (.aside n) → n.Declared
  typeAlias : ∀ n, c.typeAlias = some n → n.Declared

variable {c : Context}

theorem named_ofScope (scope : Node) : (Context.ofScope scope).Named :=
  ⟨.nil, .nil, nofun, nofun, nofun, nofun⟩

theorem Named.startRun (h : c.Named) : c.startRun.Named := by
  unfold Context.startRun
  split
  · exact { h with run := h.base, base := .nil }
  · exact h

theorem Named.dropRun (h : c.Named) : c.dropRun.Named := { h with run := .nil }

theorem Named.pushWord (h : c.Named) {word : String} (hw : IsLexeme word) :
    (c.pushWord word).Named :=
  { h.startRun with run := h.startRun.run.push hw _ }

theorem Named.pushMark (h : c.Named) {mark : String} (hm : IsLexeme mark) :
    (c.pushMark mark).Named := by
  unfold Context.pushMark
  dsimp only
  split
  · exact h.startRun
  · exact { h.startRun with run := h.startRun.run.push hm _ }

theorem Named.pushIfStarted (h : c.Named) {text : String} (ht : IsLexeme text) (spaced : Bool) :
    (c.pushIfStarted text spaced).Named := by
  unfold Context.pushIfStarted
  split
  · exact h
  · exact { h with run := h.run.push ht _ }

theorem Named.addArgument (h : c.Named) : c.addArgument.Named := by
  unfold Context.addArgument
  split
  · exact h
  · rename_i head hhead
    split
    · rename_i d hd
      refine { h.dropRun with header := ?_ }
      rintro _ ⟨⟩
      have hhead := h.header head hhead
      refine everywhere_named_of_mem hhead hhead.self fun a ha => ?_
      rcases List.mem_append.mp ha with ha | ha
      · exact .inl ha
      · rw [List.mem_singleton.mp ha]
        exact .inr (Declarator.everywhere_named_toNode _ (Declarator.isDeclared_name h.run hd))
    · exact { h.dropRun with }

theorem Named.endArgument (h : c.Named) : c.endArgument.Named := by
  unfold Context.endArgument
  split
  · exact h.addArgument
  · exact h.dropRun

theorem Named.openParen (h : c.Named) : c.openParen.Named :=
  have hmark : IsLexeme "(" := isLexeme_mark (by decide)
  { h.pushMark hmark with }

theorem Named.closeParen (h : c.Named) : c.closeParen.Named := by
  unfold Context.closeParen
  dsimp only
  split
  · have he := h.endArgument
    exact { he with
      header := forall_of_function? (function?_closeArguments c.endArgument) he.header }
  · split
    · have hmark : IsLexeme ")" := isLexeme_mark (by decide)
      exact { h.pushIfStarted hmark false with }
    · exact { h with }

theorem Named.comma (h : c.Named) : c.comma.Named := by
  unfold Context.comma
  split
  · exact { h with }
  · split
    · exact h.endArgument
    · exact h.pushIfStarted (isLexeme_mark (by decide)) false

theorem Named.equals (h : c.Named) : c.equals.Named := by
  unfold Context.equals
  split
  · exact { h with }
  · exact h.pushMark (isLexeme_mark (by decide))

theorem Named.afterBody (h : c.Named) : c.afterBody.Named := by
  refine { h with record := nofun, enumeration := fun n hn => ?_ }
  simp only [Context.afterBody] at hn
  split at hn
  · cases hn
  · exact h.enumeration n hn

theorem Named.afterBlock (h : c.Named) : c.afterBlock.Named := by
  unfold Context.afterBlock
  dsimp only
  split <;> exact { h.afterBody with }

/-- Nodes of the scope move, and nodes that are kept aside stay. -/
theorem Named.afterInsert (h : c.Named) (path : Path) : (c.afterInsert path).Named :=
  { h with
    header := forall_of_function? (function?_afterInsert path c) h.header
    record := Place.forall_aside_afterInsert h.record
    enumeration := Place.forall_aside_afterInsert h.enumeration }

/-- A node that is taken out is kept aside. -/
theorem Named.afterRemove (h : c.Named) (path : Path) {removed : Node}
    (hr : removed.Declared) : (c.afterRemove path removed).Named :=
  { h with
    header := forall_of_function? (function?_afterRemove path removed c) h.header
    record := Place.forall_aside_afterRemove h.record fun _ => hr
    enumeration := Place.forall_aside_afterRemove h.enumeration fun _ => hr }

end Context

end Scan

end HeaderDocs

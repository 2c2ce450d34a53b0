import HeaderDocs.Proofs.Scan.Names
import HeaderDocs.Scan.Declarator
import Mathlib.Data.List.TakeWhile

/-!
# What becomes of the fragments of a declaration

When a declaration has ended, its fragments are dealt out: the first ones make the type, those behind them
the name, and those behind an equals sign the initial value. Written out one after the other, with the sign,
they have all characters of the fragments but for spaces, and no others.

* `Declarator.exists_ofRun?`: which fragments make what.
* `Conserves`: a declarator beside the fragments that it is made of.
* `declare_conserves`: the node that is declared, and the one that it is added to.
-/
namespace HeaderDocs.Scan

open HeaderDocs.Node

/-! ## Dealing out the fragments -/

namespace Declarator

variable {run before : Run} {sign : Fragment}

/-- An equals sign in a run is the first one, or there is another one before it. -/
theorem exists_sign (h : "=" ∈ run.texts) :
    ∃ (before value : Run) (sign : Fragment),
      run = before ++ sign :: value ∧ sign.text = "=" ∧ "=" ∉ before.texts := by
  obtain ⟨texts, others, htexts, hnone⟩ := List.eq_append_cons_of_mem h
  obtain ⟨before, rest, rfl, rfl, hrest⟩ := List.map_eq_append_iff.mp htexts
  obtain ⟨sign, value, rfl, hsign, -⟩ := List.map_eq_cons_iff.mp hrest
  exact ⟨before, value, sign, rfl, hsign, hnone⟩

theorem bne_sign_of_notMem (h : "=" ∉ run.texts) : ∀ f ∈ run, (f.text != "=") = true :=
  fun f hf => bne_iff_ne.mpr fun he => h (List.mem_map.mpr ⟨f, hf, he⟩)

theorem declaredPart_of_notMem (h : "=" ∉ run.texts) : declaredPart run = run :=
  List.takeWhile_eq_self_iff.mpr (bne_sign_of_notMem h)

theorem initial?_of_notMem (h : "=" ∉ run.texts) : initial? run = none := by
  rw [initial?, List.dropWhile_eq_nil_iff.mpr (bne_sign_of_notMem h)]

theorem declaredPart_append (h : "=" ∉ before.texts) (hsign : sign.text = "=") (value : Run) :
    declaredPart (before ++ sign :: value) = before := by
  rw [declaredPart, List.takeWhile_append_of_pos (bne_sign_of_notMem h)]
  simp [hsign]

/-- The initial value is all that stands behind the first equals sign. -/
theorem initial?_append (h : "=" ∉ before.texts) (hsign : sign.text = "=") (value : Run) :
    initial? (before ++ sign :: value) = some value.text := by
  rw [initial?, List.dropWhile_append_of_pos (bne_sign_of_notMem h)]
  simp [hsign]

theorem nameStart_lt (h : run ≠ []) (last : Fragment) : nameStart run last < run.length := by
  have hlength : 0 < run.length := List.length_pos_iff.mpr h
  unfold nameStart
  split
  · cases hfind : run.findIdx? (·.startsWith '(') with
    | none => exact Nat.sub_lt hlength Nat.one_pos
    | some i => exact (List.findIdx?_eq_some_iff_getElem.mp hfind).1
  · exact Nat.sub_lt hlength Nat.one_pos

/-- The declared part is a type and a name behind it, for which there is at least one fragment. -/
theorem exists_ofRun? (h : declaredPart run ≠ []) :
    ∃ type name : Run, declaredPart run = type ++ name ∧ name ≠ [] ∧
      ofRun? run = some { name := name.text, type := type.closeUp, initial := initial? run } := by
  obtain ⟨last, hlast⟩ : ∃ last, (declaredPart run).getLast? = some last :=
    ⟨_, List.getLast?_eq_some_getLast h⟩
  have hlt := nameStart_lt h last
  refine ⟨(declaredPart run).take (nameStart (declaredPart run) last),
    (declaredPart run).drop (nameStart (declaredPart run) last),
    (List.take_append_drop ..).symm, ?_, ?_⟩
  · rwa [Ne, List.drop_eq_nil_iff, Nat.not_le]
  · simp only [ofRun?, hlast]

end Declarator

/-! ## Characters -/

/-- The characters of a text that are not spaces. -/
def unspaced (s : String) : List Char := s.toList.filter (· != ' ')

theorem unspaced_append (s t : String) : unspaced (s ++ t) = unspaced s ++ unspaced t := by
  rw [unspaced, String.toList_append, List.filter_append, unspaced, unspaced]

/-- A run is written out with nothing but spaces between its fragments. -/
theorem unspaced_text (run : Run) : unspaced run.text = unspaced (String.join run.texts) := by
  rw [unspaced, unspaced, String.toList_join, Run.filter_text (by decide)]

theorem unspaced_join_append (first second : Run) :
    unspaced (String.join (Run.texts (first ++ second))) =
      unspaced (String.join first.texts) ++ unspaced (String.join second.texts) := by
  rw [Run.texts, List.map_append, String.join_append, unspaced_append, Run.texts, Run.texts]

theorem unspaced_join_cons (f : Fragment) (run : Run) :
    unspaced (String.join (Run.texts (f :: run))) =
      unspaced f.text ++ unspaced (String.join run.texts) := by
  rw [Run.texts, List.map_cons, String.join_cons, unspaced_append, Run.texts]

theorem unspaced_type_name (type name : Run) :
    unspaced (type.closeUp.toType.text ++ name.text) =
      unspaced (String.join (Run.texts (type ++ name))) := by
  rw [Run.text_toType, Run.text_closeUp, unspaced_append, unspaced_text, unspaced_text,
    unspaced_join_append]

/-! ## Nothing is lost -/

/-- A declarator is made of all fragments of a run, and of nothing else. -/
structure Conserves (run : Run) (d : Declarator) : Prop where
  /-- The type is the first fragments, with nothing before them. -/
  type : ∃ k, d.type = Run.closeUp (run.take k)
  name_ne : d.name ≠ ""
  initial_isSome : d.initial.isSome = true ↔ "=" ∈ run.texts
  /-- The initial value is all that stands behind the first equals sign. -/
  initial : ∀ (before value : Run) (sign : Fragment), run = before ++ sign :: value → sign.text = "=" →
    "=" ∉ before.texts → d.initial = some value.text
  unspaced : unspaced (d.type.toType.text ++ d.name ++ (if "=" ∈ run.texts then "=" else "") ++
    d.initial.getD "") = unspaced (String.join run.texts)

theorem exists_conserves {run : Run} (h : Declarator.declaredPart run ≠ [])
    (hnonempty : ∀ f ∈ run, f.text ≠ "") : ∃ d, Declarator.ofRun? run = some d ∧ Conserves run d := by
  obtain ⟨type, name, hpart, hname, hd⟩ := Declarator.exists_ofRun? h
  have hne : name.text ≠ "" := Run.text_ne_empty hname fun f hf =>
    hnonempty f ((List.takeWhile_sublist _).subset (hpart ▸ List.mem_append_right type hf))
  refine ⟨_, hd, ?_⟩
  by_cases hsign : "=" ∈ run.texts
  · obtain ⟨before, value, sign, rfl, hequals, hbefore⟩ := Declarator.exists_sign hsign
    rw [Declarator.declaredPart_append hbefore hequals] at hpart
    subst hpart
    rw [Declarator.initial?_append hbefore hequals]
    refine ⟨⟨type.length, by simp⟩, hne, iff_of_true rfl hsign, ?_, ?_⟩
    · -- a run has only one first equals sign
      intro before' value' sign' hrun hequals' hbefore'
      rw [← Declarator.initial?_append hbefore hequals, hrun,
        Declarator.initial?_append hbefore' hequals']
    · rw [if_pos hsign, Option.getD_some, unspaced_append, unspaced_append, unspaced_type_name,
        unspaced_text, unspaced_join_append (type ++ name), unspaced_join_cons, hequals,
        List.append_assoc]
  · rw [Declarator.declaredPart_of_notMem hsign] at hpart
    subst hpart
    rw [Declarator.initial?_of_notMem hsign]
    refine ⟨⟨type.length, by simp⟩, hne, by simp [hsign], ?_, ?_⟩
    · intro before value sign hrun hequals
      exact absurd (by rw [hrun]; simp [Run.texts, hequals]) hsign
    · rw [if_neg hsign, Option.getD_none, String.append_empty, String.append_empty, unspaced_type_name]

/-! ## Declaring -/

/-- What a type declares, if there is one, and the node that it is added to, if there is one, as it is
then. -/
def declare (kind : Kind) (type : Option Run) (parent : Option Node) : Option Node × Option Node :=
  match type.bind Declarator.ofRun? with
  | some d => (some (d.toNode kind), parent.map (·.push (d.toNode kind)))
  | none => (none, parent)

/-- Arguments are declared at the node of the function whose header is being read. -/
theorem header_addArgument {c : Context} {h : Header} (hc : c.header = some h) :
    c.addArgument.header =
      (declare .argument (some c.run) (some h.node)).2.map fun n => { h with node := n } := by
  unfold Context.addArgument declare
  rw [hc, Option.bind_some]
  cases Declarator.ofRun? c.run <;> simp [Context.dropRun, hc]

/-- Declaring what has a type or none, at a node or not.

A type that does not start with an equals sign, and is made of one or more fragments that are not empty,
declares a node with a name, a type and, if there is an equals sign, an initial value. The type is its only
child, and nothing of the fragments is lost (`Conserves`). The node becomes the last child of the one that
it is declared at.

Any other type declares nothing: there is none, it is empty, or it starts with an equals sign. The node that
it would have been declared at stays as it is. -/
theorem declare_conserves (kind : Kind) (parent : Option Node) :
    (∀ (f : Fragment) (rest : Run), f.text ≠ "=" → (∀ g ∈ f :: rest, g.text ≠ "") →
      ∃ (d : Declarator) (node : Node), Conserves (f :: rest) d ∧
        node = { kind, attrs := { name := some d.name, initial := d.initial },
                 children := [d.type.toType] } ∧
        declare kind (some (f :: rest)) parent =
          (some node, parent.map fun p => p.withChildren (p.children ++ [node]))) ∧
    ∀ type : Option Run,
      ((declare kind type parent).1 = none ↔
        type = none ∨ type = some [] ∨ ∃ f rest, type = some (f :: rest) ∧ f.text = "=") ∧
      ((declare kind type parent).1 = none → (declare kind type parent).2 = parent) := by
  constructor
  · intro f rest hf hnonempty
    have hpart : Declarator.declaredPart (f :: rest) ≠ [] := by simp [Declarator.declaredPart, hf]
    obtain ⟨d, hd, hconserves⟩ := exists_conserves hpart hnonempty
    refine ⟨d, d.toNode kind, hconserves, rfl, ?_⟩
    rw [declare, Option.bind_some, hd]
    rfl
  · intro type
    have hnode : (declare kind type parent).1 = none ↔ type.bind Declarator.ofRun? = none := by
      unfold declare
      cases type.bind Declarator.ofRun? <;> simp
    rw [hnode]
    constructor
    · cases type with
      | none => simp
      | some run =>
        rw [Option.bind_some, Declarator.ofRun?_eq_none_iff]
        cases run <;> simp [Run.texts]
    · intro hnone
      rw [declare, hnone]

/-- The argument `void (*cb)(int x) = 0`. -/
def callback : Run :=
  [⟨"void", false⟩, ⟨"(", true⟩, ⟨"*", false⟩, ⟨"cb", false⟩, ⟨")", false⟩, ⟨"(", false⟩, ⟨"int", false⟩,
    ⟨"x", true⟩, ⟨")", false⟩, ⟨"=", false⟩, ⟨"0", true⟩]

/-- The callback is an argument behind another one. -/
theorem declare_conserves_callback :
    ∃ d node, Conserves callback d ∧ node.name = some "(*cb)(int x)" ∧ node.attrs.initial = some "0" ∧
      declare .argument (some callback) (some ((ofName .function "run").push (ofName .argument "n"))) =
        (some node, some ((ofName .function "run").withChildren [ofName .argument "n", node])) := by
  obtain ⟨d, node, hd, -, hdeclare⟩ := (declare_conserves .argument
    (some ((ofName .function "run").push (ofName .argument "n")))).1 ⟨"void", false⟩ callback.tail
    (by decide) (by decide)
  have hrun : Declarator.ofRun? callback =
      some { name := "(*cb)(int x)", type := [⟨"void", false⟩], initial := some "0" } := by decide
  have hnode := congrArg Prod.fst hdeclare
  rw [show ⟨"void", false⟩ :: callback.tail = callback from rfl, declare, Option.bind_some, hrun] at hnode
  obtain rfl := Option.some.inj hnode
  exact ⟨d, _, hd, rfl, rfl, hdeclare⟩

end HeaderDocs.Scan

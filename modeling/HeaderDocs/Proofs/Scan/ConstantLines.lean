import HeaderDocs.Proofs.Scan.EnumerationConstants
import HeaderDocs.Proofs.Scan.LineComments

/-!
# Constants on lines of their own

In an enumeration with one constant a line, a comment behind the comma describes the constant of its
line, if that is recorded. If it is not, the comment waits for the constant of the next line, and is
lost if that has a comment of its own.

* `ConstantLine.toNode`: the constant of a line, for the comment that waits for it.
* `takenLines`: the lines whose constants are recorded, with the comments that wait for them.
* `HoldsLines.take`: recording the constant of one more line.
-/
namespace HeaderDocs

/-! ## Insertions at a position -/

theorem modify_insertIdx_self {α : Type} (f : α → α) (x : α) (l : List α) (i : Nat) :
    (l.insertIdx i x).modify i f = l.insertIdx i (f x) := by
  induction l generalizing i with
  | nil => cases i <;> simp
  | cons y l ih => cases i <;> simp [ih]

theorem Node.kind_of_label? {n : Node} {k : Kind} {name : String}
    (h : n.label? = some (k, name)) : n.kind = k := by
  obtain ⟨_, _, hlabel⟩ := Option.map_eq_some_iff.mp h
  exact congrArg Prod.fst hlabel

namespace Scan

open HeaderDocs.Text

/-! ## Lines -/

/-- White space within a line. -/
def IsBlank (cs : List Char) : Prop := IsGap cs ∧ '\n' ∉ cs

instance (cs : List Char) : Decidable (IsBlank cs) :=
  inferInstanceAs (Decidable (_ ∧ _))

inductive SourceComment where
  | block (comment : BlockComment)
  | line (comment : LineComment)

def SourceComment.text : SourceComment → String
  | block c => c.text
  | line c => c.text

/-- A constant with the comment behind its comma. -/
structure ConstantLine where
  name : Name
  comment : Option SourceComment := none

namespace ConstantLine

variable (l : ConstantLine)

/-- The text of the comment, if it says something. -/
def raw? : Option String := (l.comment.map (·.text)).filter (· != "")

/-- What stands behind the comma, up to the end of the line. -/
def Ends (l : ConstantLine) (cs : List Char) : Prop :=
  match l.comment with
  | none => IsBlank cs
  | some (.block c) => ∃ before after, IsBlank before ∧ IsBlank after ∧ cs = before ++ (c.chars ++ after)
  | some (.line c) => ∃ before, IsBlank before ∧ cs = before ++ c.chars

def Spelled (cs : List Char) : Prop :=
  ∃ before between rest, IsGap before ∧ IsBlank between ∧ l.Ends rest ∧
    cs = before ++ (l.name.text.toList ++ (between ++ ',' :: (rest ++ ['\n'])))

/-! ### What is recorded -/

/-- The node that is recorded at the name, described by the comment that waits. -/
def opening (left : Option String) : Node := (constantNode l.name.text).describeIf left

/-- The node in the end. A comment of the line itself takes the place of the one that has waited. -/
def toNode (left : Option String) : Node := (constantNode l.name.text).describeIf (l.raw?.or left)

def isTaken (left : Option String) : Bool :=
  Node.isRecordable l.name.text && !(l.opening left).isPrivate

/-- Whether the comment of the line takes the constant out again. -/
def isWithdrawn : Bool := l.raw?.any Comment.isPrivate

/-- The comment that waits for the next line. -/
def leaves (left : Option String) : Option String := if l.isTaken left then none else l.raw?

end ConstantLine

inductive LinesText : List ConstantLine → List Char → Prop
  | nil {gap : List Char} : IsGap gap → LinesText [] gap
  | cons {l : ConstantLine} {ls : List ConstantLine} {cs rest : List Char} :
      l.Spelled cs → LinesText ls rest → LinesText (l :: ls) (cs ++ rest)

/-- The lines whose constants are recorded, each with the comment that waits for it. -/
def takenLines (left : Option String) : List ConstantLine → List (ConstantLine × Option String)
  | [] => []
  | l :: ls => (if l.isTaken left then [(l, left)] else []) ++ takenLines (l.leaves left) ls

def lastLine? (ps : List (ConstantLine × Option String)) (name : String) :
    Option (ConstantLine × Option String) :=
  ps.reverse.find? (·.1.name.text == name)

theorem lastLine?_concat (ps : List (ConstantLine × Option String))
    (p : ConstantLine × Option String) (name : String) :
    lastLine? (ps ++ [p]) name = if p.1.name.text = name then some p else lastLine? ps name := by
  unfold lastLine?
  rw [List.reverse_concat, List.find?_cons]
  by_cases h : p.1.name.text = name
  · simp [h]
  · rw [if_neg h, beq_eq_false_iff_ne.mpr h]

/-! ## The enumeration -/

/-- What a comment does to the constant at a position: it describes it, or takes it out. -/
def settle (raw? : Option String) (i : Nat) (home : Node) : Node :=
  match raw? with
  | none => home
  | some raw =>
    if Comment.isPrivate raw then home.removeAt [i] else home.modifyAt (·.describe raw) [i]

/-- The enumeration with its description, after lines of its body. -/
structure HoldsLines (about : String) (ps : List (ConstantLine × Option String)) (home : Node) :
    Prop where
  kept : home.Kept
  kind : home.kind = .enumType
  unscoped : ∀ c ∈ home.children, c.hasScope = false
  /-- Of each name, the last line that has it says what the constant is. -/
  mem_iff : ∀ (c : Node) (name : String), c.label? = some (.constant, name) →
    (c ∈ home.children ↔
      ∃ p, lastLine? ps name = some p ∧ p.1.isWithdrawn = false ∧ c = p.1.toNode p.2)
  others : ∀ c : Node, c.kind ≠ .constant → (c ∈ home.children ↔ c = Node.descriptionOf about)

namespace ConstantLine

variable (l : ConstantLine) (left : Option String)

theorem describe_opening (raw : String) :
    (l.opening left).describe raw = (constantNode l.name.text).describe raw := by
  cases left with
  | none => rfl
  | some before => rfl

theorem toNode_of_raw {raw : String} (h : l.raw? = some raw) :
    l.toNode left = (l.opening left).describe raw := by
  rw [describe_opening, toNode, h]
  rfl

theorem toNode_of_none (h : l.raw? = none) : l.toNode left = l.opening left := by
  rw [toNode, h]
  rfl

theorem label?_opening : (l.opening left).label? = some (.constant, l.name.text) := by
  cases left <;> rfl

theorem label?_toNode : (l.toNode left).label? = some (.constant, l.name.text) := by
  unfold toNode
  cases l.raw?.or left <;> rfl

theorem hasScope_toNode : (l.toNode left).hasScope = false := by
  unfold toNode
  cases l.raw?.or left <;> rfl

theorem kept_opening : (l.opening left).Kept :=
  (State.kept_leaf .constant _).describeIf left

theorem name_opening : (l.opening left).name = some l.name.text := by
  cases left <;> rfl

theorem refused {l : ConstantLine} {left : Option String} (h : l.isTaken left = false) (home : Node) :
    (l.opening left).isPrivate = true ∨ home.insertion? (l.opening left) = none := by
  rw [isTaken, Bool.and_eq_false_iff, Bool.not_eq_false'] at h
  refine h.symm.imp_right fun hname => ?_
  have hnone : home.insert? (l.opening left) = none :=
    (Node.insert?_eq_none_iff home _).mpr fun name he => by
      rw [l.name_opening left] at he
      exact Option.some.inj he ▸ hname
  exact Option.map_eq_none_iff.mp hnone

/-- The children of the enumeration when the comment of the line has been read. -/
theorem children_settle (home : Node) {ins : Node.Insertion} (hnode : ins.node = l.opening left) :
    (settle l.raw? ins.position (home.withChildren (ins.apply home.children))).children =
      if l.isWithdrawn then ins.rest home.children
      else (ins.rest home.children).insertIdx ins.position (l.toNode left) := by
  unfold settle isWithdrawn
  cases hraw : l.raw? with
  | none =>
    rw [l.toNode_of_none left hraw, ← hnode]
    rfl
  | some raw =>
    rw [l.toNode_of_raw left hraw, ← hnode]
    dsimp only [Option.any_some]
    split
    · exact List.eraseIdx_insertIdx_self ..
    · exact modify_insertIdx_self (·.describe raw) ins.node _ _

end ConstantLine

theorem kept_settle {home : Node} (h : home.Kept) (raw? : Option String) (i : Nat) :
    (settle raw? i home).Kept ∧ (settle raw? i home).key = home.key := by
  unfold settle
  split
  · exact ⟨h, rfl⟩
  · split
    · exact h.removeAt [i]
    · exact h.describeAt _ [i]

theorem holdsLines_nil {home : Node} {about : String} (hkept : home.Kept)
    (hkind : home.kind = .enumType) (hchildren : home.children = [Node.descriptionOf about]) :
    HoldsLines about [] home := by
  have hchild : ∀ c, c ∈ home.children ↔ c = Node.descriptionOf about := fun c => by simp [hchildren]
  refine ⟨hkept, hkind, fun c hc => ?_, fun c name hlabel => ⟨fun hc => ?_, nofun⟩, fun c _ => hchild c⟩
  · rw [(hchild c).mp hc]
    rfl
  · rw [(hchild c).mp hc] at hlabel
    cases hlabel

theorem HoldsLines.congr {about : String} {ps : List (ConstantLine × Option String)} {home n : Node}
    (h : HoldsLines about ps home) (hkind : n.kind = home.kind) (hchildren : n.children = home.children) :
    HoldsLines about ps n :=
  ⟨h.kept.congr hkind.symm hchildren.symm, hkind.trans h.kind, hchildren ▸ h.unscoped,
    hchildren ▸ h.mem_iff, hchildren ▸ h.others⟩

theorem HoldsLines.descriptionText {about : String} {ps : List (ConstantLine × Option String)}
    {home : Node} (h : HoldsLines about ps home) : home.descriptionText = about := by
  have hmem : Node.descriptionOf about ∈ home.children :=
    (h.others _ (show Kind.description ≠ .constant by decide)).mpr rfl
  cases hchild : home.child? .description with
  | none => exact absurd rfl (List.find?_eq_none.mp hchild _ hmem)
  | some d =>
    have hkind : d.kind = .description := by simpa [Node.isKind] using List.find?_some hchild
    obtain rfl := (h.others d (by simp [hkind])).mp (List.mem_of_find?_eq_some hchild)
    rw [Node.descriptionText, hchild]
    exact Node.text_descriptionOf about

/-- Recording the constant of one more line, with the comment behind it. -/
theorem HoldsLines.take {about : String} {ps : List (ConstantLine × Option String)} {home : Node}
    (h : HoldsLines about ps home) {l : ConstantLine} {left : Option String}
    (htaken : l.isTaken left = true) :
    ∃ ins, home.insertion? (l.opening left) = some ins ∧
      let home' := settle l.raw? ins.position (home.withChildren (ins.apply home.children))
      home'.key = home.key ∧ HoldsLines about (ps ++ [(l, left)]) home' := by
  have hscope : home.kind.isScope = true := by rw [h.kind]; rfl
  have hkind : (l.opening left).kind = .constant := by cases left <;> rfl
  rw [ConstantLine.isTaken, Bool.and_eq_true] at htaken
  obtain ⟨ins, hins, hnode⟩ := Node.exists_insertion? (l.name_opening left) htaken.1 h.unscoped
  have harranged := h.kept.self.arranged hscope
  obtain ⟨hkept, hkey⟩ := kept_settle
    (h.kept.insert (l.kept_opening left) hscope (by rw [hkind]; decide) hins) l.raw? ins.position
  have hchildren := l.children_settle left home hnode
  have hrest : ∀ c, c ∈ ins.rest home.children ↔
      c ∈ home.children ∧ c.label? ≠ some (.constant, l.name.text) := fun c => by
    rw [← l.label?_opening left]
    exact Node.mem_rest_iff harranged hins
  have hmem : ∀ c, c ∈ (settle l.raw? ins.position
      (home.withChildren (ins.apply home.children))).children ↔
        l.isWithdrawn = false ∧ c = l.toNode left ∨
          c ∈ home.children ∧ c.label? ≠ some (.constant, l.name.text) := fun c => by
    rw [hchildren, ← hrest]
    split
    · rename_i hwithdrawn
      simp [hwithdrawn]
    · rename_i hwithdrawn
      rw [List.mem_insertIdx (Node.Insertion.position_le hins)]
      simp [hwithdrawn]
  refine ⟨ins, hins, hkey, hkept, (Node.kind_eq_of_key hkey).trans h.kind, fun c hc => ?_,
    fun c name hlabel => ?_, fun c hc => ?_⟩
  · rcases (hmem c).mp hc with ⟨-, rfl⟩ | ⟨hc, -⟩
    · exact l.hasScope_toNode left
    · exact h.unscoped c hc
  · rw [hmem, lastLine?_concat, hlabel]
    by_cases hsame : l.name.text = name
    · rw [if_pos hsame, hsame]
      simp
    · have hother : c ≠ l.toNode left := by
        rintro rfl
        rw [l.label?_toNode left] at hlabel
        exact hsame (congrArg Prod.snd (Option.some.inj hlabel))
      rw [if_neg hsame, ← h.mem_iff c name hlabel]
      simp [hother, Ne.symm hsame]
  · have hother : c ≠ l.toNode left := by
      rintro rfl
      exact hc (Node.kind_of_label? (l.label?_toNode left))
    have hlabel : c.label? ≠ some (.constant, l.name.text) := fun hlabel =>
      hc (Node.kind_of_label? hlabel)
    rw [hmem, ← h.others c hc]
    simp [hother, hlabel]

end Scan

end HeaderDocs

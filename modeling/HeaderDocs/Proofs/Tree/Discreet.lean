import HeaderDocs.Proofs.Comment.Marker
import HeaderDocs.Proofs.Tree.Arrangement

/-!
# Trees that show nothing hidden

A node is `Discreet` if none of its descriptions hides it; what a function returns is left out of
this. Descriptions are given as one piece of text, so that a text is discreet if its pieces are.

Nodes are taken apart and put together while their own description is not settled yet, so what is
kept track of is the property of all nodes below a node (`Below`), and what a change of a node does
to the node around it (`StaysDiscreet`).

* `StaysDiscreet.modifyAt`: a change of the node that a path leads to.
* `everywhere_discreet_of_public`: a node that does not hide itself can be put into a discreet tree.
-/
namespace HeaderDocs.Node

/-! ## Discreet nodes -/

/-- No piece of the text of a node holds the marker. -/
def Open (d : Node) : Prop :=
  ∀ p ∈ d.children, p.kind.isText = true → Comment.isPrivate p.content = false

/-- A description has at most one piece of text, and the descriptions of a node do not hide it. -/
structure Discreet (n : Node) : Prop where
  plain : n.kind = .description → n.children.countP (·.kind.isText) ≤ 1
  shown : n.kind ≠ .result → ∀ d ∈ n.children, d.kind = .description → d.Open

/-- The property holds of every node below a node. -/
def Below (P : Node → Prop) (n : Node) : Prop := ∀ c ∈ n.children, c.Everywhere P

variable {n m d : Node}

theorem everywhere_iff_below {P : Node → Prop} : n.Everywhere P ↔ P n ∧ n.Below P := everywhere_iff

theorem Everywhere.below {P : Node → Prop} (h : n.Everywhere P) : n.Below P :=
  (everywhere_iff_below.mp h).2

theorem text_cases (h : d.children.countP (·.kind.isText) ≤ 1) :
    (d.text = "" ∧ ∀ p ∈ d.children, p.kind.isText = false) ∨
      ∃ p ∈ d.children, d.text = p.content ∧ ∀ q ∈ d.children, q.kind.isText = true → q = p := by
  rw [List.countP_eq_length_filter] at h
  rcases hf : d.children.filter (·.kind.isText) with _ | ⟨p, _ | ⟨q, ps⟩⟩
  · left
    simp only [Node.text, hf, joinText_nil, true_and]
    simpa using hf
  · right
    refine ⟨p, ?_, by simp [Node.text, hf, joinText], fun q hq ht => ?_⟩
    · exact (List.mem_filter.mp (hf ▸ List.mem_singleton_self p)).1
    · exact List.mem_singleton.mp (hf ▸ List.mem_filter.mpr ⟨hq, ht⟩)
  · rw [hf] at h
    simp at h

theorem isPrivate_text_iff (h : d.children.countP (·.kind.isText) ≤ 1) :
    Comment.isPrivate d.text = false ↔ d.Open := by
  rcases text_cases h with ⟨ht, hnone⟩ | ⟨p, hp, ht, honly⟩
  · rw [ht]
    refine ⟨fun _ p hp hk => ?_, fun _ => by decide⟩
    rw [hnone p hp] at hk
    cases hk
  · rw [ht]
    by_cases hk : p.kind.isText = true
    · exact ⟨fun hpriv q hq hqk => honly q hq hqk ▸ hpriv, fun ho => ho p hp hk⟩
    · have hnone : ∀ q ∈ d.children, q.kind.isText ≠ true := fun q hq hqk => hk (honly q hq hqk ▸ hqk)
      have hempty : d.text = "" := by
        have : d.children.filter (·.kind.isText) = [] := List.filter_eq_nil_iff.mpr hnone
        simp [Node.text, this]
      rw [← ht, hempty]
      exact ⟨fun _ q hq hqk => absurd hqk (hnone q hq), fun _ => by decide⟩

/-- In a discreet tree only what a function returns can be hidden. -/
theorem Everywhere.isPrivate_eq_false (h : n.Everywhere Discreet) (hk : n.kind ≠ .result) :
    n.isPrivate = false := by
  unfold Node.isPrivate descriptionText
  split
  · rename_i d hd
    have hmem := List.mem_of_find?_eq_some hd
    have hkind : d.kind = .description := by simpa [isKind] using List.find?_some hd
    exact (isPrivate_text_iff ((h.child hmem).self.plain hkind)).mpr (h.self.shown hk d hmem hkind)
  · decide

/-- A node that does not hide itself is discreet, if it has no more than one description. -/
theorem everywhere_discreet_of_public (h : n.Below Discreet) (hk : n.kind ≠ .description)
    (hd : n.children.countP (isKind .description) ≤ 1) (hn : n.isPrivate = false) :
    n.Everywhere Discreet := by
  refine everywhere_iff_below.mpr ⟨⟨fun he => absurd he hk, fun _ d hmem hkind => ?_⟩, h⟩
  rw [List.countP_eq_length_filter] at hd
  have hfirst : n.child? .description = some d := by
    have hin : d ∈ n.children.filter (isKind .description) :=
      List.mem_filter.mpr ⟨hmem, by simp [isKind, hkind]⟩
    rcases hf : n.children.filter (isKind .description) with _ | ⟨e, _ | ⟨e', es⟩⟩
    · rw [hf] at hin
      cases hin
    · rw [hf] at hin
      rw [Node.child?, ← List.head?_filter, hf, List.mem_singleton.mp hin]
      rfl
    · rw [hf] at hd
      simp at hd
  unfold Node.isPrivate descriptionText at hn
  rw [hfirst] at hn
  exact (isPrivate_text_iff ((h d hmem).self.plain hkind)).mp hn

/-! ## Changes -/

/-- A node is changed, and neither it nor the node around it shows more than before. -/
structure StaysDiscreet (before after : Node) : Prop where
  kind : after.kind = before.kind
  content : before.kind.isText = true → after.content = before.content
  isOpen : before.kind = .description → before.Open → after.Open
  discreet : before.Discreet → after.Discreet
  below : before.Below Discreet → after.Below Discreet

namespace StaysDiscreet

theorem refl (n : Node) : n.StaysDiscreet n := ⟨rfl, fun _ => rfl, fun _ => id, id, id⟩

theorem modifyChild {f : Node → Node} {i : Nat}
    (hf : ∀ c, n.children[i]? = some c →
      c.StaysDiscreet (f c) ∧ (c.Everywhere Discreet → (f c).Everywhere Discreet)) :
    n.StaysDiscreet (n.withChildren (n.children.modify i f)) := by
  have hmem : ∀ d ∈ n.children.modify i f, ∃ c ∈ n.children, c.StaysDiscreet d ∧
      (c.Everywhere Discreet → d.Everywhere Discreet) := by
    intro d hd
    obtain ⟨j, hj⟩ := List.mem_iff_getElem?.mp hd
    rw [List.getElem?_modify] at hj
    obtain ⟨c, hc, rfl⟩ := Option.map_eq_some_iff.mp hj
    refine ⟨c, List.mem_of_getElem? hc, ?_⟩
    split
    · rename_i hij
      exact hf c (hij ▸ hc)
    · exact ⟨refl c, id⟩
  refine ⟨rfl, fun _ => rfl, fun _ ho p hp ht => ?_, fun hd => ⟨fun hk => ?_, fun hk d hmd hkd => ?_⟩,
    fun hb d hmd => ?_⟩
  · obtain ⟨c, hc, hs, -⟩ := hmem p hp
    have htc : c.kind.isText = true := hs.kind ▸ ht
    rw [hs.content htc]
    exact ho c hc htc
  · have hkinds : (n.children.modify i f).map (·.kind) = n.children.map (·.kind) :=
      map_modify_eq fun c hc => (hf c hc).1.kind
    have hcount : ∀ cs : List Node, cs.countP (·.kind.isText) = (cs.map (·.kind)).countP Kind.isText := by
      intro cs
      rw [List.countP_map]
      rfl
    rw [show (n.withChildren (n.children.modify i f)).children = n.children.modify i f from rfl,
      hcount, hkinds, ← hcount]
    exact hd.plain hk
  · obtain ⟨c, hc, hs, -⟩ := hmem d hmd
    have hkc : c.kind = .description := hs.kind ▸ hkd
    exact hs.isOpen hkc (hd.shown hk c hc hkc)
  · obtain ⟨c, hc, -, he⟩ := hmem d hmd
    exact he (hb c hc)

/-- Changing the node that a path leads to. -/
theorem modifyAt {f : Node → Node} {path : Path}
    (hf : ∀ m, n.get? path = some m → m.StaysDiscreet (f m)) :
    n.StaysDiscreet (n.modifyAt f path) := by
  induction path generalizing n with
  | nil => exact hf n rfl
  | cons i path ih =>
    refine modifyChild fun c hc => ?_
    have hs : c.StaysDiscreet (c.modifyAt f path) := by
      refine ih fun m hm => hf m ?_
      simp only [Node.get?, hc, hm]
    refine ⟨hs, fun he => ?_⟩
    obtain ⟨hself, hbelow⟩ := everywhere_iff_below.mp he
    exact everywhere_iff_below.mpr ⟨hs.discreet hself, hs.below hbelow⟩

theorem sublist {cs : List Node} (h : cs.Sublist n.children) :
    n.StaysDiscreet (n.withChildren cs) :=
  ⟨rfl, fun _ => rfl, fun _ ho p hp => ho p (h.subset hp),
    fun hd => ⟨fun hk => Nat.le_trans h.countP_le (hd.plain hk),
      fun hk d hmd => hd.shown hk d (h.subset hmd)⟩,
    fun hb c hc => hb c (h.subset hc)⟩

theorem removeAt (n : Node) (path : Path) : n.StaysDiscreet (n.removeAt path) := by
  rcases List.eq_nil_or_concat path with rfl | ⟨home, i, rfl⟩
  · exact refl n
  · rw [List.concat_eq_append, removeAt_concat]
    exact modifyAt fun m _ => sublist (List.eraseIdx_sublist _ i)

theorem insert {scope node : Node} {ins : Insertion} (hs : scope.kind.isScope = true)
    (hn : node.Everywhere Discreet) (hk : node.kind ≠ .description)
    (hins : scope.insertion? node = some ins) :
    scope.StaysDiscreet (scope.withChildren (ins.apply scope.children)) := by
  have hkind : scope.kind ≠ .description := by
    intro he
    rw [he] at hs
    cases hs
  obtain ⟨hkey, hcs⟩ := Insertion.node_eq hins
  have hknew : ins.node.kind ≠ .description := by rwa [kind_eq_of_key hkey]
  have hnew : ins.node.Everywhere Discreet := by
    refine everywhere_iff_below.mpr ⟨⟨fun he => absurd he hknew, ?_⟩, ?_⟩
    · rw [hcs, kind_eq_of_key hkey]
      exact hn.self.shown
    · unfold Below
      rw [hcs]
      exact hn.below
  have hmem : ∀ c ∈ ins.apply scope.children, c = ins.node ∨ c ∈ scope.children := by
    intro c hc
    rcases List.eq_or_mem_of_mem_insertIdx hc with he | hc
    · exact .inl he
    · right
      split at hc
      · exact (List.eraseIdx_sublist _ _).subset hc
      · exact hc
  refine ⟨rfl, fun _ => rfl, fun he => absurd he hkind,
    fun hd => ⟨fun he => absurd he hkind, fun hk d hmd hkd => ?_⟩, fun hb c hc => ?_⟩
  · rcases hmem d hmd with rfl | hmd
    · exact absurd hkd hknew
    · exact hd.shown hk d hmd hkd
  · rcases hmem c hc with rfl | hc
    · exact hnew
    · exact hb c hc

/-- Putting another node in the place of a scope. -/
theorem replace {scope node : Node} (hk : node.kind = scope.kind) (hs : scope.kind.isScope = true)
    (hn : node.Everywhere Discreet) : scope.StaysDiscreet node := by
  refine ⟨hk, fun ht => ?_, fun he => ?_, fun _ => hn.self, fun _ => hn.below⟩
  · cases hkind : scope.kind <;> rw [hkind] at hs ht <;> cases hs <;> cases ht
  · rw [he] at hs
    cases hs

end StaysDiscreet

/-! ## Nodes that are made -/

/-- A node without descriptions of its own. -/
theorem everywhere_discreet_of_undescribed (hk : n.kind ≠ .description)
    (hd : ∀ c ∈ n.children, c.kind ≠ .description) (hb : n.Below Discreet) :
    n.Everywhere Discreet :=
  everywhere_iff_below.mpr ⟨⟨fun he => absurd he hk, fun _ d hm he => absurd he (hd d hm)⟩, hb⟩

theorem everywhere_discreet_word (text : String) (spaced : Bool) :
    (word text spaced).Everywhere Discreet :=
  everywhere_discreet_of_undescribed nofun nofun nofun

theorem everywhere_discreet_prose (text : String) : (prose text).Everywhere Discreet :=
  everywhere_discreet_of_undescribed nofun nofun nofun

theorem children_descriptionOf (text : String) :
    ∀ c ∈ (descriptionOf text).children, c = prose text := by
  unfold descriptionOf
  dsimp only
  split
  · exact nofun
  · exact fun c hc => List.mem_singleton.mp hc

theorem everywhere_discreet_descriptionOf (text : String) :
    (descriptionOf text).Everywhere Discreet := by
  refine everywhere_iff.mpr ⟨⟨fun _ => ?_, fun _ d hd hk => ?_⟩, fun c hc => ?_⟩
  · unfold descriptionOf
    dsimp only
    split <;> simp [prose, Kind.isText]
  · rw [children_descriptionOf text d hd] at hk
    cases hk
  · rw [children_descriptionOf text c hc]
    exact everywhere_discreet_prose text

theorem open_descriptionOf {text : String} (h : Comment.isPrivate text = false) :
    (descriptionOf text).Open := by
  intro p hp _
  rw [children_descriptionOf text p hp]
  exact h

/-! ## Describing -/

/-- Describing a node puts nothing hidden below it: the text of its description is one piece. -/
theorem below_describe (hb : n.Below Discreet) (raw : String) : (n.describe raw).Below Discreet := by
  intro c hc
  rw [children_describe, List.mem_append, List.mem_singleton] at hc
  rcases hc with hc | rfl
  · exact hb c (List.eraseP_sublist.subset hc)
  · exact everywhere_discreet_descriptionOf _

theorem below_describeIf (hb : n.Below Discreet) (raw? : Option String) :
    (n.describeIf raw?).Below Discreet := by
  cases raw? with
  | none => exact hb
  | some raw => exact below_describe hb raw

theorem countP_describe (hd : n.children.countP (isKind .description) ≤ 1) (raw : String) :
    (n.describe raw).children.countP (isKind .description) ≤ 1 := by
  rw [children_describe, List.countP_append, countP_eraseP_eq_zero hd]
  simp

theorem countP_describeIf (hd : n.children.countP (isKind .description) ≤ 1) (raw? : Option String) :
    (n.describeIf raw?).children.countP (isKind .description) ≤ 1 := by
  cases raw? with
  | none => exact hd
  | some raw => exact countP_describe hd raw

theorem content_describe (n : Node) (raw : String) : (n.describe raw).content = n.content := by
  unfold Node.describe
  dsimp only
  split <;> rfl

/-- A comment without the marker hides nothing. -/
theorem StaysDiscreet.describe {raw : String} (h : Comment.isPrivate raw = false) (n : Node) :
    n.StaysDiscreet (n.describe raw) := by
  have htext : Comment.isPrivate (Comment.normalize raw).text = false := by
    refine Bool.eq_false_iff.mpr fun he => ?_
    rw [Comment.isPrivate_of_normalize he] at h
    cases h
  have hmem : ∀ c ∈ (n.describe raw).children,
      c ∈ n.children ∨ c = descriptionOf (Comment.normalize raw).text := by
    intro c hc
    rw [children_describe, List.mem_append, List.mem_singleton] at hc
    exact hc.imp_left fun hc => List.eraseP_sublist.subset hc
  refine ⟨kind_describe n raw, fun _ => content_describe n raw, fun _ ho p hp ht => ?_,
    fun hd => ⟨fun hk => ?_, fun hk d hm hkd => ?_⟩, fun hb => below_describe hb raw⟩
  · rcases hmem p hp with hp | rfl
    · exact ho p hp ht
    · cases ht
  · rw [children_describe, List.countP_append]
    have := (List.eraseP_sublist (p := isKind .description) (l := n.children)).countP_le
      (p := fun c : Node => c.kind.isText)
    have hplain := hd.plain (kind_describe n raw ▸ hk)
    simp only [List.countP_singleton, kind_descriptionOf, Kind.isText]
    simp only [Bool.false_eq_true, if_false, Nat.add_zero]
    exact Nat.le_trans this hplain
  · rcases hmem d hm with hm | rfl
    · exact hd.shown (kind_describe n raw ▸ hk) d hm hkd
    · exact open_descriptionOf htext

/-- A description that hides what it describes may stay where nothing looks at it. -/
theorem discreet_of_kind_result (hk : n.kind = .result) : n.Discreet :=
  ⟨fun he => absurd (hk.symm.trans he) nofun, fun he => absurd hk he⟩

end HeaderDocs.Node

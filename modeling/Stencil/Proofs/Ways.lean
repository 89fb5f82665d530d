import Stencil.Proofs.Mirror
import Stencil.Proofs.WellFormed

/-!
# Ways through a tree

A way leads from a node down to one of its descendants. Each passage on it keeps the kind of the node
that was passed and its children to both sides, so that a way tells what surrounds the node at its
end and what follows it in document order (`Passage.leavesAfter`).

Ways are used here to say how an element ends that lacks its end tag. Three things can be seen in a
tree: it reaches the end of the text; the end tag of an element around it follows (`Passage.Closed`);
or it stands in code, and code follows that reads such an end tag as code (`Passage.Spilled`).

* `Node.exists_way`: there is a way to every descendant.
* `Passage.Ended.element`: an end tag in code may be that of any element on the way.
* `Node.enclosed_body`: a block shows what was read as code in it.
* `Node.Shaped.fullStop?_eq`: a node stops where its last piece does.
-/

namespace Stencil

/-! ## The way down to a node -/

/-- A node on the way down to another one: its kind, and its children before and after the one that
leads on. -/
structure Passage where
  kind : Kind
  before : List Node
  after : List Node

namespace Passage

/-- The name of the element, by a start tag before the way. -/
def tagName? (f : Passage) : Option Text :=
  (Node.ofChildren f.kind f.before).tagName?

/-- The leaves that follow the end of a way in document order. -/
def leavesAfter : List Passage → List Node
  | [] => []
  | f :: fs => leavesAfter fs ++ (Node.descendantsAll f.after).filter fun n => n.location?.isSome

/-- Nothing follows the end of the way. -/
def Shut (fs : List Passage) : Prop :=
  ∀ f ∈ fs, f.after = []

/-- The leaves after a way are those after its inner part, and then those after its outer part. -/
theorem leavesAfter_append (fs gs : List Passage) : leavesAfter (fs ++ gs) = leavesAfter gs ++ leavesAfter fs := by
  induction fs with
  | nil => simp [leavesAfter]
  | cons f fs ih => rw [List.cons_append, leavesAfter, leavesAfter, ih, List.append_assoc]

/-- No leaf stands behind a way on which every node is the last one. -/
theorem Shut.leavesAfter_eq {fs : List Passage} (h : Shut fs) : leavesAfter fs = [] := by
  induction fs with
  | nil => rfl
  | cons f fs ih =>
    rw [leavesAfter, ih fun g hg => h g (.tail _ hg), h f (.head _)]
    rfl

/-- The first leaf after a way is the first one after the innermost place with something after it. -/
theorem Shut.head?_leavesAfter {outer inner : List Passage} {f : Passage} {n : Node} (h : Shut inner)
    (hf : ((Node.descendantsAll f.after).filter fun n => n.location?.isSome).head? = some n) :
    (leavesAfter (outer ++ f :: inner)).head? = some n := by
  rw [leavesAfter_append, leavesAfter, h.leavesAfter_eq, List.nil_append, List.head?_append, hf]
  rfl

end Passage

namespace Node

/-- The way from a node down to one of its descendants, the outermost passage first. -/
inductive Way : Node → List Passage → Node → Prop
  | here (n : Node) : Way n [] n
  | child {k : Kind} {before after : List Node} {m : Node} {t : Trivia} {fs : List Passage} {e : Node} :
      Way m fs e → Way (branch k (before ++ m :: after) t) (⟨k, before, after⟩ :: fs) e

theorem way_leaf {k : Kind} {c : Leaf} {l : Location} {t : Trivia} {fs : List Passage} {e : Node}
    (h : (leaf k c l t).Way fs e) : fs = [] ∧ e = leaf k c l t := by
  cases h
  exact ⟨rfl, rfl⟩

/-- A way into a branch ends there or goes on into one of its children. -/
theorem way_branch {k : Kind} {cs : List Node} {t : Trivia} {fs : List Passage} {e : Node}
    (h : (branch k cs t).Way fs e) : (fs = [] ∧ e = branch k cs t) ∨
      ∃ before m after gs, cs = before ++ m :: after ∧ fs = ⟨k, before, after⟩ :: gs ∧ m.Way gs e := by
  cases h with
  | here => exact .inl ⟨rfl, rfl⟩
  | @child _ before after m _ gs _ hm => exact .inr ⟨before, m, after, gs, rfl, rfl, hm⟩

mutual

/-- There is a way to every descendant. -/
theorem exists_way : ∀ {n e : Node}, e ∈ n.descendants → ∃ fs, n.Way fs e
  | leaf k c l t, e, h => by
    obtain rfl : e = leaf k c l t := by simpa [descendants] using h
    exact ⟨[], .here _⟩
  | branch k cs t, e, h => by
    rw [descendants, List.mem_cons] at h
    rcases h with rfl | h
    · exact ⟨[], .here _⟩
    · obtain ⟨before, m, after, fs, rfl, hm⟩ := exists_wayAll h
      exact ⟨_, .child hm⟩

/-- There is a way to every node below. -/
theorem exists_wayAll : ∀ {ns : List Node} {e : Node}, e ∈ descendantsAll ns →
    ∃ before m after fs, ns = before ++ m :: after ∧ m.Way fs e
  | [], e, h => by simp [descendantsAll] at h
  | n :: ns, e, h => by
    rw [descendantsAll, List.mem_append] at h
    rcases h with h | h
    · obtain ⟨fs, hn⟩ := exists_way h
      exact ⟨[], n, ns, fs, rfl, hn⟩
    · obtain ⟨before, m, after, fs, rfl, hm⟩ := exists_wayAll h
      exact ⟨n :: before, m, after, fs, rfl, hm⟩

end

/-! ## How an element ends without its end tag -/

/-- The node is an element of the name with content other than raw text, and does not end with an
end tag of its own. -/
structure Unended (n : Node) (name : Text) : Prop where
  takesEnd : n.TakesEnd name
  markup : Html.isRawText name = false
  unended : ∀ tag, n.children.getLast? = some tag → ¬ tag.IsEndOf name

instance (n : Node) (name : Text) : Decidable (n.IsEndOf name) :=
  decidable_of_iff (n.kind = .htmlEndTag ∧ n.tagName?.any (·.sameLetters name) = true)
    (and_congr_right fun _ => Option.any_eq_true _ _)

instance (n : Node) (name : Text) : Decidable (n.TakesEnd name) :=
  decidable_of_iff (n.kind.isElement = true ∧ n.tagName? = some name ∧
      (n.child? .htmlStartTag).any closesOpen = true ∧ Html.isVoid name = false)
    ⟨fun ⟨hk, hname, hclosed, hvoid⟩ => ⟨hk, hname, (Option.any_eq_true _ _).1 hclosed, hvoid⟩,
      fun h => ⟨h.element, h.tagName, (Option.any_eq_true _ _).2 h.closed, h.content⟩⟩

instance (n : Node) (name : Text) : Decidable (n.Unended name) :=
  decidable_of_iff (n.TakesEnd name ∧ Html.isRawText name = false ∧
      ∀ tag ∈ n.children.getLast?, ¬ tag.IsEndOf name)
    ⟨fun ⟨htakes, hraw, hlast⟩ => ⟨htakes, hraw, hlast⟩, fun h => ⟨h.takesEnd, h.markup, h.unended⟩⟩

theorem Unended.isElement_ne {n : Node} {name : Text} (h : n.Unended name) : ¬ n.kind.isElement = false := by
  rw [h.takesEnd.element]; decide

/-- The node is an end tag of the name that starts with its bracket. -/
structure EndTagOf (name : Text) (n : Node) : Prop where
  isEnd : n.IsEndOf name
  bracket : ∃ l t cs, n.children = leaf .bracket (.token ['<', '/']) l t :: cs

/-- The node reaches the end of the text. -/
def ReachesEnd (t : Text) (n : Node) : Prop :=
  n.pieces.getLast?.map (fun p => p.location.stop) = some (t.positionAt t.length)

end Node

namespace Passage

/-- What follows the end of the way is the end tag of an element on it. -/
def Closed (fs : List Passage) : Prop :=
  ∃ outer f inner name tag, fs = outer ++ f :: inner ∧ Shut inner ∧ f.kind.isElement = true ∧
    f.tagName? = some name ∧ f.after = [tag] ∧ tag.EndTagOf name

/-- Some nodes start with a piece of code that reads an end tag of the name as code. -/
def ReadsAsCode (t : Text) (name : Text) (ns : List Node) : Prop :=
  ∃ code l more, ns = Node.leaf .codeValue (.token code) l {} :: more ∧ code.startsWith ['<', '/'] = true ∧
    Text.endTagName? (t.drop l.start.offset) = some name

/-- Some nodes start with a piece of code that reads an end tag of one of the names as code. -/
def Spills (t : Text) (S : List Text) (ns : List Node) : Prop :=
  ∃ other, ReadsAsCode t other ns ∧ other.lower ∈ S

/-- What has spilled stays so when nodes follow. -/
theorem Spills.concat {t : Text} {S : List Text} {ns : List Node} (h : Spills t S ns) (n : Node) :
    Spills t S (ns ++ [n]) := by
  obtain ⟨other, ⟨code, l, more, rfl, hcode⟩, hmem⟩ := h
  exact ⟨other, ⟨code, l, more ++ [n], rfl, hcode⟩, hmem⟩

/-- What follows the end of the way is code that reads an end tag as code. The end tag is that of an
element on the way, or of one of the names in `S`. -/
def Spilled (t : Text) (S : List Text) (fs : List Passage) : Prop :=
  ∃ outer f inner other, fs = outer ++ f :: inner ∧ Shut inner ∧ (f.kind = .codeBlock ∨ f.kind = .codeBrace) ∧
    ReadsAsCode t other f.after ∧
    (other.lower ∈ S ∨ ∃ g ∈ outer, g.kind.isElement = true ∧ ∃ name, g.tagName? = some name ∧
      other.sameLetters name = true)

/-- The element at the end of the way has ended for a reason that can be seen in the tree. -/
def Ended (t : Text) (S : List Text) (fs : List Passage) (e : Node) : Prop :=
  e.ReachesEnd t ∨ Closed fs ∨ Spilled t S fs

variable {t : Text} {S : List Text} {fs : List Passage} {e : Node} {f : Passage}

/-- What ends on a way ends on a longer one, too. -/
theorem Ended.cons (h : Ended t S fs e) (f : Passage) : Ended t S (f :: fs) e := by
  obtain h | ⟨outer, g, inner, name, tag, rfl, hg⟩ | ⟨outer, g, inner, other, rfl, hshut, hkind, hcode, hname⟩ := h
  · exact .inl h
  · exact .inr (.inl ⟨f :: outer, g, inner, name, tag, rfl, hg⟩)
  · refine .inr (.inr ⟨f :: outer, g, inner, other, rfl, hshut, hkind, hcode, hname.imp_right ?_⟩)
    rintro ⟨g', hmem, hg'⟩
    exact ⟨g', .tail _ hmem, hg'⟩

/-- An element on the way is one of those that may end. -/
theorem Ended.element {name : Text} (h : Ended t (name.lower :: S) fs e) (hf : f.kind.isElement = true)
    (hname : f.tagName? = some name) : Ended t S (f :: fs) e := by
  obtain h | h | ⟨outer, g, inner, other, rfl, hshut, hkind, hcode, hother | hother⟩ := h
  · exact .inl h
  · exact Ended.cons (.inr (.inl h)) f
  · rcases List.mem_cons.1 hother with hsame | hother
    · -- the end tag is that of the element which is now on the way itself
      have hf : ∃ g ∈ f :: outer, g.kind.isElement = true ∧ ∃ name, g.tagName? = some name ∧
          other.sameLetters name = true := ⟨f, .head _, hf, name, hname, Text.sameLetters_iff.2 hsame⟩
      exact .inr (.inr ⟨f :: outer, g, inner, other, rfl, hshut, hkind, hcode, .inr hf⟩)
    · exact Ended.cons (.inr (.inr ⟨outer, g, inner, other, rfl, hshut, hkind, hcode, .inl hother⟩)) f
  · exact Ended.cons (.inr (.inr ⟨outer, g, inner, other, rfl, hshut, hkind, hcode, .inr hother⟩)) f

/-- The first leaf after the way is the bracket of an end tag, with which an element of the same
name on the way ends. -/
def AtEndTag (fs : List Passage) : Prop :=
  ∃ outer f inner name tag l tv, fs = outer ++ f :: inner ∧ f.kind.isElement = true ∧ f.tagName? = some name ∧
    f.after = [tag] ∧ tag.IsEndOf name ∧ tag.children.head? = some (.leaf .bracket (.token ['<', '/']) l tv) ∧
    (leavesAfter fs).head? = some (.leaf .bracket (.token ['<', '/']) l tv)

/-- The first leaf after the way is code in a block or brace on the way. It starts with an end tag of
an element around that block or brace. -/
def AtCode (t : Text) (fs : List Passage) : Prop :=
  ∃ outer f inner code l, fs = outer ++ f :: inner ∧ (f.kind = .codeBlock ∨ f.kind = .codeBrace) ∧
    f.after.head? = some (.leaf .codeValue (.token code) l {}) ∧
    (leavesAfter fs).head? = some (.leaf .codeValue (.token code) l {}) ∧ code.startsWith ['<', '/'] = true ∧
    ∃ g ∈ outer, g.kind.isElement = true ∧ ∃ name other, g.tagName? = some name ∧
      Text.endTagName? (t.drop l.start.offset) = some other ∧ other.sameLetters name = true

/-- A closed way leads to an end tag. -/
theorem Closed.atEndTag (h : Closed fs) : AtEndTag fs := by
  obtain ⟨outer, f, inner, name, tag, rfl, hshut, hkind, hname, hafter, htag, l, tv, cs, hcs⟩ := h
  refine ⟨outer, f, inner, name, tag, l, tv, rfl, hkind, hname, hafter, htag, by rw [hcs]; rfl, ?_⟩
  refine hshut.head?_leavesAfter ?_
  cases tag with
  | leaf => cases hcs
  | branch k ns tv' =>
    obtain rfl : ns = _ := hcs
    simp [hafter, Node.descendantsAll, Node.descendants, Node.location?]

theorem Spilled.atCode (h : Spilled t [] fs) : AtCode t fs := by
  obtain ⟨outer, f, inner, other, rfl, hshut, hkind, ⟨code, l, more, hafter, hstart, hother⟩, hname⟩ := h
  obtain ⟨g, hg, hgkind, name, hname, hsame⟩ := hname.resolve_left List.not_mem_nil
  refine ⟨outer, f, inner, code, l, rfl, hkind, by rw [hafter]; rfl, ?_, hstart, g, hg, hgkind, name, other, hname,
    hother, hsame⟩
  refine hshut.head?_leavesAfter ?_
  simp [hafter, Node.descendantsAll, Node.descendants, Node.location?]

end Passage

open Passage

namespace Node

variable {t : Text} {S : List Text} {tr : Char}

/-- All elements in the node have ended for a reason that can be seen in it. -/
def Resolved (t : Text) (S : List Text) (n : Node) : Prop :=
  ∀ fs e name, n.Way fs e → e.Unended name → Ended t S fs e

/-- The node is no element, and all elements in it have ended for a reason. -/
structure Enclosed (t : Text) (S : List Text) (n : Node) : Prop where
  resolved : n.Resolved t S
  kind : n.kind.isElement = false

theorem enclosed_leaf {k : Kind} {c : Leaf} {l : Location} {tv : Trivia} (hk : k.isElement = false) :
    (leaf k c l tv).Enclosed t S := by
  refine ⟨fun fs e name hway he => ?_, hk⟩
  obtain ⟨-, rfl⟩ := way_leaf hway
  exact absurd hk he.isElement_ne

/-- What holds resolved nodes is resolved, unless it is an element that has not ended itself. -/
theorem resolved_branch {k : Kind} {cs : List Node} {tv : Trivia} (hcs : ∀ n ∈ cs, n.Resolved t S)
    (hself : ∀ name, ¬ (branch k cs tv).Unended name) : (branch k cs tv).Resolved t S := by
  intro fs e name hway he
  obtain ⟨-, rfl⟩ | ⟨before, m, after, gs, rfl, rfl, hm⟩ := way_branch hway
  · exact absurd he (hself name)
  · exact (hcs m (by simp) gs e name hm he).cons _

/-- A branch that is no element encloses what its children resolve. -/
theorem enclosed_branch {k : Kind} {cs : List Node} {tv : Trivia} (hk : k.isElement = false)
    (h : ∀ n ∈ cs, n.Resolved t S) : (branch k cs tv).Enclosed t S :=
  ⟨resolved_branch h fun _ he => he.isElement_ne hk, hk⟩

/-- A node without code has no elements in it. -/
theorem Closed.enclosed {n : Node} (h : n.Closed) : n.Enclosed t S := by
  induction h with
  | leaf c l tv hk => exact enclosed_leaf (by revert hk; cases ‹Kind› <;> decide)
  | group tv hk _ ih =>
    refine enclosed_branch ?_ fun m hm => (ih m hm).resolved
    revert hk; cases ‹Kind› <;> simp [Kind.isGroup, Kind.isElement]

theorem Enclosed.withLead {n : Node} (h : n.Enclosed t S) (l : Option Location) : (n.withLead l).Enclosed t S := by
  cases n with
  | leaf k c l' tv => exact enclosed_leaf h.kind
  | branch k cs tv =>
    refine ⟨fun fs e name hway he => ?_, h.kind⟩
    obtain ⟨-, rfl⟩ | ⟨before, m, after, gs, rfl, rfl, hm⟩ := way_branch hway
    · exact absurd h.kind he.isElement_ne
    · exact h.resolved _ e name (.child hm) he

/-- All elements in the nodes have ended for a reason that can be seen in their node, or at the end
of it, with `P` of the nodes that follow it. -/
def EndedOr (t : Text) (S : List Text) (P : List Node → Prop) (ns : List Node) : Prop :=
  ∀ before m after, ns = before ++ m :: after → ∀ fs e name, m.Way fs e → e.Unended name →
    Ended t S fs e ∨ Shut fs ∧ P after

variable {P Q : List Node → Prop} {ns : List Node}

theorem endedOr_nil : EndedOr t S P [] := by
  intro before m after h
  simp at h

/-- What holds of the nodes behind an element may be weakened. -/
theorem EndedOr.imp (h : EndedOr t S P ns) (hPQ : ∀ after, P after → Q after) : EndedOr t S Q ns :=
  fun before m after hns fs e name hway he =>
    (h before m after hns fs e name hway he).imp_right fun h => ⟨h.1, hPQ _ h.2⟩

/-- Nodes in front do not matter. -/
theorem EndedOr.cons {n : Node} (hn : n.Resolved t S) (h : EndedOr t S P ns) : EndedOr t S P (n :: ns) := by
  intro before m after hns fs e name hway he
  cases before with
  | nil =>
    obtain ⟨rfl, rfl⟩ := List.cons.inj hns
    exact .inl (hn fs e name hway he)
  | cons _ before => exact h before m after (List.cons.inj hns).2 fs e name hway he

/-- One node more: it ends the elements before it, or they stay open behind it. -/
theorem EndedOr.concat {n : Node} (h : EndedOr t S P ns) (hPQ : ∀ after, P after → Q (after ++ [n]))
    (hn : ∀ fs e name, n.Way fs e → e.Unended name → Ended t S fs e ∨ Shut fs ∧ Q []) :
    EndedOr t S Q (ns ++ [n]) := by
  intro before m after hns fs e name hway he
  -- the node is the new one, or the new one is the last after it
  obtain rfl | ⟨after, last, rfl⟩ := List.eq_nil_or_concat after
  · obtain ⟨-, rfl⟩ := List.append_singleton_inj.1 hns
    exact hn fs e name hway he
  · rw [List.concat_eq_append, ← List.cons_append, ← List.append_assoc] at hns
    obtain ⟨rfl, rfl⟩ := List.append_singleton_inj.1 hns
    rw [List.concat_eq_append]
    exact (h before m after rfl fs e name hway he).imp_right fun h => ⟨h.1, hPQ _ h.2⟩

/-- What has spilled into a body is seen in the block or brace around it. -/
theorem enclosed_body {k : Kind} {ns : List Node} (hk : k = .codeBlock ∨ k = .codeBrace)
    (hns : EndedOr t S (Spills t S) ns) : (ofChildren k ns).Enclosed t S := by
  have hkind : k.isElement = false := by obtain rfl | rfl := hk <;> rfl
  refine ⟨fun fs e name hway he => ?_, hkind⟩
  obtain ⟨-, rfl⟩ | ⟨before, m, after, gs, rfl, rfl, hm⟩ := way_branch hway
  · exact absurd hkind he.isElement_ne
  obtain hended | ⟨hshut, other, hcode, hmem⟩ := hns before m after rfl gs e name hm he
  · exact hended.cons _
  · exact .inr (.inr ⟨[], _, gs, other, rfl, hshut, hk, hcode, .inl hmem⟩)

/-! ## Where a node stops -/

/-- Blanks stand only before nodes that start with a leaf. -/
theorem Shaped.piecesAll_ne_nil {k : Kind} {cs : List Node} {tv : Trivia} (h : (branch k cs tv).Shaped tr)
    (hk : k.takesBlanks = true) : piecesAll cs ≠ [] := by
  have hhead : ∃ rest, cs.map kind = .transition :: rest := by
    have hholds := h.1
    revert hholds hk
    cases k <;> simp +contextual [Kind.Holds, Kind.takesBlanks, Kind.isEmbedded]
  obtain ⟨rest, hrest⟩ := hhead
  obtain ⟨n, ns, rfl, hn, -⟩ := List.map_eq_cons_iff.1 hrest
  have hshaped := h.2.2.2.1
  cases n with
  | leaf => simp [pieces]
  | branch k' =>
    simp only [kind] at hn
    subst hn
    exact hshaped.1.elim

mutual

/-- A node stops where its last piece does. -/
theorem Shaped.fullStop?_eq : ∀ {n : Node}, n.Shaped tr →
    n.fullStop? = n.pieces.getLast?.map fun p => p.location.stop
  | leaf k v l ⟨lead, trail⟩, _ => by
    cases trail <;> simp [fullStop?, pieces]
  | branch k cs ⟨lead, some l⟩, _ => by simp [fullStop?, pieces]
  | branch k cs ⟨none, none⟩, h => by
    simpa [fullStop?, pieces] using lastStop?_eq h.2.2.2
  | branch k cs ⟨some l, none⟩, h => by
    -- the blanks before the node are not its last piece
    have hne := h.piecesAll_ne_nil (h.2.1.resolve_left (by simp))
    rw [fullStop?, lastStop?_eq h.2.2.2, pieces, blankPieces_none, List.append_nil,
      List.getLast?_append_of_ne_nil _ hne]

/-- The last node stops where its last piece does. -/
theorem lastStop?_eq : ∀ {ns : List Node}, ShapedAll tr ns →
    lastStop? ns = (piecesAll ns).getLast?.map fun p => p.location.stop
  | [], _ => rfl
  | n :: ns, h => by
    rw [lastStop?, lastStop?_eq h.2, h.1.fullStop?_eq, piecesAll_cons, List.getLast?_append]
    cases (piecesAll ns).getLast? <;> rfl

end

end Node

end Stencil

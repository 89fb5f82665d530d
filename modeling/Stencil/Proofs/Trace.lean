import Mathlib.Data.Int.Notation
import Stencil.Proofs.Cursor
import Stencil.Proofs.Shape
import Stencil.Proofs.TextRuns

/-!
# Traces of a run

The grammar is some forty parsers, but what they do comes down to a few steps: they read a token,
report something, put nodes together, open elements and close them. A trace is made of such steps.
Every parser leaves one behind, so that what holds of all runs is proved once for each step, by
induction over the trace, and not once for each parser.

`Trace loose c ns w d`: a run from the context `c` to the context `d` has built the nodes `ns`. With
all nodes below them they are at most `w` more than the characters that were read pay for, at six
nodes for each. The trace is loose inside of an attribute value, where any text may stand.

* `Context.SilentStep`, `Context.LeafStep`: the steps that leave no node behind, and those that give a
  leaf.
* `Trace`: the steps that put nodes together.
* `Trace.reads`: **a trace loses nothing of what it reads**, and `Trace.size`: it keeps its account of
  the nodes.
-/

namespace Stencil

/-! ## Kinds and reports -/

namespace Kind

/-- Text between tags. -/
def isText : Kind → Bool
  | literal | trivia => true
  | _ => false

/-- Names in tags. -/
def isName : Kind → Bool
  | htmlTagName | attributeName => true
  | _ => false

/-- Leaves that are read as they stand and of which no more is asked. -/
def isToken : Kind → Bool
  | brace | bracket | equals | quote | commentStart | commentContent | cdataStart | cdataContent
  | htmlTagName | attributeName | rawText | codeValue => true
  | _ => false

/-- Branches that are made of nodes of any trace. -/
def isFrame : Kind → Bool
  | document | htmlStartTag | htmlAttributes | htmlAttribute | codeExpression | codeBlock | codeBrace => true
  | _ => false

end Kind

namespace Code

/-- The kind of the token whose absence is reported. -/
def missing? : Code → Option Kind
  | expectedBrace => some .brace
  | expectedBracket => some .bracket
  | expectedEquals => some .equals
  | expectedQuote | unterminatedAttribute => some .quote
  | expectedTagName => some .htmlTagName
  | expectedAttributeName => some .attributeName
  | unterminatedComment => some .commentEnd
  | unterminatedCData => some .cdataEnd
  | _ => none

/-- Only tokens that can be missing are reported as missing. -/
theorem canMiss_of_missing? {x : Code} {k : Kind} (h : x.missing? = some k) : k.canMiss = true := by
  cases x <;> cases h <;> rfl

/-- A region without code has no end. -/
def isUnterminated : Code → Bool
  | unterminatedComment | unterminatedCData | unterminatedDoctype | unterminatedRawText => true
  | _ => false

end Code

namespace Context

/-! ## Places in the text -/

/-- No transition stands at the next `n` characters, so that they can be read as text. -/
def Free (c : Context) (n : ℕ) : Prop :=
  ∀ i < n, (c.read i).2.atTransition = false

/-- Content text cannot go on at the cursor. -/
def AtStop (c : Context) : Prop :=
  c.rest = [] ∨ Parse.stopsText c.transition c.previous? c.rest = true

/-- Reports a problem at a place if it is one. -/
def reportIf (c : Context) (b : Prop) [Decidable b] (p : Problem) (l : Location) : Context :=
  if b then c.report (p.located l) else c

/-! ## Steps without nodes of their own -/

/-- A step that leaves no node behind. -/
inductive SilentStep : Context → Context → Prop
  | tooDeep (c : Context) : SilentStep c c.reportTooDeep
  /-- Reading where there is nothing to read. -/
  | skip {c : Context} (n : ℕ) : c.rest.take n = [] → SilentStep c (c.read n).2
  | close (c : Context) (base : ℕ) : SilentStep c (Parse.closeFlattened base c).2
  | cutOff (c : Context) (u : Unclosed) :
      SilentStep c (c.report ((Problem.unexpectedEnd u).located (.empty c.pos)))

/-- The context after a declaration that stands at `l`. -/
def declared (c : Context) (known : Bool) (l : Location) : Context :=
  (c.reportIf (l.text.getLast? ≠ some '>') .unterminatedDoctype l).reportIf (known = false) .unknownDeclaration l

/-- The blanks at the end of a run of text, if there are any. -/
def trailing (p : Position) (t : Text) : Option Location :=
  if t = [] then none else some (.ofText p t)

/-- A step that gives a leaf, which is at most `w` more than what was read pays for. -/
inductive LeafStep : Context → Node → ℤ → Context → Prop
  | token {c : Context} {k : Kind} (n : ℕ) : k.isToken = true →
      (k.isName = true → ∀ x ∈ c.rest.take n, Text.isBlank x = false) →
      LeafStep c (.token k (.ofText c.pos (c.rest.take n))) (1 - 6 * (c.rest.take n).length) (c.read n).2
  /-- A token that is not found is reported where it stands in the tree. -/
  | absent {c : Context} {k : Kind} {p : Problem} : p.code.missing? = some k → p.code.isUnterminated = false →
      LeafStep c (.missing k c.pos) 1 (c.report (p.located (.empty c.pos)))
  /-- The sign of an attribute, with the blanks on both sides. -/
  | sign {c e : Context} {lead trail : Option Location} (d : Context) : Parse.blanks c = (lead, d) →
      d.rest ≠ [] → Parse.blanks (d.read 1).2 = (trail, e) →
      LeafStep c ((Node.token .equals (.ofText d.pos (d.rest.take 1))).withTrivia ⟨lead, trail⟩) (-5) e
  | marker {c : Context} : c.rest ≠ [] → c.atTransition = true →
      LeafStep c (.marker .transition (.ofText c.pos (c.rest.take 1))) (-5) (c.read 1).2
  | escaped {c : Context} : c.rest ≠ [] → c.atTransition = true → c.peek = c.transition →
      LeafStep c (.leaf .escapedTransition (.token [c.transition]) (.ofText c.pos (c.rest.take 2)) {}) (-5)
        (c.read 2).2
  /-- A transition that introduces nothing is reported where it stands. -/
  | invalid {c : Context} : c.rest ≠ [] → c.atTransition = true →
      LeafStep c (.token .literal (.ofText c.pos (c.rest.take 1))) (-5)
        ((c.read 1).2.report ((Problem.invalidTransition c.transition).located (.ofText c.pos (c.rest.take 1))))
  /-- A declaration goes through the first `>`. -/
  | declaration {c : Context} (n : ℕ) (known : Bool) : c.rest.startsWith ['<', '!'] = true →
      n = c.rest.runLength (fun _ t => t.ahead 0 == '>') none →
      LeafStep c (.token .doctype (.ofText c.pos (c.rest.take (n + 1)))) (-5)
        ((c.read (n + 1)).2.declared known (.ofText c.pos (c.rest.take (n + 1))))
  /-- Content text without the blanks on both sides. It is read from where text goes on up to where it
  has to stop. -/
  | literal {c : Context} {u v : Text} {lead : Option Location} (d : Context) (n : ℕ) :
      Parse.blanks c = (lead, d) → ¬ c.AtStop → d.Free n → (d.read n).2.AtStop →
      d.rest.take n = u ++ v → u.Trimmed → v.allBlank = true →
      LeafStep c ((Node.token .literal (.ofText d.pos u)).withTrivia ⟨lead, trailing (d.pos.after u) v⟩) (-5)
        (d.read n).2
  /-- Content text of blanks alone. -/
  | blank {c d : Context} {l : Location} : Parse.blanks c = (some l, d) → ¬ c.AtStop → d.AtStop →
      LeafStep c (.token .trivia l) (-5) d

/-! ## What holds of a tag -/

/-- The nodes are the tokens of the end tag at the cursor. -/
structure EndTag (c : Context) (cs : List Node) : Prop where
  kinds : cs.map Node.kind = [.bracket, .htmlTagName, .bracket]
  name : (c.rest.drop 2).takeWhile Html.isNameChar ≠ [] →
    (Node.ofChildren .htmlEndTag cs).tagName? = some ((c.rest.drop 2).takeWhile Html.isNameChar)
  bracket : ∃ ns, cs = .token .bracket (.ofText c.pos (c.rest.take 2)) :: ns

/-- An end tag starts at the cursor. -/
theorem EndTag.start {c : Context} {cs : List Node} (h : c.EndTag cs) :
    (Node.ofChildren .htmlEndTag cs).fullStart? = some c.pos := by
  obtain ⟨ns, rfl⟩ := h.bracket
  rfl

/-- Inside of an element. Raw text is not kept among the open elements. -/
def entered (c : Context) (name : Text) : Context :=
  if Html.isRawText name then c else c.pushElement name

/-- Past the end of an element. -/
def left (c : Context) (name : Text) : Context :=
  if Html.isRawText name then c else c.popElement

/-- The report of an element that has no end tag. -/
inductive Unended (c : Context) (o : Opening) (name : Text) : Problem → Location → Prop
  | content : Html.isRawText name = false → Unended c o name (.missingEndTag name) (o.place.getD (.empty c.pos))
  | raw : Html.isRawText name = true → c.rest = [] → Unended c o name (.unterminatedRawText name) (.empty c.pos)

end Context

/-- The report of an end tag that closes nothing. -/
inductive Node.Orphan (tag : Node) : Problem → Prop
  | void {name : Text} : tag.tagName? = some name → Html.isVoid name = true → Orphan tag (.voidElementEndTag name)
  | mismatched (name opened : Text) : Orphan tag (.mismatchedEndTag name opened)
  | unexpected (name : Text) : Orphan tag (.unexpectedEndTag name)

namespace Parse

open Context Node

/-- The start tag, which was read up to the context `d`, shows in the tree what the opening says. -/
structure Shows (o : Opening) (d : Context) : Prop where
  kind : o.tag.kind = .htmlStartTag
  name : (o.tag.child? .htmlTagName).bind value? = o.name
  closed : o.tag.children.getLast?.bind value? = some ['>'] ↔ o.closed = true
  nonempty : ∀ name, o.name = some name → name ≠ []
  nameChars : ∀ name, o.name = some name → ∀ x ∈ name, Html.isNameChar x = true
  unnamed : o.name = none → ∃ n ∈ o.tag.children, n.isMissing = true
  placed : ∀ name, o.name = some name → ∃ l, o.place = some l ∧ l.text = name
  place : ∀ l, o.place = some l → ∃ n ∈ o.tag.children, n.kind = .htmlTagName ∧ n.location? = some l
  stops : o.tag.fullStop? = some d.pos

/-- A start tag of which neither the name nor the bracket is there. -/
theorem Shows.of_nameless {tag : Node} {d : Context} (hkind : tag.kind = .htmlStartTag)
    (hname : (tag.child? .htmlTagName).bind value? = none)
    (hclosed : tag.children.getLast?.bind value? ≠ some ['>']) (hmissing : ∃ n ∈ tag.children, n.isMissing = true)
    (hstops : tag.fullStop? = some d.pos) : Shows ⟨tag, none, none, false⟩ d := by
  refine ⟨hkind, hname, by simpa using hclosed, ?_, ?_, fun _ => hmissing, ?_, ?_, hstops⟩ <;> simp

/-- How a region without code stops if `y` is left of the text: with its terminator, or with the
text. -/
inductive Region.Stops (R : Region) (y : Text) (d : Context) : Node → Context → Prop
  | missing : y = [] → Stops R y d (.missing R.stopKind d.pos) (d.report (R.unterminated.located (.empty d.pos)))
  | token : y ≠ [] → d.rest.take R.stop.length = R.stop →
      Stops R y d (.token R.stopKind (.ofText d.pos R.stop)) (d.read R.stop.length).2

/-- Raw text from `d` to `e`. In a script, code stands in it and nothing else is taken for text; in a
style, it is one piece up to the end tag. -/
structure RawText (name : Text) (d : Context) (ns : List Node) (e : Context) : Prop where
  kinds : ∀ n ∈ ns, n.kind.isEmbedded = true ∨ n.kind = .rawText
  script : Html.isScript name = true → ∀ n ∈ ns, n.kind = .rawText →
    ∃ t c m, d.Moved t c ∧ c.Free m ∧ n = .token .rawText (.ofText c.pos (c.rest.take m))
  style : Html.isScript name = false → ∃ x y, d.rest = x ++ y ∧ Text.UpTo (endsRawText name · = true) x y ∧
    d.Moved x e ∧ ns = if x = [] then [] else [.token .rawText (.ofText d.pos x)]

/-- What stands between the two tags of an element. -/
inductive Inside (name : Text) (d : Context) (ns : List Node) (e : Context) : Prop
  | content : Html.isRawText name = false → (∀ n ∈ ns, n.kind.isContent = true) → Inside name d ns e
  | raw : Html.isRawText name = true → RawText name d ns e → Inside name d ns e

/-- The nodes can be put together to one of the kind. -/
structure Frames (k : Kind) (ns : List Node) : Prop where
  frame : k.isFrame = true
  holds : k.Holds (ns.map Node.kind)
  brace : k = .codeBrace → ∀ n ∈ ns.head?, n.isMissing = false
  stop : ∀ j t, k.stop? = some (j, t) →
    ∃ n, ns.getLast? = some n ∧ (n.isMissing = true ∨ ∃ l, n = .token j l ∧ l.text = t)

end Parse

/-! ## Traces -/

open Parse in
/-- What a parser of the grammar does. -/
inductive Trace : Bool → Context → List Node → ℤ → Context → Prop
  | nil {b : Bool} (c : Context) : Trace b c [] 0 c
  | append {b : Bool} {c d e : Context} {ns ms : List Node} {v w : ℤ} :
      Trace b c ns v d → Trace b d ms w e → Trace b c (ns ++ ms) (v + w) e
  | le {b : Bool} {c d : Context} {ns : List Node} {v w : ℤ} : Trace b c ns v d → v ≤ w → Trace b c ns w d
  | loosen {c d : Context} {ns : List Node} {w : ℤ} : Trace false c ns w d → Trace true c ns w d
  /-- Any text, in an attribute value. -/
  | text {c : Context} (n : ℕ) : c.rest.take n ≠ [] → c.Free n →
      Trace true c [.token .literal (.ofText c.pos (c.rest.take n))] (-5) (c.read n).2
  | silent {c d : Context} : c.SilentStep d → Trace false c [] 0 d
  | leaf {c d : Context} {n : Node} {w : ℤ} : c.LeafStep n w d → Trace false c [n] w d
  /-- The blanks before a node. -/
  | lead {c d e : Context} {n : Node} {l : Option Location} {w : ℤ} : blanks c = (l, d) →
      Trace false d [n] w e → n.trivia = {} → n.kind.takesBlanks = true → Trace false c [n.withLead l] w e
  | frame {c d : Context} {k : Kind} {ns : List Node} {w : ℤ} : Trace false c ns w d → Frames k ns →
      Trace false c [.ofChildren k ns] (w + 1) d
  | value {c d : Context} {ns : List Node} {w : ℤ} : Trace true c ns w d →
      (∀ n ∈ ns, n.kind.isEmbedded = true) → Trace false c [.ofChildren .attributeValue ns] (w + 1) d
  /-- An attribute whose name was seen before is reported at its name. -/
  | repeated {c d : Context} {n name : Node} {v : Text} {l : Location} {w : ℤ} : Trace false c [n] w d →
      n.kind = .htmlAttribute → name ∈ n.children → name.kind = .attributeName → name.location? = some l →
      Trace false c [n] w (d.report ((Problem.duplicateAttribute v).located l))
  | region {c d e : Context} {R : Region} {x y : Text} {stop : Node} {w : ℤ} :
      R = commentRegion ∨ R = cdataRegion → c.rest = R.start ++ (x ++ y) → Text.UpTo (R.stop <+: ·) x y →
      c.Moved (R.start ++ x) d → Trace false c [.token R.startKind (.ofText c.pos R.start),
        .token R.contentKind (.ofText (c.pos.after R.start) x)] w d → R.Stops y d stop e →
      Trace false c [.ofChildren R.kind [.token R.startKind (.ofText c.pos R.start),
        .token R.contentKind (.ofText (c.pos.after R.start) x), stop]] (w + 2) e
  /-- An end tag that closes nothing is reported at its name. -/
  | orphan {c d : Context} {cs : List Node} {p : Problem} {w : ℤ} : Trace false c cs w d → c.EndTag cs →
      (Node.ofChildren .htmlEndTag cs).Orphan p → Trace false c [.ofChildren .htmlEndTag cs] (w + 1)
        (d.report (p.located ((((Node.ofChildren .htmlEndTag cs).child? .htmlTagName).bind
          Node.location?).getD (.empty d.pos))))
  /-- The end tag of a flattened element closes it, and reports those inside of it. -/
  | flattenedEnd {c d : Context} {cs : List Node} {name : Text} {base i : ℕ} {w : ℤ} :
      c.rest.endTagName? = some name → c.findFlattened? name base = some i →
      Trace false ((closeFlattened (i + 1) c).2.truncateFlattened i) cs w d →
      ((closeFlattened (i + 1) c).2.truncateFlattened i).EndTag cs →
      Trace false c [.ofChildren .htmlEndTag cs] (w + 1) d
  /-- An element without content. -/
  | empty {c d : Context} {o : Opening} {w : ℤ} : Trace false c [o.tag] w d → Shows o d → o.contentName? = none →
      Trace false c [.ofChildren o.kind [o.tag]] (w + 1) d
  /-- An element with its end tag. -/
  | ended {c d e g : Context} {o : Opening} {name : Text} {ns cs : List Node} {u v w : ℤ} :
      Trace false c [o.tag] u d → Shows o d → o.contentName? = some name →
      Trace false (d.entered name) ns v e → Inside name d ns e →
      Text.sameLetters ((e.rest.drop 2).takeWhile Html.isNameChar) name = true →
      Trace false e cs w g → e.EndTag cs →
      Trace false c [.ofChildren o.kind (o.tag :: (ns ++ [.ofChildren .htmlEndTag cs]))] (u + v + w + 2)
        (g.left name)
  /-- An element without an end tag, which is reported. -/
  | unended {c d e : Context} {o : Opening} {name : Text} {ns : List Node} {p : Problem} {l : Location} {u v : ℤ} :
      Trace false c [o.tag] u d → Shows o d → o.contentName? = some name →
      Trace false (d.entered name) ns v e → Inside name d ns e → e.Unended o name p l →
      Trace false c [.ofChildren o.kind (o.tag :: ns)] (u + v + 1) ((e.report (p.located l)).left name)
  /-- An element past the nesting limit, which stays open. -/
  | flattened {c d : Context} {o : Opening} {name : Text} {w : ℤ} : Trace false c.reportTooDeep [o.tag] w d →
      Shows o d → o.contentName? = some name → Html.isRawText name = false →
      Trace false c [.ofChildren o.kind [o.tag]] (w + 1) (d.pushFlattened name o.place)

end Stencil

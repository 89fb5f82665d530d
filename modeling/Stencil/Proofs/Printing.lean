import Mathlib.Data.Nat.Notation
import Stencil.Code.Extent
import Stencil.Html
import Stencil.Syntax.Node

/-!
# Printed templates

The well-formed templates, described without the parser. A template is made of items:
text, escaped transitions, expressions, comments, character data and elements. The
types of the parts carry the rules about their characters, so that only well-formed
items can be built; `Item.fits` says which items may stand side by side.

* `Item.print`, `Item.printAll`: the source of items.
* `Item.node`, `Item.nodesAll`: the nodes that items stand for, with their locations.
* `Item.nesting`: how deep elements are nested, with one level for each of them.
* `Document`: items that fit together.
-/

namespace Stencil.Markup

/-! ## Text and code -/

/-- Text without the characters that start other items. -/
structure PlainText where
  text : Text
  ne_nil : text ≠ []
  plain : ∀ x ∈ text, x ≠ '<' ∧ x ≠ '@'

structure Identifier where
  head : Char
  tail : Text
  start : Code.isIdentifierStart head = true
  chars : ∀ x ∈ tail, Code.isIdentifierChar x = true

def Identifier.text (i : Identifier) : Text :=
  i.head :: i.tail

/-- Identifiers that are accessed one after the other. -/
def accesses : List Identifier → Text
  | [] => []
  | i :: is => ['.'] ++ (i.text ++ accesses is)

/-- An identifier and the accesses that follow it. -/
structure Path where
  first : Identifier
  more : List Identifier

def Path.text (e : Path) : Text :=
  e.first.text ++ accesses e.more

/-- Whether an expression goes on with a character. -/
def continuesPath (x : Char) : Bool :=
  Code.isIdentifierChar x || x == '.' || x == '(' || x == '['

/-- The content of a region that ends at the first `stop`. -/
structure Enclosed (stop : Text) where
  text : Text
  free : ¬ stop <:+: text

/-! ## Tags -/

structure TagName where
  text : Text
  ne_nil : text ≠ []
  chars : ∀ x ∈ text, Html.isNameChar x = true
  head_ne : text.head? ≠ some '!'

/-- The name of an element with content that is markup. -/
structure ElementName extends TagName where
  not_void : Html.isVoid text = false
  not_raw : Html.isRawText text = false

/-- The name of an element without content. -/
structure VoidName extends TagName where
  void : Html.isVoid text = true

structure AttributeName where
  text : Text
  ne_nil : text ≠ []
  plain : ∀ x ∈ text, Text.isBlank x = false ∧ x ∉ ['>', '<', '=', '"', '\'', '/', '@']

inductive Quote where
  | single
  | double

def Quote.char : Quote → Char
  | single => '\''
  | double => '"'

structure AttributeValue where
  quote : Quote
  text : Text
  plain : ∀ x ∈ text, x ≠ quote.char ∧ x ≠ '@'

structure Attribute where
  name : AttributeName
  value : Option AttributeValue

/-- What the name of an attribute is compared by. -/
def Attribute.key (a : Attribute) : Text :=
  a.name.text.lower

/-- The attributes of a tag, whose names differ in more than case. -/
structure Attributes where
  all : List Attribute
  distinct : (all.map Attribute.key).Nodup

/-- How a start tag ends. -/
inductive TagEnd where
  | opened
  | closed

namespace TagEnd

/-- The blanks before the bracket. -/
def gap : TagEnd → Text
  | opened => []
  | closed => [' ']

def bracket : TagEnd → Text
  | opened => ['>']
  | closed => ['/', '>']

/-- Whether content may follow. -/
def isOpened : TagEnd → Bool
  | opened => true
  | closed => false

end TagEnd

/-! ## The source of a tag -/

def AttributeValue.print (v : AttributeValue) : Text :=
  [v.quote.char] ++ (v.text ++ [v.quote.char])

namespace Attribute

/-- What follows the name of an attribute. -/
def assignment (a : Attribute) : Text :=
  match a.value with
  | some v => ['='] ++ v.print
  | none => []

/-- An attribute without the blank before it. -/
def body (a : Attribute) : Text :=
  a.name.text ++ a.assignment

def print (a : Attribute) : Text :=
  [' '] ++ a.body

def printAll : List Attribute → Text
  | [] => []
  | a :: as => a.print ++ printAll as

end Attribute

namespace TagName

def startTag (n : TagName) (as : Attributes) (e : TagEnd) : Text :=
  ['<'] ++ (n.text ++ ((Attribute.printAll as.all ++ e.gap) ++ e.bracket))

def endTag (n : TagName) : Text :=
  ['<', '/'] ++ (n.text ++ ['>'])

end TagName

/-! ## The nodes of a tag -/

/-- The location of some blanks, if there are any. -/
def blankAt (p : Position) (t : Text) : Option Location :=
  if t = [] then none else some (.ofText p t)

/-- The token of a text. -/
def tokenAt (k : Kind) (p : Position) (t : Text) : Node :=
  .token k (.ofText p t)

def AttributeValue.nodes (p : Position) (v : AttributeValue) : List Node :=
  let q := p.after [v.quote.char]
  [tokenAt .quote p [v.quote.char],
    .ofChildren .attributeValue (if v.text = [] then [] else [tokenAt .literal q v.text]),
    tokenAt .quote (q.after v.text) [v.quote.char]]

namespace Attribute

def assignmentNodes (p : Position) (a : Attribute) : List Node :=
  match a.value with
  | some v => tokenAt .equals p ['='] :: v.nodes (p.after ['='])
  | none => []

/-- The node of an attribute, from the blank before it on. -/
def node (p : Position) (a : Attribute) : Node :=
  let q := p.after [' ']
  .ofChildren .htmlAttribute
    ((tokenAt .attributeName q a.name.text).withLead (some (.ofText p [' '])) ::
      a.assignmentNodes (q.after a.name.text))

def nodes (p : Position) : List Attribute → List Node
  | [] => []
  | a :: as => a.node p :: nodes (p.after a.print) as

end Attribute

namespace TagName

/-- Script and style elements have kinds of their own. -/
def kind (n : TagName) : Kind :=
  if Html.isScript n.text then .scriptTag
  else if Html.isStyle n.text then .styleTag
  else .htmlTag

def startNode (p : Position) (n : TagName) (as : Attributes) (e : TagEnd) : Node :=
  let q := p.after ['<']
  let r := q.after n.text
  let stop := r.after (Attribute.printAll as.all)
  .ofChildren .htmlStartTag
    [tokenAt .bracket p ['<'], tokenAt .htmlTagName q n.text,
      .ofChildren .htmlAttributes (Attribute.nodes r as.all),
      (tokenAt .bracket (stop.after e.gap) e.bracket).withLead (blankAt stop e.gap)]

def endNode (p : Position) (n : TagName) : Node :=
  let q := p.after ['<', '/']
  .ofChildren .htmlEndTag
    [tokenAt .bracket p ['<', '/'], tokenAt .htmlTagName q n.text,
      tokenAt .bracket (q.after n.text) ['>']]

end TagName

/-! ## Items -/

/-- A part of a template. -/
inductive Item where
  | text (t : PlainText)
  | escape
  | expression (e : Path)
  | comment (c : Enclosed ['-', '-', '>'])
  | cdata (c : Enclosed [']', ']', '>'])
  | element (name : ElementName) (attributes : Attributes) (items : List Item)
  | void (name : VoidName) (attributes : Attributes)
  | closed (name : TagName) (attributes : Attributes)

namespace Item

mutual

def print : Item → Text
  | text t => t.text
  | escape => ['@', '@']
  | expression e => ['@'] ++ e.text
  | comment c => ['<', '!', '-', '-'] ++ (c.text ++ ['-', '-', '>'])
  | cdata c => ['<', '!', '[', 'C', 'D', 'A', 'T', 'A', '['] ++ (c.text ++ [']', ']', '>'])
  | element n as is => n.startTag as .opened ++ (printAll is ++ n.endTag)
  | void n as => n.startTag as .opened
  | closed n as => n.startTag as .closed

def printAll : List Item → Text
  | [] => []
  | i :: is => i.print ++ printAll is

end

/-- The node of some text. The blanks around it are trivia, and blanks alone are a node
of trivia. -/
def textNode (p : Position) (t : Text) : Node :=
  let lead := t.takeWhile Text.isBlank
  let body : Text := t.dropWhile Text.isBlank
  let q := p.after lead
  if body = [] then tokenAt .trivia p t
  else
    (tokenAt .literal q body.trimRight).withTrivia
      ⟨blankAt p lead, blankAt (q.after body.trimRight) (body.drop body.trimRight.length)⟩

/-- The node of a region between two delimiters. -/
def regionNode (p : Position) (k first middle last : Kind) (start t stop : Text) : Node :=
  let q := p.after start
  .ofChildren k [tokenAt first p start, tokenAt middle q t, tokenAt last (q.after t) stop]

mutual

/-- The node that an item stands for, if its source starts at a position. -/
def node : Position → Item → Node
  | p, text t => textNode p t.text
  | p, escape => .leaf .escapedTransition (.token ['@']) (.ofText p ['@', '@']) {}
  | p, expression e =>
    .ofChildren .codeExpression
      [.marker .transition (.ofText p ['@']), tokenAt .codeValue (p.after ['@']) e.text]
  | p, comment c =>
    regionNode p .comment .commentStart .commentContent .commentEnd ['<', '!', '-', '-'] c.text
      ['-', '-', '>']
  | p, cdata c =>
    regionNode p .cdata .cdataStart .cdataContent .cdataEnd
      ['<', '!', '[', 'C', 'D', 'A', 'T', 'A', '['] c.text [']', ']', '>']
  | p, element n as is =>
    let q := p.after (n.startTag as .opened)
    .ofChildren .htmlTag
      (n.startNode p as .opened :: (nodesAll q is ++ [n.endNode (q.after (printAll is))]))
  | p, void n as => .ofChildren .htmlTag [n.startNode p as .opened]
  | p, closed n as => .ofChildren n.kind [n.startNode p as .closed]

def nodesAll : Position → List Item → List Node
  | _, [] => []
  | p, i :: is => i.node p :: nodesAll (p.after i.print) is

end

mutual

/-- How deep elements are nested. An element without content is a level as well. -/
def nesting : Item → ℕ
  | element _ _ is => nestingAll is + 1
  | void _ _ => 1
  | closed _ _ => 1
  | _ => 0

def nestingAll : List Item → ℕ
  | [] => 0
  | i :: is => max i.nesting (nestingAll is)

end

def isText : Item → Bool
  | text _ => true
  | _ => false

/-- Whether an item starts with a tag. -/
def isTag : Item → Bool
  | element _ _ _ => true
  | void _ _ => true
  | closed _ _ => true
  | _ => false

mutual

/-- Whether an item keeps its meaning after a character and before a text. Code starts
only where no letter or digit stands before it, and ends only where nothing continues it. -/
def fits : Option Char → Text → Item → Bool
  | previous, rest, expression _ =>
    !previous.any Char.isAlphanum && !rest.head?.any continuesPath
  | _, rest, element n _ is => fitsAll (some '>') (n.endTag ++ rest) is
  | _, _, _ => true

/-- Whether items keep their meanings one after the other. -/
def fitsAll : Option Char → Text → List Item → Bool
  | _, _, [] => true
  | previous, rest, i :: is =>
    i.fits previous (printAll is ++ rest) && !(i.isText && is.head?.any isText) &&
      fitsAll i.print.getLast? rest is

end

end Item

/-- Items that make up a template. -/
structure Document where
  items : List Item
  fits : Item.fitsAll none [] items = true

namespace Document

def print (d : Document) : Text :=
  Item.printAll d.items

/-- The nodes of the items, from the beginning of the template on. -/
def nodes (d : Document) : List Node :=
  Item.nodesAll {} d.items

def nesting (d : Document) : ℕ :=
  Item.nestingAll d.items

end Document

/-! ## Kinds of elements -/

theorem TagName.kind_of_not_raw {n : TagName} (h : Html.isRawText n.text = false) : n.kind = .htmlTag := by
  have hnone : ¬ (Html.isScript n.text = true ∨ Html.isStyle n.text = true) := by
    rw [← Html.isRawText_iff, h]
    exact Bool.false_ne_true
  obtain ⟨hscript, hstyle⟩ := not_or.1 hnone
  rw [kind, if_neg hscript, if_neg hstyle]

/-- An element without content is not one with raw text. -/
theorem VoidName.not_raw (n : VoidName) : Html.isRawText n.text = false := by
  have hnone : ∀ name ∈ Html.voidNames, Html.rawTextNames.contains name = false := by decide
  exact hnone _ (List.contains_iff_mem.1 n.void)

/-! ## What a printed item starts with -/

/-- The first character of an attribute name is neither blank nor one that means something in a tag. -/
theorem AttributeName.exists_cons (n : AttributeName) : ∃ x t, n.text = x :: t ∧
    Text.isBlank x = false ∧ x ∉ ['>', '<', '=', '"', '\'', '/', '@'] := by
  obtain ⟨x, t, hname⟩ := List.exists_cons_of_ne_nil n.ne_nil
  exact ⟨x, t, hname, n.plain x (by rw [hname]; exact List.mem_cons_self)⟩

/-- No tag name begins like a declaration or an end tag. -/
theorem TagName.exists_cons (n : TagName) : ∃ x t, n.text = x :: t ∧ x ≠ '!' ∧ x ≠ '/' := by
  obtain ⟨x, t, hname⟩ := List.exists_cons_of_ne_nil n.ne_nil
  have hbang : x ≠ '!' := by
    intro hx
    exact n.head_ne (by rw [hname, hx]; rfl)
  have hslash : x ≠ '/' := by
    intro hx
    have hchar := n.chars x (by rw [hname]; exact List.mem_cons_self)
    rw [hx] at hchar
    exact absurd hchar (by decide)
  exact ⟨x, t, hname, hbang, hslash⟩

namespace Item

/-- The text of an element begins with its start tag. -/
theorem exists_startTag {i : Item} (hi : i.isTag = true) :
    ∃ (n : TagName) (as : Attributes) (e : TagEnd), n.startTag as e <+: i.print := by
  cases i with
  | element n as is => exact ⟨n.toTagName, as, .opened, List.prefix_append _ _⟩
  | void n as => exact ⟨n.toTagName, as, .opened, List.prefix_refl _⟩
  | closed n as => exact ⟨n, as, .closed, List.prefix_refl _⟩
  | text | escape | expression | comment | cdata => cases hi

theorem print_ne_nil (i : Item) : i.print ≠ [] := by
  cases i with
  | text t => exact t.ne_nil
  | escape | expression | comment | cdata => exact List.cons_ne_nil _ _
  | element | void | closed => exact List.cons_ne_nil _ _

end Item

end Stencil.Markup

import Stencil.Diagnostic.Problem
import Stencil.Text.Ahead

/-!
# Extents of embedded code

Embedded code is not understood; it is scanned only as far as needed to find where it ends. String
literals in one of three quotes, line comments and block comments are skipped as a whole, so that a
bracket inside them does not count. Each function here says, for the text ahead, how many characters
belong to a piece of code and which of its parts run into the end of the text.
-/

namespace Stencil.Code

/-- How far a piece of code reaches. -/
structure Extent where
  length : Nat
  /-- The parts that the end of the text cuts off, the innermost first. -/
  unclosed : List Unclosed := []
deriving DecidableEq, Repr, Inhabited

namespace Extent

/-- The extent of `n` more characters before `e`. -/
def after (n : Nat) (e : Extent) : Extent :=
  ⟨n + e.length, e.unclosed⟩

/-- The extent of two pieces, one after the other. -/
def append (d e : Extent) : Extent :=
  ⟨d.length + e.length, d.unclosed ++ e.unclosed⟩

end Extent

def isQuote (c : Char) : Bool :=
  c == '"' || c == '\'' || c == '`'

def isIdentifierStart (c : Char) : Bool :=
  c.isAlpha || c == '_' || c == '$'

def isIdentifierChar (c : Char) : Bool :=
  c.isAlphanum || c == '_' || c == '$'

/-- The extent of a string literal after its opening quote. A backslash takes the character after
it along. -/
def stringRest (quote : Char) : Text → Extent
  | [] => ⟨0, [.string]⟩
  | c :: rest =>
    if c = '\\' then
      match rest with
      | [] => ⟨1, [.string]⟩
      | _ :: rest => .after 2 (stringRest quote rest)
    else if c = quote then ⟨1, []⟩
    else .after 1 (stringRest quote rest)

/-- The extent of a block comment after its opening `/*`. -/
def blockCommentRest : Text → Extent
  | [] => ⟨0, [.blockComment]⟩
  | c :: rest =>
    if c = '*' && rest.head? == some '/' then ⟨2, []⟩ else .after 1 (blockCommentRest rest)

/-- The extent of the string literal or comment that a text starts with, if it starts with one. -/
def skipped? : Text → Option Extent
  | [] => none
  | c :: rest =>
    if isQuote c then some (.after 1 (stringRest c rest))
    else if c = '/' then
      if rest.head? == some '/' then some ⟨1 + (rest.takeWhile (· != '\n')).length, []⟩
      else if rest.head? == some '*' then some (.after 2 (blockCommentRest rest.tail))
      else none
    else none

theorem skipped?_pos {t : Text} {e : Extent} (h : skipped? t = some e) : 0 < e.length := by
  unfold skipped? at h
  repeat' split at h
  all_goals
    first
    | (simp only [Option.some.injEq] at h; subst h; simp only [Extent.after]; omega)
    | contradiction

theorem length_drop_skipped {t : Text} {e : Extent} (h : skipped? t = some e) :
    (t.drop e.length).length < t.length := by
  have hpos := skipped?_pos h
  have hne : 0 < t.length := by
    cases t with
    | nil => simp [skipped?] at h
    | cons c rest => simp
  simp only [List.length_drop]
  omega

/-- The extent of a body up to the brace that closes it, when nothing in it is looked at but its
braces. `opened` counts the inner braces that are open. -/
def flatBody (opened : Nat) (t : Text) : Extent :=
  match t with
  | [] => ⟨0, []⟩
  | c :: rest =>
    if c = '}' && opened == 0 then ⟨0, []⟩
    else
      match h : skipped? (c :: rest) with
      | some e =>
        have := length_drop_skipped h
        e.append (flatBody opened ((c :: rest).drop e.length))
      | none =>
        if c = '{' then .after 1 (flatBody (opened + 1) rest)
        else if c = '}' then .after 1 (flatBody (opened - 1) rest)
        else .after 1 (flatBody opened rest)
termination_by t.length
decreasing_by
  · assumption
  all_goals simp

/-- Markup may open a statement: after nothing, a brace, a semicolon or a closing parenthesis. -/
def atStatement : Option Char → Bool
  | none => true
  | some c => c == '{' || c == '}' || c == ';' || c == ')'

/-- Whether an element starts here, given the last significant character of the code before. -/
def startsMarkup (last : Option Char) (t : Text) : Bool :=
  t.ahead 0 == '<' && (t.ahead 1).isAlpha && atStatement last

/-- The extent of a stretch of code up to the next brace or element, and the last significant
character in it: blanks and comments do not count, and a string literal counts as its quote. -/
def value (last : Option Char) (t : Text) : Extent × Option Char :=
  match t with
  | [] => (⟨0, []⟩, last)
  | c :: rest =>
    if c = '{' || c = '}' || startsMarkup last (c :: rest) then (⟨0, []⟩, last)
    else
      match h : skipped? (c :: rest) with
      | some e =>
        have := length_drop_skipped h
        let next := value (if isQuote c then some c else last) ((c :: rest).drop e.length)
        (e.append next.1, next.2)
      | none =>
        let next := value (if Text.isBlank c then last else some c) rest
        (.after 1 next.1, next.2)
termination_by t.length
decreasing_by
  · assumption
  · simp

/-- The extent of a bracketed group after its opening bracket. Only brackets of the group's own
kind count; `inner` counts those opened since. -/
def groupRest (opening closing : Char) (inner : Nat) (t : Text) : Extent :=
  match t with
  | [] => ⟨0, [.group opening]⟩
  | c :: rest =>
    if isQuote c then
      let e := stringRest c rest
      .append (.after 1 e) (groupRest opening closing inner (rest.drop e.length))
    else if c = opening then .after 1 (groupRest opening closing (inner + 1) rest)
    else if c = closing then
      if inner = 0 then ⟨1, []⟩ else .after 1 (groupRest opening closing (inner - 1) rest)
    else .after 1 (groupRest opening closing inner rest)
termination_by t.length
decreasing_by
  · simp only [List.length_drop, List.length_cons]; omega
  all_goals simp

/-- The closing bracket of a group. -/
def closing? : Char → Option Char
  | '(' => some ')'
  | '[' => some ']'
  | _ => none

/-- The extent of the accesses and groups that continue an expression: a dot with an identifier, or
a group in parentheses or square brackets, any number of them. -/
def chain (t : Text) : Extent :=
  match t with
  | [] => ⟨0, []⟩
  | c :: rest =>
    if c = '.' && isIdentifierStart (Text.ahead rest 0) then
      let n := (rest.takeWhile isIdentifierChar).length
      .after (1 + n) (chain (rest.drop n))
    else
      match closing? c with
      | some close =>
        let e := groupRest c close 0 rest
        .append (.after 1 e) (chain (rest.drop e.length))
      | none => ⟨0, []⟩
termination_by t.length
decreasing_by
  all_goals simp only [List.length_drop, List.length_cons]; omega

/-- The extent of an expression: an identifier and what continues it. -/
def expression (t : Text) : Extent :=
  let n := (t.takeWhile isIdentifierChar).length
  .after n (chain (t.drop n))

end Stencil.Code

/-!
# Kinds of syntax nodes

The closed set of node kinds that a template consists of.
-/

namespace Stencil

/-- What a syntax node stands for. -/
inductive Kind where
  | document
  | endOfFile
  | trivia
  | literal
  | brace
  | bracket
  | equals
  | quote
  | doctype
  | comment
  | commentStart
  | commentContent
  | commentEnd
  | cdata
  | cdataStart
  | cdataContent
  | cdataEnd
  | htmlTag
  | htmlStartTag
  | htmlTagName
  | htmlAttributes
  | htmlAttribute
  | attributeName
  | attributeValue
  | htmlEndTag
  | scriptTag
  | styleTag
  | rawText
  | transition
  | escapedTransition
  | codeBlock
  | codeExpression
  | codeValue
  | codeBrace
deriving DecidableEq, Repr, Inhabited

namespace Kind

/-- Every kind, in the order in which they are declared. -/
def all : List Kind :=
  [document, endOfFile, trivia, literal, brace, bracket, equals, quote, doctype, comment,
    commentStart, commentContent, commentEnd, cdata, cdataStart, cdataContent, cdataEnd, htmlTag,
    htmlStartTag, htmlTagName, htmlAttributes, htmlAttribute, attributeName, attributeValue,
    htmlEndTag, scriptTag, styleTag, rawText, transition, escapedTransition, codeBlock,
    codeExpression, codeValue, codeBrace]

/-- The name under which a kind is shown. -/
def name : Kind → String
  | document => "Document"
  | endOfFile => "EndOfFile"
  | trivia => "Trivia"
  | literal => "Literal"
  | brace => "Brace"
  | bracket => "Bracket"
  | equals => "Equals"
  | quote => "Quote"
  | doctype => "Doctype"
  | comment => "Comment"
  | commentStart => "CommentStart"
  | commentContent => "CommentContent"
  | commentEnd => "CommentEnd"
  | cdata => "CData"
  | cdataStart => "CDataStart"
  | cdataContent => "CDataContent"
  | cdataEnd => "CDataEnd"
  | htmlTag => "HtmlTag"
  | htmlStartTag => "HtmlStartTag"
  | htmlTagName => "HtmlTagName"
  | htmlAttributes => "HtmlAttributes"
  | htmlAttribute => "HtmlAttribute"
  | attributeName => "AttributeName"
  | attributeValue => "AttributeValue"
  | htmlEndTag => "HtmlEndTag"
  | scriptTag => "ScriptTag"
  | styleTag => "StyleTag"
  | rawText => "RawText"
  | transition => "Transition"
  | escapedTransition => "EscapedTransition"
  | codeBlock => "CodeBlock"
  | codeExpression => "CodeExpression"
  | codeValue => "CodeValue"
  | codeBrace => "CodeBrace"

/-- The kind with a given name. -/
def ofName? (s : String) : Option Kind :=
  all.find? fun k => k.name == s

/-- Elements: a start tag, content, and possibly an end tag. -/
def isElement : Kind → Bool
  | htmlTag | scriptTag | styleTag => true
  | _ => false

end Kind

end Stencil

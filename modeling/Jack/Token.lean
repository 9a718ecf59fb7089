import Jack.Location
import Jack.Scalar

/-!
# Tokens

A token is a classified piece of a source with the place it came from. Two tokens spell the same
lexeme when kind and text agree (`Token.sameLexeme`); the place serves diagnostics only.

The token listing (`Token.listing`) writes every token as an element named after its kind. The four
characters that have a role in markup are written as entities, so a text can never be mistaken for
the end of its element.
-/

namespace Jack

namespace Token

/-- The lexical classes. -/
inductive Kind where
  | keyword
  | symbol
  | identifier
  | integer
  | string
  deriving Repr, DecidableEq

namespace Kind

/-- The name of a class, which is also its element in a listing. -/
def tag : Kind → String
  | keyword => "keyword"
  | symbol => "symbol"
  | identifier => "identifier"
  | integer => "integerConstant"
  | string => "stringConstant"

/-- All classes. -/
def all : List Kind := [keyword, symbol, identifier, integer, string]

/-- The class with a given name. -/
def ofTag? (name : String) : Option Kind :=
  all.find? fun k => k.tag = name

theorem ofTag?_tag (k : Kind) : ofTag? k.tag = some k := by
  cases k <;> simp [ofTag?, all, tag]

/-- The class that a plain value names; only a text can name one. -/
def ofScalar? : Scalar → Option Kind
  | .text s => ofTag? s
  | _ => none

/-- The complaint about a value that names no lexical class. -/
def refusal (given : Scalar) : String :=
  s!"{given.display} is not a valid TokenKind"

end Kind

end Token

/-- A classified piece of a source; a string literal is kept without its quotes. -/
structure Token where
  kind : Token.Kind
  text : String
  location : Location
  deriving Repr, DecidableEq

namespace Token

/-- The reserved words. -/
def keywords : List String :=
  ["class", "constructor", "function", "method", "field", "static", "var", "int", "char", "boolean",
    "void", "true", "false", "null", "this", "let", "do", "if", "else", "while", "return"]

/-- The types that are not classes. -/
def primitiveTypes : List String := ["int", "char", "boolean"]

/-- Kind and text agree, wherever the tokens stand. -/
def sameLexeme (s t : Token) : Bool :=
  s.kind == t.kind && s.text == t.text

/-- A keyword, and one of `words` unless that list is empty. -/
def isKeyword (t : Token) (words : List String := []) : Bool :=
  t.kind == .keyword && (words.isEmpty || words.contains t.text)

/-- A symbol, and one of `symbols` unless that list is empty. -/
def isSymbol (t : Token) (symbols : List String := []) : Bool :=
  t.kind == .symbol && (symbols.isEmpty || symbols.contains t.text)

/-- The fixed word or sign `w`: a keyword or a symbol with that text. -/
def isWord (w : String) (t : Token) : Bool :=
  (t.kind == .keyword || t.kind == .symbol) && t.text == w

/-- A name. -/
def isIdentifier (t : Token) : Bool :=
  t.kind == .identifier

/-- A token in one line, for inspection. -/
def display (t : Token) : String :=
  String.join
    ["Token(", t.kind.tag, ", ", Text.quoted t.text, ", ", toString t.location.line, ":",
      toString t.location.column, ")"]

/-! ## Markup -/

/-- A character of a text inside markup. -/
def entity (c : Char) : List Char :=
  if c = '<' then "&lt;".toList
  else if c = '>' then "&gt;".toList
  else if c = '"' then "&quot;".toList
  else if c = '&' then "&amp;".toList
  else [c]

/-- A text inside markup. -/
def escaped (text : String) : String :=
  String.ofList (text.toList.flatMap entity)

/-- A token as an element. -/
def markup (t : Token) : String :=
  s!"<{t.kind.tag}> {escaped t.text} </{t.kind.tag}>"

/-- The listing of a whole source, one token a line. -/
def listing (tokens : List Token) : String :=
  String.intercalate "\n" ("<tokens>" :: tokens.map markup ++ ["</tokens>"])

end Token

end Jack

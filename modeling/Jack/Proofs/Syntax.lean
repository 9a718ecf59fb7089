import Jack.Proofs.Lexeme

/-!
# Syntax trees

The derivations of the documented grammar, one type per nonterminal and one constructor per
production, and the lexemes that each tree spells (`spelling`). A list of tokens derives from the
grammar exactly if its lexemes are the spelling of a tree: a tree holds names, numerals, strings
and choices, and the fixed words between them are determined.

Lists of phrases are types of their own where they stand inside the recursion (`Operations`,
`Arguments`, `Block`), so that functions on trees and inductions over them follow the
constructors.
-/

namespace Jack.Syntax

open Compile (SubroutineKind)
open Compile.Goal (openBrace closeBrace)

/-! ## Expressions -/

/-- The binary operators. -/
inductive Operator where
  | plus
  | minus
  | times
  | divide
  | and
  | or
  | less
  | greater
  | equal
  deriving Repr, DecidableEq

/-- The sign of an operator. -/
def Operator.sign : Operator → String
  | plus => "+"
  | minus => "-"
  | times => "*"
  | divide => "/"
  | and => "&"
  | or => "|"
  | less => "<"
  | greater => ">"
  | equal => "="

/-- The operators with one operand. -/
inductive UnaryOperator where
  | negate
  | complement
  deriving Repr, DecidableEq

/-- The sign of an operator. -/
def UnaryOperator.sign : UnaryOperator → String
  | negate => "-"
  | complement => "~"

/-- The constants that are spelled as keywords. -/
inductive Constant where
  | true
  | false
  | null
  deriving Repr, DecidableEq

/-- The keyword of a constant. -/
def Constant.word : Constant → String
  | true => "true"
  | false => "false"
  | null => "null"

mutual

/-- `term (op term)*` -/
inductive Expression where
  | mk (first : Term) (rest : Operations)

/-- `(op term)*` -/
inductive Operations where
  | nil
  | cons (op : Operator) (operand : Term) (rest : Operations)

inductive Term where
  | integer (digits : String)
  | string (text : String)
  | constant (k : Constant)
  | this
  | unary (op : UnaryOperator) (operand : Term)
  | parens (e : Expression)
  | var (x : String)
  /-- An array element. -/
  | element (x : String) (index : Expression)
  | call (c : Call)

inductive Call where
  | unqualified (callee : String) (arguments : Arguments)
  | qualified (qualifier callee : String) (arguments : Arguments)

/-- `(expression (',' expression)*)?` -/
inductive Arguments where
  | nil
  | cons (e : Expression) (rest : Arguments)

end

mutual

def Expression.spelling : Expression → List Lexeme
  | .mk first rest => first.spelling ++ rest.spelling

def Operations.spelling : Operations → List Lexeme
  | .nil => []
  | .cons op operand rest => .word op.sign :: operand.spelling ++ rest.spelling

def Term.spelling : Term → List Lexeme
  | .integer digits => [⟨.integer, digits⟩]
  | .string text => [⟨.string, text⟩]
  | .constant k => [.word k.word]
  | .this => [.word "this"]
  | .unary op operand => .word op.sign :: operand.spelling
  | .parens e => .word "(" :: e.spelling ++ [Lexeme.word ")"]
  | .var x => [.name x]
  | .element x index => .name x :: .word "[" :: index.spelling ++ [Lexeme.word "]"]
  | .call c => c.spelling

def Call.spelling : Call → List Lexeme
  | .unqualified callee arguments =>
    .name callee :: .word "(" :: arguments.spelling ++ [Lexeme.word ")"]
  | .qualified qualifier callee arguments =>
    .name qualifier :: .word "." :: .name callee :: .word "(" :: arguments.spelling ++
      [Lexeme.word ")"]

def Arguments.spelling : Arguments → List Lexeme
  | .nil => []
  | .cons e rest => e.spelling ++ rest.moreSpelling

/-- The arguments behind a first one, each with its comma. -/
def Arguments.moreSpelling : Arguments → List Lexeme
  | .nil => []
  | .cons e rest => .word "," :: e.spelling ++ rest.moreSpelling

end

/-- The number of arguments. -/
def Arguments.length : Arguments → Nat
  | .nil => 0
  | .cons _ rest => rest.length + 1

/-! ## Statements -/

mutual

inductive Statement where
  | assign (x : String) (value : Expression)
  | assignElement (x : String) (index value : Expression)
  | conditional (condition : Expression) (body : Block) (alternative : Alternative)
  | loop (condition : Expression) (body : Block)
  | perform (c : Call)
  | yield (value : Option Expression)

/-- `('else' block)?` -/
inductive Alternative where
  | absent
  | present (body : Block)

inductive Block where
  | nil
  | cons (s : Statement) (rest : Block)

end

mutual

def Statement.spelling : Statement → List Lexeme
  | .assign x value => .word "let" :: .name x :: .word "=" :: value.spelling ++ [Lexeme.word ";"]
  | .assignElement x index value =>
    .word "let" :: .name x :: .word "[" :: index.spelling ++
      .word "]" :: .word "=" :: value.spelling ++ [Lexeme.word ";"]
  | .conditional condition body alternative =>
    .word "if" :: .word "(" :: condition.spelling ++
      .word ")" :: .word openBrace :: body.spelling ++
        .word closeBrace :: alternative.spelling
  | .loop condition body =>
    .word "while" :: .word "(" :: condition.spelling ++
      .word ")" :: .word openBrace :: body.spelling ++ [Lexeme.word closeBrace]
  | .perform c => .word "do" :: c.spelling ++ [Lexeme.word ";"]
  | .yield none => [.word "return", .word ";"]
  | .yield (some value) => .word "return" :: value.spelling ++ [Lexeme.word ";"]

def Alternative.spelling : Alternative → List Lexeme
  | .absent => []
  | .present body => .word "else" :: .word openBrace :: body.spelling ++ [Lexeme.word closeBrace]

def Block.spelling : Block → List Lexeme
  | .nil => []
  | .cons s rest => s.spelling ++ rest.spelling

end

/-! ## Declarations -/

inductive TypeName where
  | int
  | char
  | boolean
  | named (x : String)
  deriving Repr, DecidableEq

namespace TypeName

def text : TypeName → String
  | int => "int"
  | char => "char"
  | boolean => "boolean"
  | named x => x

def lexeme : TypeName → Lexeme
  | named x => .name x
  | t => .word t.text

/-- The class that a type names. -/
def classes : TypeName → List String
  | named x => [x]
  | _ => []

end TypeName

/-- A declared name with its type. -/
structure Variable where
  type : TypeName
  name : String
  deriving Repr, DecidableEq

/-- Further names behind a first one, each with its comma. -/
def moreNames (names : List String) : List Lexeme :=
  names.flatMap fun x => [.word ",", .name x]

/-- `type IDENTIFIER (',' IDENTIFIER)* ';'` -/
structure VarDec where
  type : TypeName
  first : String
  more : List String
  deriving Repr, DecidableEq

namespace VarDec

/-- A declaration without its end. -/
def phrase (d : VarDec) : List Lexeme :=
  d.type.lexeme :: .name d.first :: moreNames d.more

def spelling (d : VarDec) : List Lexeme := d.phrase ++ [Lexeme.word ";"]

/-- The variables of a declaration, in order. -/
def vars (d : VarDec) : List Variable :=
  (d.first :: d.more).map (⟨d.type, ·⟩)

end VarDec

/-- Whether a class variable exists once or in every object. -/
inductive ClassVarKind where
  | static
  | field
  deriving Repr, DecidableEq

def ClassVarKind.word : ClassVarKind → String
  | static => "static"
  | field => "field"

structure ClassVarDec where
  kind : ClassVarKind
  dec : VarDec
  deriving Repr, DecidableEq

def ClassVarDec.spelling (d : ClassVarDec) : List Lexeme :=
  .word d.kind.word :: d.dec.spelling

def Variable.spelling (p : Variable) : List Lexeme := [p.type.lexeme, .name p.name]

/-- Further parameters behind a first one, each with its comma. -/
def moreParameters (ps : List Variable) : List Lexeme :=
  ps.flatMap fun p => .word "," :: p.spelling

/-- `(type IDENTIFIER (',' type IDENTIFIER)*)?` -/
def parametersSpelling : List Variable → List Lexeme
  | [] => []
  | p :: ps => p.spelling ++ moreParameters ps

/-- A subroutine; without a return type it is `void`. -/
structure Subroutine where
  kind : SubroutineKind
  returnType : Option TypeName
  name : String
  parameters : List Variable
  locals : List VarDec
  body : Block

/-- The lexeme of a return type. -/
def returnLexeme : Option TypeName → Lexeme
  | none => .word "void"
  | some t => t.lexeme

/-- The local variables of a subroutine, each declaration behind its keyword. -/
def localsSpelling (ds : List VarDec) : List Lexeme :=
  ds.flatMap fun d => .word "var" :: d.spelling

def Subroutine.spelling (s : Subroutine) : List Lexeme :=
  .word s.kind.name :: returnLexeme s.returnType :: .name s.name ::
    .word "(" :: parametersSpelling s.parameters ++
      .word ")" :: .word openBrace :: localsSpelling s.locals ++ s.body.spelling ++
        [Lexeme.word closeBrace]

structure ClassDecl where
  name : String
  vars : List ClassVarDec
  subroutines : List Subroutine

def ClassDecl.spelling (c : ClassDecl) : List Lexeme :=
  .word "class" :: .name c.name :: .word openBrace ::
    c.vars.flatMap ClassVarDec.spelling ++ c.subroutines.flatMap Subroutine.spelling ++
      [Lexeme.word closeBrace]

end Jack.Syntax

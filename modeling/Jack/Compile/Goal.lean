import Jack.Compile.State

/-!
# Goals

The grammar of a class, with the code that each production emits woven in. A `Goal` is something
that is still due: a word or a phrase that the tokens must supply, a mark for the derivation, an
instruction to emit, or a name to resolve. A production is a list of goals, and reads like the
documentation of the code it makes; the loop, for instance, is

    label L1, '(' expression ')', not, if-goto L2, block, goto L1, label L2

One token of lookahead always tells what a goal becomes. What it becomes once that token has been
read is given by the functions from tokens to goals in this file; they depend on the token alone.

`Goal.weight` bounds the work that a goal can cause before the next token is read.
-/

namespace Jack.Compile

/-- Something that is still due. -/
inductive Goal where
  -- Parts of any production.
  /-- The fixed word or sign `w`. -/
  | word (w : String)
  | enter (e : Element)
  | leave (e : Element)
  | emit (i : Instruction)
  -- The class and its declarations.
  | className
  | nameClass (name : String)
  | noteClass (name : String)
  | classVars
  | varType (k : Storage)
  /-- A name to declare; `what` describes it. -/
  | varName (what : String) (k : Storage) (type : String)
  | moreNames (k : Storage) (type : String)
  | declare (name : Token) (type : String) (k : Storage)
  | subroutines
  | returnType
  | subroutineName (kind : SubroutineKind)
  | beginSubroutine (kind : SubroutineKind) (name : Token)
  | parameters
  | parameter
  | moreParameters
  | localVars
  /-- The header of the current subroutine and the instructions that set up its object. -/
  | header
  | endOfInput
  | verifyCalls
  -- Statements.
  | statements
  | statementList
  | letTarget
  | assign (name : Token)
  | assignTail (target : Declaration)
  | ifBody
  | elsePart
  | whileBody
  | doTarget
  | returnValue
  -- Expressions.
  | expression
  | term
  | termBody
  | operators
  | integer (t : Token)
  | this (t : Token)
  | identifierTail (name : Token)
  | load (name : Token)
  | callSign (name : Token)
  | localCall (name : Token)
  | qualifiedCall (qualifier : Token)
  | dispatch (qualifier callee : Token)
  | firstArgument (target : String) (count : Nat)
  | moreArguments (target : String) (count : Nat)
  deriving Repr, DecidableEq

namespace Goal

/-! ## Productions -/

/-- The sign that opens a body. -/
def openBrace : String := "\x7b"

/-- The sign that closes a body. -/
def closeBrace : String := "\x7d"

/-- Statements between braces. -/
def block : List Goal :=
  [word openBrace, statements, word closeBrace]

/-- A whole source: one class and nothing after it. -/
def wholeClass : List Goal :=
  [enter .classDecl, word "class", className, word openBrace, classVars, subroutines,
    word closeBrace, leave .classDecl, endOfInput, verifyCalls]

/-- The names after the type of a variable declaration. -/
def names (k : Storage) (type : String) : List Goal :=
  [varName "variable name" k type, moreNames k type]

/-- A subroutine behind its leading keyword. -/
def subroutineRest (kind : SubroutineKind) : List Goal :=
  [returnType, subroutineName kind, word "(", enter .parameterList, parameters,
    leave .parameterList, word ")", enter .subroutineBody, word openBrace, localVars, header,
    statements, word closeBrace, leave .subroutineBody, leave .subroutineDec, subroutines]

/-- What a new object or a method's receiver needs before the first statement. -/
def prologue (fields : Nat) : SubroutineKind → List Goal
  | .constructor =>
    [emit (.push .constant fields), emit (.call "Memory.alloc" 1), emit (.pop .pointer 0)]
  | .method => [emit (.push .argument 0), emit (.pop .pointer 0)]
  | .function => []

/-- Reading a variable. -/
def pushVariable (d : Declaration) : Goal :=
  emit (.push d.storage.segment d.slot)

/-- Writing a variable. -/
def popVariable (d : Declaration) : Goal :=
  emit (.pop d.storage.segment d.slot)

/-- An assignment to an array element, behind the opening bracket. The value waits in a temporary
cell while the element is being addressed, because computing the value may address another one. -/
def assignElement (d : Declaration) : List Goal :=
  [pushVariable d, expression, word "]", emit (.arithmetic .add), word "=", expression, word ";",
    emit (.pop .temp 0), emit (.pop .pointer 1), emit (.push .temp 0), emit (.pop .that 0)]

/-- An assignment to a variable. -/
def assignVariable (d : Declaration) : List Goal :=
  [word "=", expression, word ";", popVariable d]

/-- A conditional behind its keyword, with its two labels. -/
def conditional (elseLabel endLabel : String) : List Goal :=
  [word "(", expression, word ")", emit (.arithmetic .not), emit (.ifGoto elseLabel)] ++ block ++
    [emit (.goto endLabel), emit (.label elseLabel), elsePart, emit (.label endLabel)]

/-- A loop behind its keyword, with its two labels. -/
def loop (startLabel endLabel : String) : List Goal :=
  [emit (.label startLabel), word "(", expression, word ")", emit (.arithmetic .not),
    emit (.ifGoto endLabel)] ++ block ++ [emit (.goto startLabel), emit (.label endLabel)]

/-- The rest of an array element behind the opening bracket. -/
def elementRest (name : Token) : List Goal :=
  [load name, expression, word "]", emit (.arithmetic .add), emit (.pop .pointer 1),
    emit (.push .that 0)]

/-- The arguments of a call, `count` operands being on the stack already. -/
def arguments (target : String) (count : Nat) : List Goal :=
  [enter .expressionList, firstArgument target count]

/-- The end of a call. -/
def callEnd (target : String) (count : Nat) : List Goal :=
  [leave .expressionList, word ")", emit (.call target count)]

/-- A string is built at run time, one character after the other. -/
def stringLiteral (text : String) : List Goal :=
  emit (.push .constant text.length) :: emit (.call "String.new" 1) ::
    text.toList.flatMap fun c =>
      [emit (.push .constant c.toNat), emit (.call "String.appendChar" 2)]

/-! ## What the lookahead selects

Each function answers for one goal: the goals that follow once the token has been read, or nothing
if the token does not belong there. -/

/-- Selects `next` behind a fixed word. -/
def onWord (w : String) (next : List Goal) (t : Token) : Option (List Goal) :=
  if t.isWord w then some next else none

/-- Selects by a name. -/
def onName (next : Token → List Goal) (t : Token) : Option (List Goal) :=
  if t.isIdentifier then some (next t) else none

/-- Selects by a type: one of the given keywords, or a class, which is known from then on. -/
def onType (keywords : List String) (next : String → List Goal) (t : Token) :
    Option (List Goal) :=
  if t.isKeyword keywords then some (next t.text)
  else if t.isIdentifier then some (noteClass t.text :: next t.text)
  else none

/-- Selects a declaration of class variables. -/
def onClassVar (t : Token) : Option (Element × List Goal) :=
  let rest (k : Storage) := [varType k, word ";", leave .classVarDec, classVars]
  if t.isWord "static" then some (.classVarDec, rest .static)
  else if t.isWord "field" then some (.classVarDec, rest .field)
  else none

/-- Selects a subroutine. -/
def onSubroutine (t : Token) : Option (Element × List Goal) :=
  (SubroutineKind.ofWord? t).map fun kind => (.subroutineDec, subroutineRest kind)

/-- Selects a declaration of local variables. -/
def onLocalVar (t : Token) : Option (Element × List Goal) :=
  if t.isWord "var" then
    some (.varDec, [varType .localVar, word ";", leave .varDec, localVars])
  else none

/-- Selects a statement. -/
def onStatement (t : Token) : Option (Element × List Goal) :=
  if t.isKeyword ["let"] then
    some (.letStatement, [letTarget, leave .letStatement, statementList])
  else if t.isKeyword ["if"] then
    some (.ifStatement, [ifBody, leave .ifStatement, statementList])
  else if t.isKeyword ["while"] then
    some (.whileStatement, [whileBody, leave .whileStatement, statementList])
  else if t.isKeyword ["do"] then
    some (.doStatement,
      [doTarget, word ";", emit (.pop .temp 0), leave .doStatement, statementList])
  else if t.isKeyword ["return"] then
    some (.returnStatement,
      [returnValue, word ";", emit .ret, leave .returnStatement, statementList])
  else none

/-- The instruction of each binary operator; two of them are calls of the run-time library. -/
def operatorTable : List (String × Instruction) :=
  [("+", .arithmetic .add), ("-", .arithmetic .sub), ("*", .call "Math.multiply" 2),
    ("/", .call "Math.divide" 2), ("&", .arithmetic .and), ("|", .arithmetic .or),
    ("<", .arithmetic .lt), (">", .arithmetic .gt), ("=", .arithmetic .eq)]

/-- Selects an operator and its right operand. Operators are applied strictly from left to right. -/
def onOperator (t : Token) : Option (List Goal) :=
  (operatorTable.find? fun e => t.isWord e.1).map fun e => [term, emit e.2, operators]

/-- Selects the form of a term. -/
def onTerm (t : Token) : Option (List Goal) :=
  match t.kind with
  | .integer => some [integer t]
  | .string => some (stringLiteral t.text)
  | .identifier => some [identifierTail t]
  | .keyword =>
    if t.text = "true" then some [emit (.push .constant 1), emit (.arithmetic .neg)]
    else if t.text = "false" ∨ t.text = "null" then some [emit (.push .constant 0)]
    else if t.text = "this" then some [this t]
    else none
  | .symbol =>
    if t.text = "-" then some [term, emit (.arithmetic .neg)]
    else if t.text = "~" then some [term, emit (.arithmetic .not)]
    else if t.text = "(" then some [expression, word ")"]
    else none

/-- Selects between the two forms of a call. -/
def onCallSign (name t : Token) : Option (List Goal) :=
  if t.isWord "(" then some [localCall name]
  else if t.isWord "." then some [qualifiedCall name]
  else none

/-! ## Weights -/

/-- More than the total weight of whatever a goal can become without a token being read. -/
def weight : Goal → Nat
  | integer _ | this _ | load _ => 2
  | identifierTail _ | parameters => 3
  | term | statements | moreArguments _ _ => 4
  | header => 5
  | expression => 8
  | returnValue => 9
  | assignTail _ => 12
  | assign _ | firstArgument _ _ => 13
  | localCall _ | dispatch _ _ => 16
  | ifBody | whileBody => 24
  | _ => 1

end Goal

/-- The weight of a list of goals. -/
def agendaWeight : List Goal → Nat
  | [] => 0
  | g :: gs => g.weight + agendaWeight gs

end Jack.Compile

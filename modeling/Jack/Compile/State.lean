import Jack.Instruction
import Jack.Listing
import Jack.Scope
import Jack.Text.Numeral
import Jack.Token.Cursor

/-!
# The state of a compilation

One class is compiled in one pass over its tokens. `State` is everything that the pass has learned
and produced so far, and it is what can still be inspected when the pass stops at a fault. `Setting`
is what does not change on the way.
-/

namespace Jack.Compile

/-- The kinds of subroutine. -/
inductive SubroutineKind where
  | constructor
  | function
  | method
  deriving Repr, DecidableEq

namespace SubroutineKind

/-- The keyword of a kind. -/
def name : SubroutineKind → String
  | constructor => "constructor"
  | function => "function"
  | method => "method"

/-- All kinds. -/
def all : List SubroutineKind := [constructor, function, method]

/-- The kind announced by a word. -/
def ofWord? (t : Token) : Option SubroutineKind :=
  all.find? fun k => t.isWord k.name

end SubroutineKind

/-- What stays fixed while a class is compiled. -/
structure Setting extends Token.Setting where
  /-- Only known classes may qualify a call. -/
  strict : Bool := false
  deriving Repr, DecidableEq

/-- Why a compilation stops. -/
inductive Fault where
  | diagnostic (d : Diagnostic)
  /-- An integer token whose text is not read as a number. In a source, only its length can be the
  reason; the text of a ready-made token may be no numeral at all. -/
  | misread (text : String) (why : Text.Misreading)
  deriving Repr, DecidableEq

namespace Fault

/-- How much of an unreadable numeral is shown. -/
def shownLength : Nat := 200

/-- A fault in full. -/
def message : Fault → String
  | diagnostic d => d.render
  | misread _ (.tooLong digits) => Text.limitMessage Text.maxDigits (some digits)
  | misread text .malformed =>
    String.join
      ["invalid literal for int() with base 10: ",
        String.ofList ((Text.quoted text).toList.take shownLength)]

end Fault

/-- The progress of a compilation. -/
structure State where
  /-- The tokens still to be read. -/
  rest : List Token
  className : String := ""
  /-- The kind of the current subroutine; none before the first. -/
  subroutineKind : Option SubroutineKind := none
  subroutineName : String := ""
  /-- The number of the last label drawn. -/
  labels : Int := 0
  /-- The subroutines declared so far, in order. -/
  subroutines : List (String × SubroutineKind) := []
  /-- The names of the unqualified calls so far, which are checked when the class is closed. -/
  localCalls : List Token := []
  scope : Scope := {}
  /-- Names that may qualify a call because they are known to be classes. -/
  known : List String := []
  /-- The instructions so far, the latest one first; `State.code` has them in order. -/
  emitted : List Instruction := []
  /-- The derivation so far, if it is recorded, the latest mark first; `State.marks` has it in
  order. -/
  recorded : Option (List Mark) := none
  deriving Repr, DecidableEq

namespace State

/-- The token in view. -/
def peek (s : State) : Option Token := s.rest.head?

/-- The instructions so far. -/
def code (s : State) : List Instruction := s.emitted.reverse

/-- The derivation so far, if it is recorded. -/
def marks (s : State) : Option (List Mark) := s.recorded.map List.reverse

/-- Adds a mark to the derivation, if it is recorded. -/
def mark (s : State) (m : Mark) : State :=
  { s with recorded := s.recorded.map (m :: ·) }

/-- Reads the token `t`, behind which `ts` remain. -/
def read (s : State) (t : Token) (ts : List Token) : State :=
  { s.mark (.token t) with rest := ts }

/-- Appends an instruction to the code. -/
def emit (s : State) (i : Instruction) : State :=
  { s with emitted := i :: s.emitted }

@[simp] theorem code_emit (s : State) (i : Instruction) : (s.emit i).code = s.code ++ [i] := by
  simp [code, emit]

@[simp] theorem code_mark (s : State) (m : Mark) : (s.mark m).code = s.code := rfl

@[simp] theorem code_read (s : State) (t : Token) (ts : List Token) :
    (s.read t ts).code = s.code := rfl

@[simp] theorem marks_emit (s : State) (i : Instruction) : (s.emit i).marks = s.marks := rfl

@[simp] theorem marks_mark (s : State) (m : Mark) :
    (s.mark m).marks = s.marks.map (· ++ [m]) := by
  cases h : s.recorded <;> simp [marks, mark, h]

@[simp] theorem marks_read (s : State) (t : Token) (ts : List Token) :
    (s.read t ts).marks = s.marks.map (· ++ [.token t]) :=
  marks_mark s (.token t)

/-- Remembers that a name is a class. -/
def know (s : State) (name : String) : State :=
  { s with known := name :: s.known }

/-- The name of a subroutine of this class as a call spells it. -/
def qualify (s : State) (name : String) : String :=
  s!"{s.className}.{name}"

/-- The full name of the current subroutine. -/
def qualifiedName (s : State) : String :=
  s.qualify s.subroutineName

/-- The label with a number. -/
def labelText (n : Int) : String :=
  s!"L{n}"

/-- Draws the next label. -/
def drawLabel (s : State) : String × State :=
  (labelText (s.labels + 1), { s with labels := s.labels + 1 })

/-- The kind of a declared subroutine. -/
def kindOf? (s : State) (name : String) : Option SubroutineKind :=
  s.subroutines.lookup name

/-- Enters a subroutine: its name is recorded, the previous subroutine's variables are forgotten,
and the receiver of a method is declared before its parameters. -/
def beginSubroutine (s : State) (kind : SubroutineKind) (name : String) :
    Except Problem State := do
  let fresh := s.scope.startSubroutine
  let scope ←
    if kind = .method then
      let (_, scope) ← fresh.define "this" s.className .argument
      pure scope
    else pure fresh
  return { s with
    subroutines := s.subroutines ++ [(name, kind)]
    subroutineKind := some kind
    subroutineName := name
    scope := scope }

/-- The state inside a subroutine that has just been entered. The receiver of a method is its first
argument. -/
def entered (s : State) (kind : SubroutineKind) (name : String) : State :=
  let fresh := s.scope.startSubroutine
  { s with
    subroutines := s.subroutines ++ [(name, kind)]
    subroutineKind := some kind
    subroutineName := name
    scope :=
      if kind = .method then fresh.add ⟨"this", s.className, .argument, 0⟩ else fresh }

/-- Entering a subroutine never fails: no name is taken in a scope that has just been emptied. -/
theorem beginSubroutine_eq (s : State) (kind : SubroutineKind) (name : String) :
    s.beginSubroutine kind name = .ok (s.entered kind name) := by
  have hreceiver : s.scope.startSubroutine.define "this" s.className .argument =
      .ok (⟨"this", s.className, .argument, 0⟩,
        s.scope.startSubroutine.add ⟨"this", s.className, .argument, 0⟩) := rfl
  by_cases hk : kind = .method
  · simp [beginSubroutine, entered, hk, hreceiver, bind, Except.bind, pure, Except.pure]
  · simp [beginSubroutine, entered, hk, bind, Except.bind, pure, Except.pure]

/-- An account of the compilation for a patient reader: the class once it has a name, and every
subroutine whose header is out, with the number of its local variables. -/
def notes (s : State) : List String :=
  let headers := s.code.filterMap fun
    | .function name locals => some (name, locals.text)
    | _ => none
  (if s.className = "" then [] else [s!"Compiling class {s.className}"]) ++
    (s.subroutines.zip headers).map fun p => s!"  {p.1.2.name} {p.2.1}: {p.2.2} locals"

end State

end Jack.Compile

import Jack.Diagnostic
import Jack.Text.Lines
import Jack.Token

/-!
# Cutting a source into tokens

A source is cut into `Piece`s from left to right: gaps (one blank, or one comment) and lexemes.
The cut of one piece is `cut`; it loses nothing, and what is left is shorter (`cut_source`), so
cutting a whole source ends. `cutAll` keeps the pieces, so that together with what could not be
cut they are the source again (`cutAll_source`). Positions are put on afterwards by `place`, which
walks over the characters of the pieces.

Only two things can go wrong: a block comment or a string literal that is never closed.
-/

namespace Jack.Token

/-! ## Positions -/

/-- A line and a column, both counted from one. -/
structure Position where
  line : Nat := 1
  column : Nat := 1
  deriving Repr, DecidableEq

namespace Position

/-- The position behind a character: only the newline starts a line. -/
def after (p : Position) (c : Char) : Position :=
  if c = '\n' then ⟨p.line + 1, 1⟩ else ⟨p.line, p.column + 1⟩

/-- The position behind a run of characters. -/
def afterAll (p : Position) (cs : List Char) : Position :=
  cs.foldl after p

/-- The position as a place in a named source. -/
def inFile (p : Position) (file : String) : Location :=
  ⟨file, p.line, p.column⟩

end Position

/-! ## Pieces -/

/-- A part of a source that stands for itself. -/
inductive Piece where
  /-- Characters between tokens: one blank, or one comment. -/
  | gap (source : List Char)
  /-- A token; the text of a string literal is kept without its quotes. -/
  | lexeme (kind : Kind) (text : List Char)
  deriving Repr, DecidableEq

/-- The characters of the source that a piece covers. -/
def Piece.source : Piece → List Char
  | gap cs => cs
  | lexeme .string text => '"' :: text ++ ['"']
  | lexeme _ text => text

/-- What a source may leave open. -/
inductive Unclosed where
  | comment
  | string
  deriving Repr, DecidableEq

/-- The blanks between tokens. -/
def isSpace (c : Char) : Bool :=
  c == ' ' || c == '\t' || c == '\n' || c == '\r' || c == '\x0c' || c == '\x0b'

/-- The characters that run together into a word or a number. -/
def isRun (c : Char) : Bool := c.isAlphanum

/-- The characters that may stand in a string literal. -/
def isLiteral (c : Char) : Bool := c != '"' && c != '\n'

/-- The class of a run of letters and digits: reserved words first, then numbers, then names. -/
def classify (run : List Char) : Kind :=
  if keywords.contains (String.ofList run) then .keyword
  else if run.all Char.isDigit then .integer
  else .identifier

/-- Splits what follows the start of a block comment behind the first closing sign. -/
def closeComment : List Char → Option (List Char × List Char)
  | [] => none
  | '*' :: '/' :: cs => some (['*', '/'], cs)
  | c :: cs => (closeComment cs).map fun r => (c :: r.1, r.2)

/-- Cuts the piece that starts with `c` off the source `c :: cs`. -/
def cut (c : Char) (cs : List Char) : Except Unclosed (Piece × List Char) :=
  if isSpace c then .ok (.gap [c], cs)
  else if c = '/' ∧ cs.head? = some '/' then
    .ok (.gap (c :: cs.takeWhile (· != '\n')), cs.dropWhile (· != '\n'))
  else if c = '/' ∧ cs.head? = some '*' then
    match closeComment cs.tail with
    | some (body, rest) => .ok (.gap (c :: '*' :: body), rest)
    | none => .error .comment
  else if isRun c then
    let run := c :: cs.takeWhile isRun
    .ok (.lexeme (classify run) run, cs.dropWhile isRun)
  else if c = '"' then
    match cs.dropWhile isLiteral with
    | '"' :: rest => .ok (.lexeme .string (cs.takeWhile isLiteral), rest)
    | _ => .error .string
  else .ok (.lexeme .symbol [c], cs)

theorem closeComment_append {cs body rest : List Char} (h : closeComment cs = some (body, rest)) :
    body ++ rest = cs := by
  fun_induction closeComment cs generalizing body rest with
  | case1 => simp at h
  | case2 cs =>
    obtain ⟨rfl, rfl⟩ := Prod.mk.injEq .. |>.mp (Option.some.inj h)
    rfl
  | case3 c cs _ ih =>
    obtain ⟨r, hr, he⟩ := Option.map_eq_some_iff.mp h
    obtain ⟨rfl, rfl⟩ := Prod.mk.injEq .. |>.mp he
    rw [List.cons_append, ih hr]

/-- A run of letters and digits is never a string literal, so it covers its own text. -/
theorem source_classify (run : List Char) : (Piece.lexeme (classify run) run).source = run := by
  unfold classify
  split
  · rfl
  · split <;> rfl

/-- A piece covers the character it was cut at, and with the rest it makes up the source. -/
theorem cut_source {c : Char} {cs rest : List Char} {p : Piece} (h : cut c cs = .ok (p, rest)) :
    ∃ more, p.source = c :: more ∧ more ++ rest = cs := by
  unfold cut at h
  split at h
  · obtain ⟨rfl, rfl⟩ := Prod.mk.injEq .. |>.mp (Except.ok.inj h)
    exact ⟨[], rfl, rfl⟩
  · split at h
    · obtain ⟨rfl, rfl⟩ := Prod.mk.injEq .. |>.mp (Except.ok.inj h)
      exact ⟨_, rfl, List.takeWhile_append_dropWhile⟩
    · split at h
      · next hc =>
        split at h
        · next body tail hb =>
          obtain ⟨rfl, rfl⟩ := Prod.mk.injEq .. |>.mp (Except.ok.inj h)
          refine ⟨'*' :: body, rfl, ?_⟩
          cases cs with
          | nil => simp at hc
          | cons d ds =>
            have hd : d = '*' := by simpa using hc.2
            rw [List.cons_append, closeComment_append hb, hd, List.tail_cons]
        · cases h
      · split at h
        · obtain ⟨rfl, rfl⟩ := Prod.mk.injEq .. |>.mp (Except.ok.inj h)
          exact ⟨cs.takeWhile isRun, source_classify _, List.takeWhile_append_dropWhile⟩
        · split at h
          · next hq =>
            split at h
            · next tail hd =>
              obtain ⟨rfl, rfl⟩ := Prod.mk.injEq .. |>.mp (Except.ok.inj h)
              refine ⟨cs.takeWhile isLiteral ++ ['"'], by rw [hq]; rfl, ?_⟩
              rw [List.append_assoc, List.singleton_append, ← hd,
                List.takeWhile_append_dropWhile]
            · cases h
          · obtain ⟨rfl, rfl⟩ := Prod.mk.injEq .. |>.mp (Except.ok.inj h)
            exact ⟨[], rfl, rfl⟩

theorem cut_length_lt {c : Char} {cs rest : List Char} {p : Piece}
    (h : cut c cs = .ok (p, rest)) : rest.length < (c :: cs).length := by
  obtain ⟨more, _, hm⟩ := cut_source h
  have := congrArg List.length hm
  simp only [List.length_append, List.length_cons] at *
  omega

/-- The pieces of a source, and what was left open together with the characters from there on. -/
structure Cutting where
  pieces : List Piece
  unclosed : Option (Unclosed × List Char)
  deriving Repr, DecidableEq

/-- Cuts a source up, as far as its pieces are closed. -/
def cutAll : List Char → Cutting
  | [] => ⟨[], none⟩
  | c :: cs =>
    match _h : cut c cs with
    | .error u => ⟨[], some (u, c :: cs)⟩
    | .ok (p, rest) =>
      let later := cutAll rest
      ⟨p :: later.pieces, later.unclosed⟩
  termination_by cs => cs.length
  decreasing_by exact cut_length_lt _h

/-- The characters that were not cut. -/
def Cutting.rest (k : Cutting) : List Char :=
  match k.unclosed with
  | none => []
  | some (_, cs) => cs

/-- Cutting loses nothing. -/
theorem cutAll_source (cs : List Char) :
    (cutAll cs).pieces.flatMap Piece.source ++ (cutAll cs).rest = cs := by
  fun_induction cutAll cs with
  | case1 => rfl
  | case2 c cs u h => rfl
  | case3 c cs p rest h later ih =>
    obtain ⟨more, hp, hm⟩ := cut_source h
    rw [List.flatMap_cons, List.append_assoc, hp]
    show c :: more ++ (later.pieces.flatMap Piece.source ++ later.rest) = c :: cs
    rw [ih, List.cons_append, hm]

/-! ## Tokens -/

/-- The tokens among the pieces, each at the position of its first character, and the position
behind the last piece. -/
def place (file : String) (pos : Position) : List Piece → List Token × Position
  | [] => ([], pos)
  | p :: ps =>
    let later := place file (pos.afterAll p.source) ps
    match p with
    | .gap _ => later
    | .lexeme kind text => (⟨kind, String.ofList text, pos.inFile file⟩ :: later.1, later.2)

/-- The tokens of a source, and the complaint that ended them early, if any. -/
structure Lexed where
  tokens : List Token
  fault : Option Diagnostic
  deriving Repr, DecidableEq

/-- How many characters have been read, and how many had been where the current line starts. -/
structure Reading where
  offset : Nat := 0
  lineStart : Nat := 0
  deriving Repr, DecidableEq

namespace Reading

/-- Reads a character. -/
def after (r : Reading) (c : Char) : Reading :=
  if c = '\n' then ⟨r.offset + 1, r.offset + 1⟩ else ⟨r.offset + 1, r.lineStart⟩

/-- Reads a run of characters. -/
def afterAll (r : Reading) (cs : List Char) : Reading :=
  cs.foldl after r

/-- The current line of a source, as far as the next newline. -/
def line (r : Reading) (source : List Char) : List Char :=
  (source.drop r.lineStart).takeWhile (· != '\n')

end Reading

/-- What has been read of an open piece when it is found to be open: a comment to the end of the
source, a string to the end of its line. -/
def Unclosed.covered : Unclosed → List Char → List Char
  | comment, cs => cs
  | string, cs => cs.take 1 ++ cs.tail.takeWhile isLiteral

/-- The complaint about a piece left open at a position of a source that has been read so far. An
open string shows the current line, which a comment, being able to span many, does not. -/
def Unclosed.diagnostic (file : String) (source : List Char) (pos : Position) (read : Reading) :
    Unclosed → Diagnostic
  | comment =>
    { problem := .unterminatedComment
      location := some (pos.inFile file)
      hint := some "add closing */ to terminate the comment" }
  | string =>
    .unterminatedString (some (pos.inFile file)) (some (String.ofList (read.line source)))

/-- Cuts a source into tokens, up to the end or to the first piece that is left open. -/
def scan (source : String) (file : String) : Lexed :=
  let chars := source.toList
  let cutting := cutAll chars
  let placed := place file {} cutting.pieces
  let before := cutting.pieces.flatMap Piece.source
  ⟨placed.1, cutting.unclosed.map fun u =>
    u.1.diagnostic file chars placed.2 (Reading.afterAll {} (before ++ u.1.covered u.2))⟩

end Jack.Token

import Jack.Listing
import Jack.Proofs.Syntax
import Mathlib.Algebra.Ring.Int.Defs
import Mathlib.Data.List.Forall2

/-!
# Derivation trees and their listings

The derivation of a phrase as a tree of its own: leaves are lexemes, and an inner node is a
production that has an element. What is written of a tree (`Derivation.lines`) is defined by
recursion, the parts of an element standing two blanks deeper than its tags.

A listing is made from marks, which know nothing of trees. A tree has marks as well
(`Derivation.marks`), and a listing of these is the tree as it is written (`lines_marks`). In the
marks of a tree the tags nest and close (`openTags_marks`), hence the depth returns to where it was
(`sum_shift_of_openTags`), and the tokens are the leaves (`ClassDecl.lexemes_marks`).

Marks of a tree hold tokens that stand nowhere in particular, so they are all put at one place,
which plays no role in a listing.
-/

namespace Jack

/-- A lexeme, or an element with the derivations of its parts. -/
inductive Derivation where
  | leaf (l : Lexeme)
  | node (e : Element) (parts : List Derivation)

/-- A lexeme as an element. -/
def Lexeme.markup (l : Lexeme) : String :=
  s!"<{l.kind.tag}> {Token.escaped l.text} </{l.kind.tag}>"

namespace Derivation

mutual

/-- A derivation as it is written. -/
def lines : Derivation → List String
  | leaf l => [l.markup]
  | node e parts => s!"<{e.tag}>" :: (linesOf parts).map ("  " ++ ·) ++ [s!"</{e.tag}>"]

def linesOf : List Derivation → List String
  | [] => []
  | d :: ds => d.lines ++ linesOf ds

end

/-- The text of a derivation. -/
def render (d : Derivation) : String :=
  String.intercalate "\n" d.lines

mutual

/-- The marks of a derivation, all tokens being at `l`. -/
def marks (l : Location) : Derivation → List Mark
  | leaf x => [.token ⟨x.kind, x.text, l⟩]
  | node e parts => .opened e.tag :: marksOf l parts ++ [.closed e.tag]

def marksOf (l : Location) : List Derivation → List Mark
  | [] => []
  | d :: ds => d.marks l ++ marksOf l ds

end

variable {l : Location}

@[simp] theorem marksOf_nil : marksOf l [] = [] := by
  rw [marksOf]

@[simp] theorem marksOf_cons (d : Derivation) (ds : List Derivation) :
    marksOf l (d :: ds) = d.marks l ++ marksOf l ds := by
  rw [marksOf]

@[simp] theorem marksOf_append (ds es : List Derivation) :
    marksOf l (ds ++ es) = marksOf l ds ++ marksOf l es := by
  induction ds with
  | nil => simp
  | cons d ds ih => simp [ih]

@[simp] theorem marks_leaf (x : Lexeme) : (leaf x).marks l = [.token ⟨x.kind, x.text, l⟩] := by
  rw [marks]

@[simp] theorem marks_node (e : Element) (parts : List Derivation) :
    (node e parts).marks l = .opened e.tag :: marksOf l parts ++ [.closed e.tag] := by
  rw [marks]

end Derivation

/-! ## Marks -/

/-- The mark with its token at `l`. -/
def Mark.at (l : Location) : Mark → Mark
  | token t => token ⟨t.kind, t.text, l⟩
  | m => m

/-- The token that a mark notes. -/
def Mark.token? : Mark → Option Token
  | token t => some t
  | _ => none

namespace Listing

/-- The tokens that marks note. -/
def tokens (ms : List Mark) : List Token := ms.filterMap Mark.token?

/-- The lexemes that marks note. -/
def lexemes (ms : List Mark) : List Lexeme := (tokens ms).map Token.lexeme

/-- The lines of a listing that note tokens. -/
def tokenLines (depth : Int) (ms : List Mark) : List String :=
  (((lines depth ms).zip ms).filter fun p => p.2.token?.isSome).map Prod.fst

/-- The tags that are open behind marks, the innermost first; nothing if a mark closes another tag
than the innermost. -/
def openTags : List String → List Mark → Option (List String)
  | tags, [] => some tags
  | tags, .opened tag :: ms => openTags (tag :: tags) ms
  | tags, .token _ :: ms => openTags tags ms
  | [], .closed _ :: _ => none
  | tag :: tags, .closed tag' :: ms => if tag = tag' then openTags tags ms else none

variable {l : Location}

@[simp] theorem tokens_append (ms ns : List Mark) : tokens (ms ++ ns) = tokens ms ++ tokens ns :=
  List.filterMap_append

@[simp] theorem lexemes_append (ms ns : List Mark) :
    lexemes (ms ++ ns) = lexemes ms ++ lexemes ns := by
  simp [lexemes]

theorem lexemes_at (ms : List Mark) : lexemes (ms.map (Mark.at l)) = lexemes ms := by
  induction ms with
  | nil => rfl
  | cons m ms ih =>
      cases m with
      | token t => exact congrArg (t.lexeme :: ·) ih
      | _ => exact ih

theorem lines_at (depth : Int) (ms : List Mark) :
    lines depth (ms.map (Mark.at l)) = lines depth ms := by
  induction ms generalizing depth with
  | nil => rfl
  | cons m ms ih => cases m <;> simp only [List.map_cons, lines, ih] <;> rfl

theorem openTags_at (tags : List String) (ms : List Mark) :
    openTags tags (ms.map (Mark.at l)) = openTags tags ms := by
  fun_induction openTags tags ms with
  | case1 tags => rfl
  | case2 tags tag ms ih => exact ih
  | case3 tags t ms ih => exact ih
  | case4 tag ms => rfl
  | case5 tags tag ms ih => simpa [Mark.at, openTags] using ih
  | case6 tag tags tag' ms hne => simp [Mark.at, openTags, hne]

/-- Every line that notes a token is its markup, behind blanks. -/
theorem tokenLines_eq (depth : Int) (ms : List Mark) :
    List.Forall₂ (fun line t => ∃ d, line = indent d ++ t.markup) (tokenLines depth ms)
      (tokens ms) := by
  induction ms generalizing depth with
  | nil => exact .nil
  | cons m ms ih =>
      cases m with
      | token t => exact .cons ⟨depth, rfl⟩ (ih _)
      | opened tag | closed tag => exact ih _

/-- The depth follows the number of open tags. -/
theorem sum_shift_of_openTags {tags tags' : List String} {ms : List Mark}
    (h : openTags tags ms = some tags') :
    (tags.length : Int) + (ms.map Mark.shift).sum = tags'.length := by
  fun_induction openTags tags ms with
  | case1 tags =>
      obtain rfl := Option.some.inj h
      simp
  | case2 tags tag ms ih =>
      have := ih h
      simp only [List.length_cons, List.map_cons, Mark.shift, List.sum_cons] at this ⊢
      omega
  | case3 tags t ms ih =>
      have := ih h
      simp only [List.map_cons, Mark.shift, List.sum_cons] at this ⊢
      omega
  | case4 => cases h
  | case5 tags tag ms ih =>
      have := ih h
      simp only [List.length_cons, List.map_cons, Mark.shift, List.sum_cons] at this ⊢
      omega
  | case6 => cases h

/-- One level deeper is two blanks more. -/
theorem indent_succ (depth : Nat) : indent (depth + 1 : Nat) = indent depth ++ "  " := by
  have hblanks : 2 * ((depth + 1 : Nat) : Int).toNat = 2 * (depth : Int).toNat + 2 := by omega
  rw [indent, hblanks, ← List.replicate_append_replicate, String.ofList_append]
  rfl

end Listing

/-! ## Listings of derivations -/

namespace Derivation

open Listing (openTags lexemes)

variable {l : Location}

mutual

/-- The marks of a derivation are listed as it is written. -/
theorem lines_marks : ∀ (d : Derivation) (depth : Nat) (ms : List Mark),
    Listing.lines depth (d.marks l ++ ms) =
      d.lines.map (Listing.indent depth ++ ·) ++ Listing.lines depth ms
  | leaf x, depth, ms => by
      simp only [marks_leaf, lines, List.cons_append, List.nil_append, Listing.lines, Mark.depth,
        Mark.shift, Int.add_zero]
      rfl
  | node e parts, depth, ms => by
      have hparts := linesOf_marksOf parts (depth + 1) (.closed e.tag :: ms)
      have hdepth : ((depth + 1 : Nat) : Int) = depth + 1 := rfl
      have hshift : (depth : Int) + 1 + -1 = depth := by omega
      have hclosed : (depth : Int) + 1 - 1 = depth := by omega
      rw [hdepth] at hparts
      simp only [marks_node, lines, List.cons_append, List.append_assoc, List.nil_append,
        Listing.lines, Mark.depth, Mark.shift, hparts, hshift, hclosed]
      rw [← hdepth, Listing.indent_succ]
      simp [Mark.text, String.append_assoc, Function.comp_def]

theorem linesOf_marksOf : ∀ (ds : List Derivation) (depth : Nat) (ms : List Mark),
    Listing.lines depth (marksOf l ds ++ ms) =
      (linesOf ds).map (Listing.indent depth ++ ·) ++ Listing.lines depth ms
  | [], depth, ms => by simp [linesOf]
  | d :: ds, depth, ms => by
      rw [marksOf_cons, List.append_assoc, lines_marks d, linesOf_marksOf ds, linesOf,
        List.map_append, List.append_assoc]

end

mutual

/-- A derivation closes what it opens. -/
theorem openTags_marks : ∀ (d : Derivation) (tags : List String) (ms : List Mark),
    openTags tags (d.marks l ++ ms) = openTags tags ms
  | leaf x, tags, ms => by simp [openTags]
  | node e parts, tags, ms => by
      simp [openTags, openTags_marksOf parts]

theorem openTags_marksOf : ∀ (ds : List Derivation) (tags : List String) (ms : List Mark),
    openTags tags (marksOf l ds ++ ms) = openTags tags ms
  | [], tags, ms => rfl
  | d :: ds, tags, ms => by
      rw [marksOf_cons, List.append_assoc, openTags_marks d, openTags_marksOf ds]

end

theorem render_marks (d : Derivation) : Listing.render (d.marks l) = d.render := by
  have hlines := lines_marks (l := l) d 0 []
  have hindent : Listing.indent ((0 : Nat) : Int) = "" := rfl
  rw [List.append_nil, hindent] at hlines
  simp only [String.empty_append, List.map_id', Listing.lines, List.append_nil] at hlines
  exact congrArg (String.intercalate "\n") hlines

end Derivation

/-! ## Derivations of syntax trees -/

namespace Syntax

open Jack.Derivation (leaf node)
open Compile.Goal (openBrace closeBrace)

mutual

def Expression.derivation : Expression → Derivation
  | .mk first rest => node .expression (node .term first.parts :: rest.parts)

def Operations.parts : Operations → List Derivation
  | .nil => []
  | .cons op operand rest => leaf (.word op.sign) :: node .term operand.parts :: rest.parts

/-- The parts of a term. A call has no element of its own. -/
def Term.parts : Term → List Derivation
  | .integer digits => [leaf ⟨.integer, digits⟩]
  | .string text => [leaf ⟨.string, text⟩]
  | .constant k => [leaf (.word k.word)]
  | .this => [leaf (.word "this")]
  | .unary op operand => [leaf (.word op.sign), node .term operand.parts]
  | .parens e => [leaf (.word "("), e.derivation, leaf (.word ")")]
  | .var x => [leaf (.name x)]
  | .element x index => [leaf (.name x), leaf (.word "["), index.derivation, leaf (.word "]")]
  | .call c => c.parts

def Call.parts : Call → List Derivation
  | .unqualified callee arguments =>
    [leaf (.name callee), leaf (.word "("), node .expressionList arguments.parts,
      leaf (.word ")")]
  | .qualified qualifier callee arguments =>
    [leaf (.name qualifier), leaf (.word "."), leaf (.name callee), leaf (.word "("),
      node .expressionList arguments.parts, leaf (.word ")")]

def Arguments.parts : Arguments → List Derivation
  | .nil => []
  | .cons e rest => e.derivation :: rest.moreParts

/-- The arguments behind a first one, each with its comma. -/
def Arguments.moreParts : Arguments → List Derivation
  | .nil => []
  | .cons e rest => leaf (.word ",") :: e.derivation :: rest.moreParts

end

mutual

def Statement.derivation : Statement → Derivation
  | .assign x value =>
    node .letStatement [leaf (.word "let"), leaf (.name x), leaf (.word "="), value.derivation,
      leaf (.word ";")]
  | .assignElement x index value =>
    node .letStatement [leaf (.word "let"), leaf (.name x), leaf (.word "["), index.derivation,
      leaf (.word "]"), leaf (.word "="), value.derivation, leaf (.word ";")]
  | .conditional condition body alternative =>
    node .ifStatement ([leaf (.word "if"), leaf (.word "("), condition.derivation,
      leaf (.word ")"), leaf (.word openBrace), node .statements body.parts,
      leaf (.word closeBrace)] ++ alternative.parts)
  | .loop condition body =>
    node .whileStatement [leaf (.word "while"), leaf (.word "("), condition.derivation,
      leaf (.word ")"), leaf (.word openBrace), node .statements body.parts,
      leaf (.word closeBrace)]
  | .perform c => node .doStatement (leaf (.word "do") :: c.parts ++ [leaf (.word ";")])
  | .yield none => node .returnStatement [leaf (.word "return"), leaf (.word ";")]
  | .yield (some value) =>
    node .returnStatement [leaf (.word "return"), value.derivation, leaf (.word ";")]

def Alternative.parts : Alternative → List Derivation
  | .absent => []
  | .present body =>
    [leaf (.word "else"), leaf (.word openBrace), node .statements body.parts,
      leaf (.word closeBrace)]

def Block.parts : Block → List Derivation
  | .nil => []
  | .cons s rest => s.derivation :: rest.parts

end

/-- A declaration of local variables. -/
def VarDec.derivation (d : VarDec) : Derivation :=
  node .varDec ((Lexeme.word "var" :: d.spelling).map leaf)

def ClassVarDec.derivation (d : ClassVarDec) : Derivation :=
  node .classVarDec (d.spelling.map leaf)

def Subroutine.derivation (s : Subroutine) : Derivation :=
  node .subroutineDec
    [leaf (.word s.kind.name), leaf (returnLexeme s.returnType), leaf (.name s.name),
      leaf (.word "("), node .parameterList ((parametersSpelling s.parameters).map leaf),
      leaf (.word ")"),
      node .subroutineBody (leaf (.word openBrace) :: s.locals.map VarDec.derivation ++
        [node .statements s.body.parts, leaf (.word closeBrace)])]

def ClassDecl.derivation (c : ClassDecl) : Derivation :=
  node .classDecl ([leaf (.word "class"), leaf (.name c.name), leaf (.word openBrace)] ++
    c.vars.map ClassVarDec.derivation ++ c.subroutines.map Subroutine.derivation ++
      [leaf (.word closeBrace)])

/-! The leaves of a derivation are what the tree spells. -/

section Leaves

open Jack.Derivation (marksOf)
open Listing (lexemes)

variable (l : Location)

@[simp] theorem lexemes_nil : lexemes [] = [] := rfl

@[simp] theorem lexemes_token (x : Lexeme) (ms : List Mark) :
    lexemes (.token ⟨x.kind, x.text, l⟩ :: ms) = x :: lexemes ms := rfl

@[simp] theorem lexemes_opened (tag : String) (ms : List Mark) :
    lexemes (.opened tag :: ms) = lexemes ms := rfl

@[simp] theorem lexemes_closed (tag : String) (ms : List Mark) :
    lexemes (.closed tag :: ms) = lexemes ms := rfl

@[simp] theorem lexemes_leaves (ls : List Lexeme) : lexemes (marksOf l (ls.map leaf)) = ls := by
  induction ls with
  | nil => rfl
  | cons x ls ih => simp [ih]

/-- Phrases one behind the other. -/
theorem lexemes_flatMap {α : Type} (derivation : α → Derivation) (spelling : α → List Lexeme)
    (h : ∀ x, lexemes ((derivation x).marks l) = spelling x) (xs : List α) :
    lexemes (marksOf l (xs.map derivation)) = xs.flatMap spelling := by
  induction xs with
  | nil => rfl
  | cons x xs ih => simp [h, ih]

mutual

theorem Expression.lexemes_marks : ∀ e : Expression, lexemes (e.derivation.marks l) = e.spelling
  | .mk t o => by
      simp [Expression.derivation, Expression.spelling, t.lexemes_parts, o.lexemes_parts]

theorem Operations.lexemes_parts : ∀ o : Operations, lexemes (marksOf l o.parts) = o.spelling
  | .nil => rfl
  | .cons op t o => by
      simp [Operations.parts, Operations.spelling, t.lexemes_parts, o.lexemes_parts]

theorem Term.lexemes_parts : ∀ t : Term, lexemes (marksOf l t.parts) = t.spelling
  | .integer _ | .string _ | .constant _ | .this | .var _ => rfl
  | .unary op t => by simp [Term.parts, Term.spelling, t.lexemes_parts]
  | .parens e => by simp [Term.parts, Term.spelling, e.lexemes_marks]
  | .element x i => by simp [Term.parts, Term.spelling, i.lexemes_marks]
  | .call c => c.lexemes_parts

theorem Call.lexemes_parts : ∀ c : Call, lexemes (marksOf l c.parts) = c.spelling
  | .unqualified f a => by simp [Call.parts, Call.spelling, a.lexemes_parts]
  | .qualified q f a => by simp [Call.parts, Call.spelling, a.lexemes_parts]

theorem Arguments.lexemes_parts : ∀ a : Arguments, lexemes (marksOf l a.parts) = a.spelling
  | .nil => rfl
  | .cons e a => by
      simp [Arguments.parts, Arguments.spelling, e.lexemes_marks, a.lexemes_moreParts]

theorem Arguments.lexemes_moreParts :
    ∀ a : Arguments, lexemes (marksOf l a.moreParts) = a.moreSpelling
  | .nil => rfl
  | .cons e a => by
      simp [Arguments.moreParts, Arguments.moreSpelling, e.lexemes_marks, a.lexemes_moreParts]

end

mutual

theorem Statement.lexemes_marks : ∀ s : Statement, lexemes (s.derivation.marks l) = s.spelling
  | .assign x e => by simp [Statement.derivation, Statement.spelling, e.lexemes_marks]
  | .assignElement x i e => by
      simp [Statement.derivation, Statement.spelling, i.lexemes_marks, e.lexemes_marks]
  | .conditional e b a => by
      simp [Statement.derivation, Statement.spelling, e.lexemes_marks, b.lexemes_parts,
        a.lexemes_parts]
  | .loop e b => by
      simp [Statement.derivation, Statement.spelling, e.lexemes_marks, b.lexemes_parts]
  | .perform c => by simp [Statement.derivation, Statement.spelling, c.lexemes_parts]
  | .yield none => by simp [Statement.derivation, Statement.spelling]
  | .yield (some e) => by simp [Statement.derivation, Statement.spelling, e.lexemes_marks]

theorem Alternative.lexemes_parts : ∀ a : Alternative, lexemes (marksOf l a.parts) = a.spelling
  | .absent => rfl
  | .present b => by simp [Alternative.parts, Alternative.spelling, b.lexemes_parts]

theorem Block.lexemes_parts : ∀ b : Block, lexemes (marksOf l b.parts) = b.spelling
  | .nil => rfl
  | .cons s b => by simp [Block.parts, Block.spelling, s.lexemes_marks, b.lexemes_parts]

end

theorem Subroutine.lexemes_marks (s : Subroutine) :
    lexemes (s.derivation.marks l) = s.spelling := by
  have hlocals : lexemes (marksOf l (s.locals.map VarDec.derivation)) = localsSpelling s.locals :=
    lexemes_flatMap l _ _ (fun d => by simp [VarDec.derivation]) s.locals
  simp [Subroutine.derivation, Subroutine.spelling, hlocals, s.body.lexemes_parts]

theorem ClassDecl.lexemes_marks (c : ClassDecl) : lexemes (c.derivation.marks l) = c.spelling := by
  have hvars := lexemes_flatMap l ClassVarDec.derivation ClassVarDec.spelling
    (fun d => by simp [ClassVarDec.derivation]) c.vars
  have hsubroutines := lexemes_flatMap l Subroutine.derivation Subroutine.spelling
    (Subroutine.lexemes_marks l) c.subroutines
  simp [ClassDecl.derivation, ClassDecl.spelling, hvars, hsubroutines]

end Leaves

end Syntax

end Jack

import Jack.Proofs.Positions
import Jack.Proofs.Subjects

/-!
# The place of the end

Where a source ends too early there is no token to point at. The complaint gets the place where the
last token ends, reckoned from the place of that token and the length of its text
(`Token.Setting.endOf`). The text is all that the source has of a token, except for a string: its
two quotes are no part of the text (`Lexeme.length_source`), and the place falls short by them.
-/

namespace Jack

open Compile (Options)
open Token (Position)

/-- How many quotes the source of a lexeme has around its text. -/
def Lexeme.quotes (l : Lexeme) : Nat := if l.kind = .string then 2 else 0

theorem Lexeme.length_source (l : Lexeme) : l.source.length = l.text.length + l.quotes := by
  unfold Lexeme.source Lexeme.quotes
  cases l.kind <;> simp [String.length_toList]

/-- Wherever a source ends too early, the complaint has the place behind the last token, less the
quotes of the token. -/
theorem compileSource_ending {o : Options} {source file : String} {d : Diagnostic} {last : Token}
    {expected : String} (hscan : (Token.scan source file).fault = none)
    (hlast : (Token.scan source file).tokens.getLast? = some last)
    (herror : (compileSource o source file).result = .error (.diagnostic d))
    (hfound : d.problem = .unexpectedToken "end of input" expected) :
    ∃ before after, source.toList = before ++ (last.lexeme.source ++ after) ∧
      last.location = (Position.behind before).inFile file ∧
      d.location = some
        { (Position.behind (before ++ last.lexeme.source)).inFile file with
          column := (Position.behind (before ++ last.lexeme.source)).column -
            last.lexeme.quotes } := by
  obtain ⟨before, after, hsource, hstands, hplace⟩ :=
    Token.scan_place (List.mem_of_getLast? hlast)
  refine ⟨before, after, hsource, hplace, ?_⟩
  rcases compileSource_about hscan herror with ⟨t, -, habout⟩ | ⟨expected, rfl⟩
  · -- What stands in place of the end is put in quotes.
    have hnames := habout.names
    rw [hfound] at hnames
    have hquote := congrArg (fun text => text.toList.head?) hnames
    simp [toString] at hquote
  · have hend : Token.Setting.endOf file (Token.scan source file).tokens =
        { last.location with column := last.location.column + last.text.length } := by
      rw [Token.Setting.endOf, hlast]
    have hline := Token.newline_notMem_source hstands
    rw [Position.behind_append before hline, last.lexeme.length_source]
    refine congrArg some (hend.trans ?_)
    rw [hplace]
    have hcolumn (c n q : Nat) : (c : Int) + n = (c + (n + q) : Nat) - q := by omega
    exact congrArg (Location.mk file _) (hcolumn ..)

/-! ## Sources that end too early -/

def lastName : Token := ⟨.identifier, "Main", ⟨"Main.jack", 1, 7⟩⟩

theorem scan_truncated : Token.scan "class Main" "Main.jack" =
    ⟨[⟨.keyword, "class", ⟨"Main.jack", 1, 1⟩⟩, lastName], none⟩ := by
  decide +kernel

theorem compileSource_truncated :
    (compileSource {} "class Main" "Main.jack").result = .error (.diagnostic
      { problem := .unexpectedToken "end of input" "'\x7b'"
        location := some ⟨"Main.jack", 1, 11⟩ }) := by
  rw [compileSource_eq_error_iff (congrArg Token.Lexed.fault scan_truncated), scan_truncated]
  -- Four steps read the two tokens; the fifth wants a third.
  iterate 4 refine (congrArg Compile.Outcome.fault (Compile.run_cons_ok _ rfl)).trans ?_
  exact congrArg Compile.Outcome.fault (Compile.run_cons_error _ rfl)

theorem truncated_ending :
    ∃ d, (compileSource {} "class Main" "Main.jack").result = .error (.diagnostic d) ∧
      ∃ before after, "class Main".toList = before ++ (lastName.lexeme.source ++ after) ∧
        lastName.location = (Position.behind before).inFile "Main.jack" ∧
        d.location = some
          { (Position.behind (before ++ lastName.lexeme.source)).inFile "Main.jack" with
            column := (Position.behind (before ++ lastName.lexeme.source)).column -
              lastName.lexeme.quotes } := by
  have hlast : (Token.scan "class Main" "Main.jack").tokens.getLast? = some lastName := by
    rw [scan_truncated]
    rfl
  exact ⟨_, compileSource_truncated, compileSource_ending
    (congrArg Token.Lexed.fault scan_truncated) hlast compileSource_truncated rfl⟩

/-- A class that ends behind an empty string. -/
def openReturn : String := "class A \x7b function int f() \x7b return \"\""

theorem scan_openReturn : Token.scan openReturn "A.jack" =
    ⟨[⟨.keyword, "class", ⟨"A.jack", 1, 1⟩⟩, ⟨.identifier, "A", ⟨"A.jack", 1, 7⟩⟩,
      ⟨.symbol, Compile.Goal.openBrace, ⟨"A.jack", 1, 9⟩⟩,
      ⟨.keyword, "function", ⟨"A.jack", 1, 11⟩⟩, ⟨.keyword, "int", ⟨"A.jack", 1, 20⟩⟩,
      ⟨.identifier, "f", ⟨"A.jack", 1, 24⟩⟩, ⟨.symbol, "(", ⟨"A.jack", 1, 25⟩⟩,
      ⟨.symbol, ")", ⟨"A.jack", 1, 26⟩⟩, ⟨.symbol, Compile.Goal.openBrace, ⟨"A.jack", 1, 28⟩⟩,
      ⟨.keyword, "return", ⟨"A.jack", 1, 30⟩⟩, ⟨.string, "", ⟨"A.jack", 1, 37⟩⟩], none⟩ := by
  decide +kernel

/-- The string ends the source, and the source is said to end where the string begins. -/
theorem openReturn_ending :
    ∃ d, (compileSource {} openReturn "A.jack").result = .error (.diagnostic d) ∧
      d.problem = .unexpectedToken "end of input" "';'" ∧
      d.location = some ⟨"A.jack", 1, 37⟩ ∧
      (Token.scan openReturn "A.jack").tokens.getLast? =
        some ⟨.string, "", ⟨"A.jack", 1, 37⟩⟩ ∧
      Position.behind openReturn.toList = ⟨1, 39⟩ := by
  have herror : (compileSource {} openReturn "A.jack").result = .error (.diagnostic
      { problem := .unexpectedToken "end of input" "';'"
        location := some ⟨"A.jack", 1, 37⟩ }) := by
    rw [compileSource_eq_error_iff (congrArg Token.Lexed.fault scan_openReturn), scan_openReturn]
    repeat refine (congrArg Compile.Outcome.fault (Compile.run_cons_ok _ rfl)).trans ?_
    exact congrArg Compile.Outcome.fault (Compile.run_cons_error _ rfl)
  refine ⟨_, herror, rfl, rfl, ?_, by decide +kernel⟩
  rw [scan_openReturn]
  rfl

end Jack

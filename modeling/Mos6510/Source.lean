import Mos6510.Assembly
import Mos6510.Statement.Parser
import Mos6510.Token.Lexer

/-!
# Source files

From the text of a source file to its actions.
-/

namespace Mos6510

/-- How source files are read. -/
structure Reader where
  /-- Report the size of each file. -/
  verbose : Bool := false
  /-- Integers visible to scripts. -/
  defines : List (String × Int64) := []
  deriving Inhabited

namespace Reader

/-- Lower lines with the numbers of the session.  An error of a line comes
before what is wrong with the text after it. -/
def lower (lines : List Line) (err : Option Error) : SessionM (List Action) :=
  Assembler.withIds fun ids =>
    match Builder.issueAll lines { ids := ids } with
    | .error err b => .error err b.ids
    | .ok _ b =>
      match err with
      | some err => .error err b.ids
      | none =>
        match b.finish with
        | .ok acts => .ok acts b.ids
        | .error err => .error err b.ids

/-- Read a source file. -/
def actions (r : Reader) (file : String) (text : List Text.Glyph) : SessionM (List Action) := do
  let scan := Lexer.scan r.defines text
  match scan.error with
  | some err => throw (.inSource ⟨file, scan.line⟩ err)
  | none =>
    modify fun s => { s with
      log := s.log.addIf r.verbose (file ++ ": " ++ Text.decimal scan.line ++ " lines, "
        ++ Text.decimal scan.tokens.length ++ " tokens") }
    let (lines, err) := linesOf file scan.tokens
    lower lines err

end Reader

end Mos6510

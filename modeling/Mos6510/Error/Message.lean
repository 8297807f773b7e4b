import Mos6510.Error
import Mos6510.Language
import Mos6510.Text.Quoted

/-!
# Error messages

The wording of every error.  Counts and distances inside a message are written
the way of the reader's language; addresses, opcodes and line numbers never
are.
-/

namespace Mos6510

/-- The wording of a reason of the file system. -/
def FileFault.message : FileFault → String
  | .missing => "file does not exist"
  | .invalid => "invalid argument"
  | .notDirectory => "not a directory"
  | .hostMissing => "no such file or directory"
  | .host reason => reason

def Error.message (lang : Language) : Error → String
  | stackEmpty => "arithmetic stack underrun"
  | stackFull => "arithmetic stack overflow"
  | divisionByZero => "division by zero"
  | pcUnset => "PC(@) not set"
  | illegalMode => "illegal addressing mode"
  | pcWrap => "@ wrapped from $FFFF->$0000"
  | regionOverflow => "region overflow past $FFFF"
  | unknownMnemonic name => "unknown mnemonic '" ++ name ++ "'"
  | branchReach d => "branch out of reach: " ++ lang.number d.toInt
  | macroNesting => ".MACRO definitions only allowed at top level"
  | callInMacro => ".CALL inside .MACRO is forbidden"
  | includeInMacro => ".INCLUDE inside .MACRO is forbidden"
  | duplicateElse => "duplicate .ELSE in .IF"
  | elseIfAfterElse => ".ELIF after .ELSE"
  | metaAction => "meta action executed"
  | metaExecuted kind => "meta action executed: " ++ kind.name
  | noIncluder => "no include resolver configured"
  | includeDepth => "includes nested too deep"
  | loopLimit => "meta loop limit exceeded"
  | notConverged => "output changed between the last two passes"
  | messageFormat => "formatted message needs a format string"
  | blockMismatch none directive => directive ++ " without opening block"
  | blockMismatch (some kind) directive => directive ++ " inside " ++ kind.name ++ " block"
  | blockUnclosed kind => kind.name ++ " block not terminated"
  | undefinedSymbol name => "undefined variable or label '" ++ name ++ "'"
  | uninitialized name => "read access to uninitialized variable '" ++ name ++ "'"
  | duplicateLabel name => "duplicate label '" ++ name ++ "'"
  | conflict name => "'" ++ name ++ "' is used as both a variable and a label"
  | localWithoutParent name => "local name '" ++ name ++ "' used without parent label"
  | unknownMetaLabel name => "unknown .LABEL '" ++ name ++ "'"
  | duplicateMetaLabel name => "duplicate .LABEL '" ++ name ++ "'"
  | unknownMacro name => "unknown macro '" ++ name ++ "'"
  | duplicateMacro name => "duplicate macro definition for '" ++ name ++ "'"
  | macroArgs name expected got =>
    "macro '" ++ name ++ "' argument count mismatch, expected "
      ++ lang.number expected ++ ", got " ++ lang.number got
  | unknownJump j => "jump target " ++ lang.number j ++ " unknown"
  | unknownCounter c => "loop counter " ++ lang.number c ++ " unknown"
  | user text => text
  | openString => "unterminated string"
  | openScript => "unterminated $( expression"
  | expressionExpected => "expression expected"
  | closeExpected => "')' expected"
  | commaExpected => "',' expected"
  | identifierExpected => "identifier expected"
  | stringExpected => "string expected"
  | assignExpected => "'=' expected"
  | indexXExpected => "illegal addressing mode, ',X' expected"
  | indexYExpected => "illegal addressing mode, ',Y' expected"
  | indexExpected => "illegal addressing mode, 'X' or 'Y' expected"
  | emptyDirective => "empty directive"
  | notInteger => "$( expression is not an integer"
  | messageArgs => "message needs at least one argument"
  | badNumber digits => "'" ++ digits ++ "' is not a number"
  | badEscape c => "illegal escape sequence '\\" ++ String.singleton c ++ "'"
  | badCharacter c => "illegal character '" ++ String.singleton c ++ "'"
  | reservedName name => "usage of '__' names is forbidden: " ++ name
  | unknownDirective name => "illegal directive '." ++ name ++ "'"
  | unexpected token => "unexpected " ++ token
  | localParameter name => "macro parameter '" ++ name ++ "' may not be a local name"
  | scriptFailed reason => reason
  | emptyImage => "no code generated"
  | shortImage => "PRG image has no load address"
  | overlap address => "code blocks overlap, conflicting PC $" ++ Text.hex 4 address.toNat
  | jammed => "CPU jammed by KIL opcode"
  | imageTooLarge => "image does not fit below $FFFF"
  | cycleLimit cycles => "exceeded " ++ lang.number cycles.toNat ++ " cycles"
  | illegalOpcode code => "illegal opcode $" ++ Text.hex 2 code.toNat
  | tapeFull => "tape full"
  | cancelled => "context canceled"
  | includeCycle name => "'" ++ name ++ "' includes itself"
  | notFound name folders => "'" ++ name ++ "' not found in " ++ ", ".intercalate folders
  | fileFault fault => fault.message
  | defineForm => "define must be NAME=VALUE"
  | unknownKey key => "unknown configuration key '" ++ key ++ "'"
  | badDocument reason => reason
  | badNumeral .malformed => "invalid syntax"
  | badNumeral .outOfRange => "value out of range"
  | located loc e => loc.render ++ ": " ++ e.message lang
  | expanding name call e =>
    call.render ++ ": in macro " ++ name ++ ": " ++ e.message lang
  | inSource loc e => loc.render ++ ": " ++ e.message lang
  | inScript text e => "$(" ++ text ++ "): " ++ e.message lang
  | running address loc e =>
    if loc.line == 0 then "$" ++ Text.hex 4 address.toNat ++ ": " ++ e.message lang
    else "$" ++ Text.hex 4 address.toNat ++ " (" ++ loc.render ++ "): " ++ e.message lang
  | inFile name e => name ++ ": " ++ e.message lang
  | onPath operation path e => operation ++ " " ++ path ++ ": " ++ e.message lang
  | inDefine text e => "define '" ++ text ++ "': " ++ e.message lang
  | inNumeral digits e =>
    "strconv.ParseInt: parsing " ++ Text.quote false digits ++ ": " ++ e.message lang

end Mos6510

import Asm6502.Processor.Mode
import Asm6502.Processor.Reference
import Asm6502.Processor.Register
import Asm6502.Source.Literal
import Asm6502.Source.Token
import Asm6502.Symbol.Table

/-!
# Causes of diagnostics

Everything that can be wrong with a source, as data.  Each cause belongs to one
of five kinds and has one wording.
-/

namespace Asm6502
namespace Diagnostic

/-!
## Kinds
-/

inductive Kind where
  | lexical
  | grammar
  | duplicateLabel
  | undefinedLabel
  | range
  deriving DecidableEq

namespace Kind

/-- All kinds; the place of a kind in this list is its code. -/
def all : List Kind :=
  [lexical, grammar, duplicateLabel, undefinedLabel, range]

def name : Kind -> String
  | lexical => "Lexical"
  | grammar => "Syntax"
  | duplicateLabel => "Duplicate label"
  | undefinedLabel => "Undefined label"
  | range => "Range"

def summary : Kind -> String
  | lexical => "lexical error"
  | grammar => "syntax error"
  | duplicateLabel => "duplicate label"
  | undefinedLabel => "undefined label"
  | range => "value out of range"

def ofCode? (code : Int) : Option Kind :=
  if code < 0 then none else all[code.toNat]?

def nameOfCode (code : Int) : String :=
  (ofCode? code).elim s!"Kind({code})" name

end Kind

/-!
## Values in messages
-/

/-- A negative value is shown in decimal, a byte with two hexadecimal digits
and anything larger with at least four. -/
def shownValue (value : Int) : String :=
  if value < 0 then toString value
  else
    let width := if 0xFF < value then 4 else 2
    String.ofList ('$' :: (Text.hex width value).upper)

/-!
## Faults of the text
-/

inductive LexicalFault where
  | unexpectedCharacter (c : Char)
  | missingDigits (mark : Text)
  | malformedCharacter
  | unterminatedString
  | unknownEscape (c : Char)
  deriving DecidableEq

def LexicalFault.message : LexicalFault -> String
  | unexpectedCharacter c => "unexpected character " ++ String.ofList ['\'', c, '\'']
  | missingDigits mark => "missing digits after " ++ String.ofList mark
  | malformedCharacter => "malformed character literal"
  | unterminatedString => "unterminated string"
  | unknownEscape c => "unknown escape sequence " ++ String.ofList ['\\', c]

/-!
## Faults of the grammar
-/

inductive Wanted where
  | statement
  | endOfLine
  | numberOrName
  | indexRegister
  | closingParenthesis
  deriving DecidableEq

def Wanted.name : Wanted -> String
  | statement => "label, instruction or directive"
  | endOfLine => "end of line"
  | numberOrName => "number or name"
  | indexRegister => "X"
  | closingParenthesis => "')'"

inductive GrammarFault where
  | unexpected (found : Token) (wanted : Wanted)
  | missingOperand (before : Token)
  | missingValue (before : Token)
  | missingArgument
  | registerName (written : Text)
  | unknownInstruction (written : Text)
  | registerAsImmediate (register : Register)
  | registerAsAddress (register : Register)
  | literal (written : Text) (fault : Literal.Fault)
  deriving DecidableEq

def GrammarFault.message : GrammarFault -> String
  | unexpected found wanted =>
      "unexpected " ++ String.ofList found.describe ++ ", expected " ++ wanted.name
  | missingOperand before =>
      "missing operand after " ++ String.ofList before.describe
  | missingValue before =>
      "missing value after " ++ String.ofList before.describe
  | missingArgument => "missing argument after ','"
  | registerName written => String.ofList written ++ " is a register name"
  | unknownInstruction written =>
      "unknown instruction " ++ String.ofList written.quoted ++
        " (missing ':' after label?)"
  | registerAsImmediate r =>
      "register " ++ r.name ++ " can't be used as an immediate value"
  | registerAsAddress r => "register " ++ r.name ++ " can't be used as an address"
  | literal written fault => fault.message written

/-!
## Faults of instructions
-/

inductive ShorthandFault where
  | needsRegister
  | needsBit
  | cannotBeSet
  deriving DecidableEq

def ShorthandFault.message : ShorthandFault -> String
  | needsRegister => "requires A or FLAGS"
  | needsBit => "requires 0 or 1"
  | cannotBeSet => "can't be set programmatically"

inductive ModeFault where
  | missingOperand
  | register (register : Register)
  | string
  | badIndex
  | badIndirectIndex
  | indexedNonAddress
  | tooMany (count : Nat)
  deriving DecidableEq

def ModeFault.message : ModeFault -> String
  | missingOperand => "missing operand"
  | register r => "register " ++ r.name ++ " can't be used here"
  | string => "string operands are only allowed in directives"
  | badIndex => "second operand must be X or Y"
  | badIndirectIndex => "only (address),Y and (address,X) indexing exist"
  | indexedNonAddress => "indexed addressing needs an address"
  | tooMany count => s!"too many operands ({count})"

inductive InstructionFault where
  | shorthand (name : Shorthand) (fault : ShorthandFault)
  | operands (name : Mnemonic) (fault : ModeFault)
  | unsupported (name : Mnemonic) (mode : Mode)
  deriving DecidableEq

def InstructionFault.message : InstructionFault -> String
  | shorthand s fault => s.name ++ " " ++ fault.message
  | operands m fault => m.name ++ ": " ++ fault.message
  | unsupported m mode =>
      m.name ++ " does not support " ++ mode.name ++ " addressing"

/-!
## Faults of directives
-/

inductive DirectiveFault where
  | unknown (name : Text)
  | argumentCount (name : Text) (least most count : Nat)
  | indirectOperand
  | notYetDefined (name : Text)
  | notAValue
  | movesBack (target current : Int)
  | wantsBytes (name : Text)
  | wantsWords (name : Text)
  | wantsStrings (name : Text)
  | wantsName (name : Text)
  deriving DecidableEq

def DirectiveFault.message : DirectiveFault -> String
  | unknown name => "unknown directive ." ++ String.ofList name
  | argumentCount name least most count =>
      if least = most then
        "." ++ String.ofList name ++ s!" requires {least} argument(s), got {count}"
      else
        "." ++ String.ofList name ++
          s!" requires {least} to {most} arguments, got {count}"
  | indirectOperand => "indirect operand not allowed here"
  | notYetDefined name =>
      String.ofList name ++ " must be defined before it is used here"
  | notAValue => "expected a number or a name"
  | movesBack target current =>
      "can't set address " ++ shownValue target ++
        " lower than current address " ++ shownValue current
  | wantsBytes name =>
      "." ++ String.ofList name ++ " accepts numbers, names and strings"
  | wantsWords name => "." ++ String.ofList name ++ " accepts numbers and names"
  | wantsStrings name => "." ++ String.ofList name ++ " accepts only strings"
  | wantsName name => "." ++ String.ofList name ++ " needs a name first"

/-!
## Faults of values
-/

inductive RangeFault where
  | literal (written : Text)
  | reference (fault : Reference.Fault)
  | fixup (name : Text) (fault : Reference.Fault)
  | pastMemory (count address : Int)
  | negativeCount (count : Int)
  | alignment (value : Int)
  | notAByte (value : Int)
  deriving DecidableEq

def referenceMessage : Reference.Fault -> String
  | .tooFar offset => s!"branch offset {offset} out of range -128..127"
  | .tooWide value width =>
      "value " ++ shownValue value ++ s!" does not fit in {width} byte(s)"

def RangeFault.message : RangeFault -> String
  | literal written =>
      "value " ++ String.ofList written ++
        " not allowed, it must be in range -128..$FFFF"
  | reference fault => referenceMessage fault
  | fixup name fault => String.ofList name ++ ": " ++ referenceMessage fault
  | pastMemory count address =>
      s!"{count} byte(s) at " ++ shownValue address ++
        " run past the end of memory"
  | negativeCount count => s!".fill count {count} is negative"
  | alignment value => s!".align needs a positive value, got {value}"
  | notAByte value => "value " ++ shownValue value ++ " is larger than $FF"

/-!
## All causes
-/

inductive Cause where
  | lexical (fault : LexicalFault)
  | grammar (fault : GrammarFault)
  | instruction (fault : InstructionFault)
  | directive (fault : DirectiveFault)
  | duplicate (duplicate : SymbolTable.Duplicate)
  | undefined (name : Text)
  | range (fault : RangeFault)
  deriving DecidableEq

namespace Cause

def kind : Cause -> Kind
  | lexical _ => .lexical
  | grammar _ | instruction _ | directive _ => .grammar
  | duplicate _ => .duplicateLabel
  | undefined _ => .undefinedLabel
  | range _ => .range

def message : Cause -> String
  | lexical fault => fault.message
  | grammar fault => fault.message
  | instruction fault => fault.message
  | directive fault => fault.message
  | duplicate d => d.message
  | undefined name => "label " ++ String.ofList name ++ " is not defined"
  | range fault => fault.message

end Cause
end Diagnostic
end Asm6502

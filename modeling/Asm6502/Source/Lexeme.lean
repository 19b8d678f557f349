import Asm6502.Diagnostic.Basic
import Asm6502.Text.Blank

/-!
# Lexemes

The scanner cuts source text into tokens.  A lexeme is a token together with the
diagnostics met on the way to it: those of the characters skipped in front of it
and those of the token itself.  The last lexeme is the end of input.
-/

namespace Asm6502

structure Lexeme where
  token : Token
  faults : List Diagnostic
  deriving DecidableEq

namespace Lexeme

/-!
## Character classes
-/

def isWordStart (c : Char) : Bool :=
  c = '_' || c.isAlpha

def isWordPart (c : Char) : Bool :=
  isWordStart c || c.isDigit

def isHexDigit (c : Char) : Bool :=
  c.isDigit || 'a' ≤ c && c ≤ 'f' || 'A' ≤ c && c ≤ 'F'

def isBinaryDigit (c : Char) : Bool :=
  c = '0' || c = '1'

def isPunctuation (c : Char) : Bool :=
  ":,#()=".toList.contains c

def begins (p : Char -> Bool) (t : Text) : Bool :=
  t.head?.any p

/-!
## Readings

A reading is what the scanner makes of the head of the text: at most one token,
the diagnostics it gives rise to, and what is left.
-/

structure Reading where
  token : Option (Token.Kind × Text)
  faults : List Diagnostic
  /-- The position of the rest. -/
  position : Position
  rest : Text

def fault (position : Position) (f : Diagnostic.LexicalFault) : Diagnostic :=
  ⟨.lexical f, position⟩

def Reading.plain (start : Position) (kind : Token.Kind) (text rest : Text) :
    Reading :=
  ⟨some (kind, text), [], start.after text, rest⟩

def wordKind (word : Text) : Token.Kind :=
  match Operation.ofName? (String.ofList word.upper) with
  | some operation => .mnemonic operation
  | none => .identifier

def word (start : Position) (c : Char) (t : Text) : Reading :=
  let text := c :: t.takeWhile isWordPart
  .plain start (wordKind text) text (t.dropWhile isWordPart)

def directive (start : Position) (t : Text) : Reading :=
  .plain start .directive ('.' :: t.takeWhile isWordPart)
    (t.dropWhile isWordPart)

/-- Digits after a sign and the mark of their base.  The token shows the mark in
its usual spelling; digits may be missing. -/
def digits (start : Position) (sign written mark : Text) (p : Char -> Bool)
    (t : Text) : Reading :=
  let run := t.takeWhile p
  { token := some (.number, sign ++ mark ++ run)
    faults := if run.isEmpty then [fault start (.missingDigits mark)] else []
    position := start.after (sign ++ written ++ run)
    rest := t.dropWhile p }

/-- A number by its first digit and what follows; a zero and a letter may be the
mark of a base. -/
def number (start : Position) (sign : Text) (c : Char) (t : Text) : Reading :=
  match c, t with
  | '0', 'x' :: t => digits start sign ['0', 'x'] ['0', 'x'] isHexDigit t
  | '0', 'X' :: t => digits start sign ['0', 'X'] ['0', 'x'] isHexDigit t
  | '0', 'b' :: t => digits start sign ['0', 'b'] ['0', 'b'] isBinaryDigit t
  | '0', 'B' :: t => digits start sign ['0', 'B'] ['0', 'b'] isBinaryDigit t
  | _, _ =>
      .plain start .number (sign ++ c :: t.takeWhile Char.isDigit)
        (t.dropWhile Char.isDigit)

/-- What is skipped of a malformed character: through the next quote, or to the
end of the line. -/
def malformedExtent (t : Text) : Text × Text :=
  let run := t.takeWhile fun c => c != '\n' && c != '\''
  match t.dropWhile fun c => c != '\n' && c != '\'' with
  | '\'' :: rest => (run ++ ['\''], rest)
  | rest => (run, rest)

/-- A character literal, after its opening quote.  The null character ends the
input and is not taken for a literal. -/
def character (start : Position) (t : Text) : Reading :=
  let malformed : Reading :=
    { token := none
      faults := [fault start .malformedCharacter]
      position := start.after ('\'' :: (malformedExtent t).1)
      rest := (malformedExtent t).2 }
  match t with
  | c :: '\'' :: rest =>
      if c = '\x00' || c = '\n' then malformed
      else .plain start .number ['\'', c, '\''] rest
  | _ => malformed

def escaped? (c : Char) : Option Char :=
  [('n', '\n'), ('t', '\t'), ('r', '\r'), ('0', '\x00'), ('\\', '\\'),
    ('"', '"')].lookup c

/-- A string after its opening quote.  The contents read so far and their
diagnostics are kept last first.  A backslash takes the next character with it,
whatever it is. -/
def string (start : Position) (contents : Text) (faults : List Diagnostic)
    (position : Position) : Text -> Reading
  | [] => unterminated []
  | '"' :: rest =>
      ⟨some (.string, contents.reverse), faults.reverse, position.next '"', rest⟩
  | ['\\'] =>
      string start contents (fault position (.unknownEscape '\x00') :: faults)
        (position.next '\\') []
  | '\\' :: e :: rest =>
      match escaped? e with
      | some c =>
          string start (c :: contents) faults ((position.next '\\').next e) rest
      | none =>
          string start contents (fault position (.unknownEscape e) :: faults)
            ((position.next '\\').next e) rest
  | c :: rest =>
      if c = '\n' then unterminated (c :: rest)
      else string start (c :: contents) faults (position.next c) rest
where
  unterminated (rest : Text) : Reading :=
    ⟨some (.string, contents.reverse),
      (fault start .unterminatedString :: faults).reverse, position, rest⟩

/-!
## Openings

The first character, and for some of them the second one, decide what is read.
-/

inductive Opening where
  | blank
  | comment
  | word
  | number
  | hexNumber
  | binaryNumber
  | negative
  | character
  | string
  | directive
  | punctuation
  | other
  deriving DecidableEq

def opening (c : Char) (t : Text) : Opening :=
  if isBlank c then .blank
  else if c = ';' then .comment
  else if isWordStart c then .word
  else if c.isDigit then .number
  else if c = '$' && begins isHexDigit t then .hexNumber
  else if c = '%' && begins isBinaryDigit t then .binaryNumber
  else if c = '-' && begins Char.isDigit t then .negative
  else if c = '\'' then .character
  else if c = '"' then .string
  else if c = '.' && begins isWordStart t then .directive
  else if isPunctuation c then .punctuation
  else .other

def unexpected (start : Position) (c : Char) (t : Text) : Reading :=
  ⟨none, [fault start (.unexpectedCharacter c)], start.next c, t⟩

def comment (start : Position) (c : Char) (t : Text) : Reading :=
  ⟨none, [], start.after (c :: t.takeWhile (· != '\n')),
    t.dropWhile (· != '\n')⟩

/-- A minus sign belongs to the digit after it. -/
def negative (start : Position) (c : Char) (t : Text) : Reading :=
  match t with
  | d :: rest => number start [c] d rest
  | [] => unexpected start c t

def read (start : Position) (c : Char) (t : Text) : Reading :=
  match opening c t with
  | .blank => ⟨none, [], start.next c, t⟩
  | .comment => comment start c t
  | .word => word start c t
  | .number => number start [] c t
  | .hexNumber => digits start [] [c] [c] isHexDigit t
  | .binaryNumber => digits start [] [c] [c] isBinaryDigit t
  | .negative => negative start c t
  | .character => character start t
  | .string => string start [] [] (start.next c) t
  | .directive => directive start t
  | .punctuation => .plain start .punctuation [c] t
  | .other => unexpected start c t

end Lexeme
end Asm6502

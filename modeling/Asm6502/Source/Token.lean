import Asm6502.Source.Operation
import Asm6502.Source.Position
import Asm6502.Text.Quoted

/-!
# Tokens

A token is a lexical class, the text of the source and the position of its
first character.  The text of a string token is its contents, with the escapes
already replaced.
-/

namespace Asm6502

inductive Token.Kind where
  | endOfInput
  | mnemonic (operation : Operation)
  | identifier
  | number
  | string
  | directive
  | punctuation
  deriving DecidableEq

structure Token where
  kind : Token.Kind
  text : Text
  position : Position
  deriving DecidableEq

namespace Token

def Kind.name : Kind -> String
  | endOfInput => "EOF"
  | mnemonic _ => "MNEMONIC"
  | identifier => "IDENTIFIER"
  | number => "NUMBER"
  | string => "STRING"
  | directive => "DIRECTIVE"
  | punctuation => "PUNCTUATION"

def Kind.names : List String :=
  ["EOF", "MNEMONIC", "IDENTIFIER", "NUMBER", "STRING", "DIRECTIVE",
    "PUNCTUATION"]

def Kind.nameOfCode (code : Int) : String :=
  (if code < 0 then none else names[code.toNat]?).getD s!"TokenKind({code})"

def isMark (mark : Char) (t : Token) : Bool :=
  t.kind = .punctuation && t.text = [mark]

def describe (t : Token) : Text :=
  match t.kind with
  | .endOfInput => "end of input".toList
  | .string => "string ".toList ++ t.text.quoted
  | _ => t.text.quoted

def dump (t : Token) : Text :=
  Text.padRight 11 t.kind.name.toList ++ [' '] ++
    Text.padRight 12 t.text.quoted ++ " line ".toList ++
    Text.decimal t.position.line ++ " col ".toList ++
    Text.decimal t.position.column

end Token
end Asm6502

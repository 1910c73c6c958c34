import Reprint.Text.Position

/-! # What can be wrong with a text -/

namespace Reprint

/-- No lexeme starts at the position. -/
inductive LexError where
  | invalidCharacter (c : Char) (position : Position)
  | unterminatedComment (position : Position)
  | unterminatedString (position : Position)
deriving DecidableEq

/-- The token at the position does not fit the grammar. -/
structure ParseError where
  /-- What would have fitted. -/
  expected : String
  /-- What stands there. -/
  found : String
  position : Position
deriving DecidableEq

inductive SyntaxError where
  | lex (e : LexError)
  | parse (e : ParseError)
deriving DecidableEq

def LexError.position : LexError → Position
  | invalidCharacter _ p => p
  | unterminatedComment p => p
  | unterminatedString p => p

def LexError.message : LexError → String
  | invalidCharacter c p => "invalid character `" ++ String.singleton c ++ "` at " ++ p.text
  | unterminatedComment p => "unterminated block comment starting at " ++ p.text
  | unterminatedString p => "unterminated string literal starting at " ++ p.text

def ParseError.message (e : ParseError) : String :=
  "expected " ++ e.expected ++ ", found " ++ e.found ++ " at " ++ e.position.text

def SyntaxError.message : SyntaxError → String
  | lex e => e.message
  | parse e => e.message

end Reprint

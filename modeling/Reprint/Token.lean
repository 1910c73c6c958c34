import Reprint.Comment
import Reprint.Numeral

/-!
# Tokens and lexemes

A lexeme is a token or a comment. Everything else in a text is white space.
-/

namespace Reprint

inductive Token where
  | number (n : Numeral)
  | bool (b : Bool)
  | null
  /-- The quotes and the escapes are kept. -/
  | string (raw : String)
  | ident (name : String)
  | equals
  | openParen
  | closeParen
  | openBrace
  | closeBrace
  | comma
  | semicolon
  | function
  | var
  | this
deriving DecidableEq

inductive Lexeme where
  | token (t : Token)
  | comment (c : Comment)
deriving DecidableEq

namespace Token

/-! ## Spelling -/

/-- The token as it stands in a text. -/
def spelling : Token → String
  | number n => n.raw
  | bool true => "true"
  | bool false => "false"
  | null => "null"
  | string raw => raw
  | ident name => name
  | equals => "="
  | openParen => "("
  | closeParen => ")"
  | openBrace => "\x7b"
  | closeBrace => "\x7d"
  | comma => ","
  | semicolon => ";"
  | function => "function"
  | var => "var"
  | this => "this"

/-- The token that a word spells: one of the six reserved words, or else an identifier. -/
def ofWord : String → Token
  | "true" => bool true
  | "false" => bool false
  | "null" => null
  | "function" => function
  | "var" => var
  | "this" => this
  | word => ident word

/-- The token that is a single character of punctuation. -/
def ofPunctuation? : Char → Option Token
  | '=' => some equals
  | '(' => some openParen
  | ')' => some closeParen
  | '\x7b' => some openBrace
  | '\x7d' => some closeBrace
  | ',' => some comma
  | ';' => some semicolon
  | _ => none

theorem spelling_ofWord (word : String) : (ofWord word).spelling = word := by
  unfold ofWord
  split <;> rfl

theorem spelling_of_ofPunctuation? {c : Char} {t : Token} (h : ofPunctuation? c = some t) :
    t.spelling.toList = [c] := by
  unfold ofPunctuation? at h
  split at h <;> cases h <;> rfl

/-! ## Messages and binding -/

/-- The token as messages name it. -/
def describe : Token → String
  | number n => "number `" ++ n.raw ++ "`"
  | string raw => "string " ++ raw
  | ident name => "identifier `" ++ name ++ "`"
  | t => "`" ++ t.spelling ++ "`"

/-- How tightly an infix operator holds its left and its right operand. Assignment holds the right
one less tightly, so that a chain of assignments nests to the right. -/
def bindingPower? : Token → Option (Nat × Nat)
  | equals => some (3, 2)
  | _ => none

end Token

namespace Lexeme

def spelling : Lexeme → String
  | token t => t.spelling
  | comment c => c.text

def describe : Lexeme → String
  | token t => t.describe
  | comment _ => "comment"

end Lexeme

end Reprint

import Reprint.Error
import Reprint.Token.Scan

/-!
# Cutting a text into lexemes

White space is skipped and lexemes are scanned until the text ends or no lexeme starts.
-/

namespace Reprint

/-- Why no lexeme starts with `c :: cs` at `p`. -/
def lexErrorAt (p : Position) (c : Char) (cs : List Char) : LexError :=
  if c = '/' ∧ cs.head? = some '*' then .unterminatedComment p
  else if isQuote c then .unterminatedString p
  else .invalidCharacter c p

/-- The lexemes of a text that starts at `p`. -/
def lexFrom (p : Position) : List Char → Except LexError (List (Located Lexeme))
  | [] => .ok []
  | c :: cs =>
    if isSpace c then lexFrom (p.next c) cs
    else match _h : scan c cs with
      | none => .error (lexErrorAt p c cs)
      | some (x, rest) =>
        let stop := p.after x.spelling.toList
        (lexFrom stop rest).map (⟨x, ⟨p, stop⟩⟩ :: ·)
termination_by cs => cs.length
decreasing_by
  · simp
  · simpa [Nat.lt_succ_iff] using length_of_scan ‹_›

/-- The lexemes of a text in order, comments included. -/
def tokenize (text : String) : Except LexError (List (Located Lexeme)) :=
  lexFrom .origin text.toList

end Reprint

import Reprint.Error
import Reprint.Journal
import Reprint.Token.Lexer

/-!
# Cursors

A cursor is a place between the tokens of a text. It holds the tokens ahead, each with the
comments that follow it, and the queue of comments that were passed and have no owner yet.
-/

namespace Reprint

/-- A token and the comments between it and the next token. -/
structure Piece where
  token : Token
  span : Span
  after : List (Located Comment)
deriving DecidableEq

/-- Groups lexemes by token: the comments before the first token, and the pieces. -/
def pieces : List (Located Lexeme) → List (Located Comment) × List Piece
  | [] => ([], [])
  | ⟨.comment c, span⟩ :: ls =>
    let (before, ps) := pieces ls
    (⟨c, span⟩ :: before, ps)
  | ⟨.token t, span⟩ :: ls =>
    let (after, ps) := pieces ls
    ([], ⟨t, span, after⟩ :: ps)

structure Cursor where
  ahead : List Piece
  /-- The comments passed that have no owner yet, in the order of the text. -/
  queue : List (Located Comment)
  /-- Where the last token passed ends. -/
  prevStop : Position
  /-- Where the text ends. -/
  textStop : Position
  journal : Journal

/-- What would have fitted in place of an unexpected token. -/
inductive Expected where
  | token (t : Token)
  | endOfInput
  | identifier
  | commaOrCloseParen
  | expression
  | endOfExpression

def Expected.text : Expected → String
  | token t => t.describe
  | endOfInput => "end of input"
  | identifier => "identifier"
  | commaOrCloseParen => "`,` or `)`"
  | expression => "expression"
  | endOfExpression => "end of expression (only identifiers can be assigned to)"

namespace Cursor

def ofLexemes (ls : List (Located Lexeme)) (textStop : Position) (journal : Journal) : Cursor :=
  let (before, ps) := pieces ls
  ⟨ps, before, .origin, textStop, journal⟩

/-- The number of tokens ahead. -/
def left (c : Cursor) : Nat := c.ahead.length

/-- The next token; there is none at the end of the text. -/
def token? (c : Cursor) : Option Token := c.ahead.head?.map Piece.token

/-- Where the next token starts. -/
def here (c : Cursor) : Position :=
  match c.ahead with
  | p :: _ => p.span.start
  | [] => c.textStop

/-- The next token as messages name it. -/
def found (c : Cursor) : String :=
  match c.token? with
  | some t => t.describe
  | none => "end of input"

def unexpected (c : Cursor) (expected : Expected) : ParseError :=
  ⟨expected.text, c.found, c.here⟩

/-- Passes the next token and queues the comments behind it. -/
def advance (c : Cursor) : Cursor :=
  match c.ahead with
  | p :: ps => { c with ahead := ps, queue := c.queue ++ p.after, prevStop := p.span.stop }
  | [] => c

def withQueue (c : Cursor) (queue : List (Located Comment)) : Cursor :=
  { c with queue }

def record (c : Cursor) (r : Record) : Cursor :=
  { c with journal := c.journal.push r }

/-- The queued comments without their places. -/
def comments (c : Cursor) : List Comment := c.queue.map Located.value

@[simp] theorem left_withQueue (c : Cursor) (q : List (Located Comment)) :
    (c.withQueue q).left = c.left := rfl

@[simp] theorem left_record (c : Cursor) (r : Record) : (c.record r).left = c.left := rfl

theorem left_advance_lt {c : Cursor} {t : Token} (h : c.token? = some t) :
    c.advance.left < c.left := by
  unfold token? at h
  unfold advance left
  cases hc : c.ahead with
  | nil => simp [hc] at h
  | cons p ps => simp

end Cursor

end Reprint

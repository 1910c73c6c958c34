import Reprint.Text.Blank

/-! # Comments -/

namespace Reprint

inductive CommentKind where
  /-- From two slashes to the end of the line. -/
  | line
  /-- Between a slash with a star and a star with a slash. -/
  | block
deriving DecidableEq

structure Comment where
  kind : CommentKind
  /-- The delimiters included. -/
  text : String
deriving DecidableEq

/-- The text of a comment on one line. -/
def Comment.flat (c : Comment) : String := flatten c.text

end Reprint

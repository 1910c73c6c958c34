import Reprint.Reading

/-!
# Calls on one cursor

A cursor can be asked for one node after another. A call that fails leaves the cursor where it
stopped, and the next call goes on from there.
-/

namespace Reprint

inductive Call where
  | stmt
  | block
  | expr
  | program
  | functionBody
deriving DecidableEq

namespace Cursor

/-- The node that a call asks for. -/
def call (c : Cursor) : Call → Outcome Node
  | .stmt => c.stmt.outcome.map .stmt
  | .block => c.block.outcome.map .block
  | .expr => c.expr.outcome.map .expr
  | .program => c.program.outcome.map .program
  | .functionBody => c.functionBody.outcome.map .block

/-- The answers to calls made in order, and where the last of them ended. -/
def calls (c : Cursor) : List Call → List (Except ParseError Node) × Cursor
  | [] => ([], c)
  | k :: ks =>
    match c.call k with
    | .ok node rest =>
      let (answers, last) := rest.calls ks
      (.ok node :: answers, last)
    | .error e rest =>
      let (answers, last) := rest.calls ks
      (.error e :: answers, last)

end Cursor

end Reprint

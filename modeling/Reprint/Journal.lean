import Reprint.Text.Position

/-!
# The journal of a run

Reading, printing and round trips record what they do. The records are only ever added to.
-/

namespace Reprint

inductive Level where
  | debug
  | trace

inductive Record where
  /-- A text was cut into lexemes. -/
  | lexed (lexemes lines bytes : Nat)
  /-- A statement is about to be read; `found` names its first token. -/
  | readingStmt (here : Position) (found : String)
  /-- The head of a function literal was read. -/
  | readLiteral (name : Option String) (params : List String)
  /-- A statement is about to be printed. -/
  | printingStmt (depth : Nat)
  | roundTripBegun (bytes : Nat)
  | roundTripDone (comments : Nat)

namespace Record

def level : Record → Level
  | readingStmt .. | readLiteral .. | printingStmt .. => .trace
  | lexed .. | roundTripBegun .. | roundTripDone .. => .debug

def nameText : Option String → String
  | none => "None"
  | some name => "Some(\"" ++ name ++ "\")"

def text : Record → String
  | lexed n lines bytes =>
    "lexed " ++ toString n ++ " tokens from " ++ toString lines ++ " lines (" ++ toString bytes
      ++ " bytes)"
  | readingStmt here found => "parsing statement at " ++ here.text ++ " (" ++ found ++ ")"
  | readLiteral name params =>
    "function literal " ++ nameText name ++ " with params (" ++ ", ".intercalate params
      ++ ") parsed for its body"
  | printingStmt depth => "printing statement at depth " ++ toString depth
  | roundTripBegun bytes => "round-tripping " ++ toString bytes ++ " bytes"
  | roundTripDone n => "round trip ok, " ++ toString n ++ " comments"

end Record

abbrev Journal := Array Record

/-- A value with the records made on the way to it. -/
structure Logged (α : Type) where
  value : α
  journal : Journal

namespace Logged

instance : Monad Logged where
  pure a := ⟨a, #[]⟩
  bind x f :=
    let y := f x.value
    ⟨y.value, x.journal ++ y.journal⟩

def record (r : Record) : Logged Unit := ⟨(), #[r]⟩

end Logged

end Reprint

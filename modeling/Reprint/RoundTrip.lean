import Reprint.Fragment

/-!
# Round trips

A text passes when it can be read, its printed form reads back as the same tree, printing that
tree again changes nothing, and every comment is in the printed form.
-/

namespace Reprint

structure RoundTrip where
  printed : String
  comments : Nat
deriving DecidableEq

inductive RoundTripError where
  | parse (cause : SyntaxError)
  | reparse (printed : String) (cause : SyntaxError)
  | mismatch (printed : String)
  | unstable (first second : String)
  | commentCount (expected found : Nat)
deriving DecidableEq

def RoundTripError.message : RoundTripError → String
  | parse cause => "fragment does not parse: " ++ cause.message
  | reparse printed cause =>
    "printed output does not parse: " ++ cause.message ++ "\n" ++ printed
  | mismatch printed => "printed output parses to a different tree:\n" ++ printed
  | unstable first second =>
    "printing the re-parsed tree changed the output:\n" ++ first ++ "\n---\n" ++ second
  | commentCount expected found =>
    "expected " ++ toString expected ++ " comments in printed output, found " ++ toString found

/-- Whether `part` stands somewhere in a text. -/
def occursIn (part : List Char) : List Char → Bool
  | [] => part.isEmpty
  | c :: cs => part.isPrefixOf (c :: cs) || occursIn part cs

namespace Fragment

/-- How many of the comments stand word for word in a text. -/
def countOccurring (cs : List Comment) (text : String) : Nat :=
  let chars := text.toList
  cs.countP fun c => occursIn c.text.toList chars

/-- The round trip of a text, with its records. -/
def roundTripLogged (f : Fragment) (text : String) :
    Logged (Except RoundTripError RoundTrip) := do
  Logged.record (.roundTripBegun text.utf8ByteSize)
  match ← f.parseLogged text with
  | .error cause => return .error (.parse cause)
  | .ok tree =>
    let printed ← f.printLogged tree
    match ← f.parseLogged printed with
    | .error cause => return .error (.reparse printed cause)
    | .ok again =>
      if again ≠ tree then return .error (.mismatch printed)
      let second ← f.printLogged again
      if second ≠ printed then return .error (.unstable printed second)
      let expected := tree.comments.length
      if again.comments.length ≠ expected then
        return .error (.commentCount expected again.comments.length)
      let found := countOccurring tree.comments printed
      if found ≠ expected then return .error (.commentCount expected found)
      Logged.record (.roundTripDone expected)
      return .ok ⟨printed, expected⟩

def roundTrip (f : Fragment) (text : String) : Except RoundTripError RoundTrip :=
  (f.roundTripLogged text).value

end Fragment

end Reprint

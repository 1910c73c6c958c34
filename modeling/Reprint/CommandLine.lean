import Reprint.Fragment

/-!
# The command line

With a path, the file there is printed or outlined. Without one, every line of the standard input is
a text of its own: it is printed, and its outline goes to the error output.
-/

namespace Reprint

/-! ## Arguments -/

inductive Command where
  | help
  | version
  | file (path : String) (dump : Bool)
  | lines
deriving DecidableEq

/-- What has been given so far. -/
structure Given where
  path : Option String
  dump : Bool
  /-- Whether all further arguments are paths. -/
  onlyPaths : Bool

namespace Command

/-- Whether an argument is a path even where options are allowed: a lone dash is one. -/
def isPath (arg : String) : Bool :=
  arg = "-" || !(['-'].isPrefixOf arg.toList)

/-- The command that a cluster of short options asks for; its first letter decides. -/
def ofCluster? (arg : String) : Option Command :=
  match arg.toList with
  | '-' :: 'h' :: _ => some help
  | '-' :: 'V' :: _ => some version
  | _ => none

/-- Goes through the arguments from left to right; a request for help or for the version is met at
once, and a wrong argument is refused at once. -/
def ofArgsFrom : Given → List String → Option Command
  | g, [] =>
    some (match g.path with
      | some path => file path g.dump
      | none => lines)
  | g, arg :: args =>
    if g.onlyPaths || isPath arg then
      match g.path with
      | some _ => none
      | none => ofArgsFrom { g with path := some arg } args
    else if arg = "--" then ofArgsFrom { g with onlyPaths := true } args
    else if arg = "--dump" then
      if g.dump then none else ofArgsFrom { g with dump := true } args
    else if arg = "--help" then some help
    else if arg = "--version" then some version
    else ofCluster? arg

/-- The command that the arguments ask for, unless they are wrong. -/
def ofArgs? (args : List String) : Option Command :=
  ofArgsFrom ⟨none, false, false⟩ args

end Command

/-! ## Answers -/

structure Answer where
  exit : Nat
  out : String
  err : String
deriving DecidableEq

def notUtf8 : String := "stream did not contain valid UTF-8"

def errorLine (text : String) : String := "ERROR: " ++ text ++ "\n"

def decode? (bytes : List UInt8) : Option String :=
  String.fromUTF8? ⟨bytes.toArray⟩

def versionText : String := "esround 0.1.0\n"

def helpLines : List String :=
  ["Parses JavaScript function bodies and prints them back with their comments",
    "",
    "Usage: esround [OPTIONS] [path]",
    "",
    "Arguments:",
    "  [path]  Path to the source file; starts a REPL when omitted",
    "",
    "Options:",
    "      --dump     Print the parsed tree instead of the re-emitted source",
    "  -h, --help     Print help",
    "  -V, --version  Print version"]

def helpText : String := String.join (helpLines.map (· ++ "\n"))

/-! ## Files -/

/-- Why a file cannot be read. -/
inductive ReadError where
  | notFound
  | notDirectory
  | isDirectory
  | nameTooLong
  | other (text : String)
deriving DecidableEq

def ReadError.text : ReadError → String
  | notFound => "No such file or directory (os error 2)"
  | notDirectory => "Not a directory (os error 20)"
  | isDirectory => "Is a directory (os error 21)"
  | nameTooLong => "File name too long (os error 36)"
  | other text => text

/-- The answer for a file whose contents have been read, or could not be. -/
def answerFile (path : String) (dump : Bool) (contents : Except ReadError (List UInt8)) :
    Answer :=
  let cannotRead (why : String) : Answer :=
    ⟨1, "", errorLine ("cannot read " ++ path ++ ": " ++ why)⟩
  match contents with
  | .error e => cannotRead e.text
  | .ok bytes =>
    match decode? bytes with
    | none => cannotRead notUtf8
    | some text =>
      match Fragment.program.parse text with
      | .error e => ⟨1, "", errorLine (e.message ++ " in " ++ path)⟩
      | .ok tree =>
        ⟨0, if dump then Fragment.program.dump tree else Fragment.program.print tree, ""⟩

/-! ## Lines -/

def prompt : String := "> "

/-- What one line adds to the two outputs. -/
def answerLine (line : String) : String × String :=
  match Fragment.program.parse line with
  | .error e => ("", errorLine e.message)
  | .ok tree => (Fragment.program.print tree, Fragment.program.dump tree)

/-- Cuts bytes behind every line feed. -/
def byteLines : List UInt8 → List (List UInt8)
  | [] => []
  | b :: bs =>
    if b = 10 then [b] :: byteLines bs
    else match byteLines bs with
      | [] => [[b]]
      | l :: ls => (b :: l) :: ls

/-- What is read line by line: behind the last line there is nothing to read. -/
def reads (bytes : List UInt8) : List (List UInt8) := byteLines bytes ++ [[]]

/-- What follows a prompt. -/
inductive Turn where
  /-- The run ends. -/
  | last (exit : Nat) (err : String)
  | next (out err : String)

/-- The turn for one read. The run ends at a read of nothing or of bytes that are not text. -/
def turn (bytes : List UInt8) : Turn :=
  match decode? bytes with
  | none => .last 1 (errorLine notUtf8)
  | some line =>
    if line = "" then .last 0 ""
    else
      let (out, err) := answerLine line
      .next out err

/-- The answer for some reads, each behind a prompt, up to the one that ends the run. -/
def answerReads : List (List UInt8) → Answer
  | [] => ⟨0, "", ""⟩
  | bytes :: rs =>
    match turn bytes with
    | .last exit err => ⟨exit, prompt, err⟩
    | .next out err =>
      let rest := answerReads rs
      ⟨rest.exit, prompt ++ out ++ rest.out, err ++ rest.err⟩

/-! ## Commands -/

/-- The answer to a command, from the files there are and the standard input. -/
def Command.answer (files : String → Except ReadError (List UInt8)) (stdin : List UInt8) :
    Command → Answer
  | help => ⟨0, helpText, ""⟩
  | version => ⟨0, versionText, ""⟩
  | file path dump => answerFile path dump (files path)
  | lines => answerReads (reads stdin)

end Reprint

import Reprint.CommandLine

/-! # The program -/

namespace Reprint

def readFile (path : String) : IO (Except ReadError (List UInt8)) := do
  try
    return .ok (← IO.FS.readBinFile path).toList
  catch e =>
    match e with
    | .noFileOrDirectory .. => return .error .notFound
    | .inappropriateType _ code _ =>
      return .error (if code = 21 then .isDirectory else .notDirectory)
    | .invalidArgument .. => return .error .nameTooLong
    | e => return .error (.other (toString e))

/-- Reads through the next line feed or to the end. -/
partial def readLine (stdin : IO.FS.Stream) (line : ByteArray) : IO ByteArray := do
  let b ← stdin.read 1
  if b.isEmpty then return line
  if b[0]? = some 10 then return line ++ b
  readLine stdin (line ++ b)

/-- Answers the lines of the standard input as they come. -/
partial def runLines (stdin stdout stderr : IO.FS.Stream) : IO UInt32 := do
  stdout.putStr prompt
  stdout.flush
  let bytes ← readLine stdin .empty
  match turn bytes.toList with
  | .last exit err =>
    stderr.putStr err
    return exit.toUInt32
  | .next out err =>
    stdout.putStr out
    stdout.flush
    stderr.putStr err
    runLines stdin stdout stderr

def run (args : List String) : IO UInt32 := do
  let stdout ← IO.getStdout
  let stderr ← IO.getStderr
  match Command.ofArgs? args with
  | none =>
    stderr.putStr "Usage: esround [OPTIONS] [path]\n"
    return 2
  | some .lines => runLines (← IO.getStdin) stdout stderr
  | some command =>
    let contents ← match command with
      | .file path _ => readFile path
      | _ => pure (.ok [])
    let answer := command.answer (fun _ => contents) []
    stdout.putStr answer.out
    stderr.putStr answer.err
    return answer.exit.toUInt32

end Reprint

def main (args : List String) : IO UInt32 :=
  Reprint.run args

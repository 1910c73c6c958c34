import Mathlib.Data.List.Basic
import Reprint.CommandLine

/-!
# Lines answered one by one

Without a path, the standard input is cut behind every line feed and each line is answered by itself,
as a file that holds nothing else: what the line is printed as goes to the output and its outline to
the error output (`lines_answered_as_files`). The only line that matters to others is one that is not
text, which ends the run.
-/

namespace Reprint

/-! ## Cutting bytes into lines -/

/-- The lines are the bytes cut behind every line feed, and behind the last byte. -/
structure CutIntoLines (bytes : List UInt8) (lines : List (List UInt8)) : Prop where
  bytes_eq : lines.flatten = bytes
  line : ∀ l ∈ lines, l ≠ [] ∧ 10 ∉ l.dropLast
  ended : ∀ l ∈ lines.dropLast, l.getLast? = some 10

theorem cutIntoLines_nil : CutIntoLines [] [] := ⟨rfl, by simp, by simp⟩

theorem CutIntoLines.newline {bytes : List UInt8} {lines : List (List UInt8)}
    (h : CutIntoLines bytes lines) : CutIntoLines (10 :: bytes) ([10] :: lines) := by
  refine ⟨by simp [h.bytes_eq], ?_, ?_⟩
  · exact List.forall_mem_cons.mpr ⟨by simp, h.line⟩
  · cases lines with
    | nil => simp
    | cons l ls => exact List.forall_mem_cons.mpr ⟨rfl, h.ended⟩

theorem CutIntoLines.cons {b : UInt8} {bytes l : List UInt8} {lines : List (List UInt8)}
    (h : CutIntoLines bytes (l :: lines)) (hb : b ≠ 10) : CutIntoLines (b :: bytes) ((b :: l) :: lines) := by
  obtain ⟨hl, hlines⟩ := List.forall_mem_cons.mp h.line
  refine ⟨by simp [← h.bytes_eq], ?_, ?_⟩
  · refine List.forall_mem_cons.mpr ⟨⟨by simp, ?_⟩, hlines⟩
    rw [List.dropLast_cons_of_ne_nil hl.1, List.mem_cons, not_or]
    exact ⟨hb.symm, hl.2⟩
  · cases lines with
    | nil => simp
    | cons l' ls =>
      obtain ⟨hend, hended⟩ := List.forall_mem_cons.mp h.ended
      refine List.forall_mem_cons.mpr ⟨?_, hended⟩
      rw [List.getLast?_cons_of_ne_nil hl.1, hend]

theorem cutIntoLines_byteLines (bytes : List UInt8) : CutIntoLines bytes (byteLines bytes) := by
  fun_induction byteLines bytes with
  | case1 => exact cutIntoLines_nil
  | case2 bs ih => exact ih.newline
  | case3 b bs hb hnil ih =>
    rw [hnil] at ih
    obtain rfl : bs = [] := by simpa using ih.bytes_eq.symm
    exact ⟨rfl, by simp, by simp⟩
  | case4 b bs hb l ls hcons ih =>
    rw [hcons] at ih
    exact ih.cons hb

/-! ## Lines that are text -/

def encode (text : String) : List UInt8 := text.toByteArray.data.toList

theorem decode?_eq_some_iff {bytes : List UInt8} {text : String} :
    decode? bytes = some text ↔ bytes = encode text := by
  unfold decode? String.fromUTF8? encode
  constructor
  · intro h
    split at h
    · cases h
      rfl
    · cases h
  · rintro rfl
    exact dif_pos text.isValidUTF8

theorem decode?_encode (text : String) : decode? (encode text) = some text :=
  decode?_eq_some_iff.mpr rfl

theorem exists_texts (lines : List (List UInt8)) : ∃ (texts : List String) (rest : List (List UInt8)),
    lines = texts.map encode ++ rest ∧ ∀ l ∈ rest.head?, decode? l = none := by
  induction lines with
  | nil => exact ⟨[], [], rfl, by simp⟩
  | cons l ls ih =>
    cases hl : decode? l with
    | none => exact ⟨[], l :: ls, rfl, by simp [hl]⟩
    | some text =>
      obtain ⟨texts, rest, rfl, hrest⟩ := ih
      exact ⟨text :: texts, rest, by rw [decode?_eq_some_iff.mp hl]; rfl, hrest⟩

/-! ## Arguments without a path -/

namespace Command

theorem ofCluster?_ne_lines (arg : String) : ofCluster? arg ≠ some lines := by
  unfold ofCluster?
  split <;> simp

theorem ofArgsFrom_eq_lines_iff {g : Given} {args : List String} :
    ofArgsFrom g args = some lines ↔ g.path = none ∧ (args = [] ∨ g.onlyPaths = false ∧
      (args = ["--"] ∨ g.dump = false ∧ (args = ["--dump"] ∨ args = ["--dump", "--"]))) := by
  fun_induction ofArgsFrom g args with
  | case1 g => cases g.path <;> simp
  | case2 g arg args hpath path hgiven => simp [hgiven]
  | case3 g arg args hpath hgiven ih =>
    have hno : g.onlyPaths = false → arg ≠ "--" ∧ arg ≠ "--dump" := by
      intro hopt
      constructor <;> rintro rfl <;> simp [hopt, isPath] at hpath
    rw [ih]
    constructor
    · intro h
      cases h.1
    · rintro ⟨-, h | ⟨hopt, h | ⟨-, h | h⟩⟩⟩
      · cases h
      · exact absurd (List.cons.inj h).1 (hno hopt).1
      · exact absurd (List.cons.inj h).1 (hno hopt).2
      · exact absurd (List.cons.inj h).1 (hno hopt).2
  | case4 g args hpath ih =>
    have hopt : g.onlyPaths = false := by simpa using (Bool.or_eq_false_iff.mp (by simpa using hpath)).1
    rw [ih]
    simp [hopt]
  | case5 g args hdump _ _ => simp [hdump]
  | case6 g args hdump hpath _ ih =>
    have hopt : g.onlyPaths = false := by simpa using (Bool.or_eq_false_iff.mp (by simpa using hpath)).1
    rw [ih]
    simp [hopt, hdump]
  | case7 g args => simp
  | case8 g args => simp
  | case9 g arg args hpath h₁ h₂ h₃ h₄ =>
    simp [ofCluster?_ne_lines, h₁, h₂]

theorem ofArgs?_eq_lines_iff {args : List String} :
    ofArgs? args = some lines ↔ args ∈ [[], ["--"], ["--dump"], ["--dump", "--"]] := by
  rw [ofArgs?, ofArgsFrom_eq_lines_iff]
  simp

end Command

/-! ## One answer for all lines -/

/-- A line and what it adds to the two outputs. -/
structure Exchange where
  line : String
  out : String
  err : String

/-- The line is answered as a file that holds it: what is printed goes to one output, the outline or
the reason why there is none to the other. -/
structure Exchange.LikeFile (x : Exchange) : Prop where
  printed : ∀ path files stdin, files path = .ok (encode x.line) →
    ((Command.file path false).answer files stdin).out = x.out
  outlined : ∀ tree, Fragment.program.parse x.line = .ok tree →
    ∀ path files stdin, files path = .ok (encode x.line) →
      (Command.file path true).answer files stdin = ⟨0, x.err, ""⟩
  refused : ∀ e, Fragment.program.parse x.line = .error e →
    x.out = "" ∧ x.err = "ERROR: " ++ e.message ++ "\n"

def exchange (line : String) : Exchange := ⟨line, (answerLine line).1, (answerLine line).2⟩

theorem answer_file {path line : String} {dump : Bool} {files : String → Except ReadError (List UInt8)}
    {stdin : List UInt8} (h : files path = .ok (encode line)) :
    (Command.file path dump).answer files stdin = match Fragment.program.parse line with
      | .error e => ⟨1, "", errorLine (e.message ++ " in " ++ path)⟩
      | .ok tree =>
        ⟨0, if dump then Fragment.program.dump tree else Fragment.program.print tree, ""⟩ := by
  cases hparse : Fragment.program.parse line with
  | error e => simp only [Command.answer, answerFile, h, decode?_encode, hparse]
  | ok tree => simp only [Command.answer, answerFile, h, decode?_encode, hparse]

theorem likeFile_exchange (line : String) : (exchange line).LikeFile := by
  constructor
  · intro path files stdin hfile
    rw [answer_file hfile]
    unfold exchange answerLine
    cases Fragment.program.parse line <;> rfl
  · intro tree htree path files stdin hfile
    rw [answer_file hfile]
    unfold exchange at htree ⊢
    simp [answerLine, htree]
  · intro e he
    unfold exchange at he ⊢
    simp [answerLine, errorLine, he]

theorem turn_encode {line : String} (h : line ≠ "") :
    turn (encode line) = .next (exchange line).out (exchange line).err := by
  unfold turn
  rw [decode?_encode]
  simp [h, exchange]

theorem turn_nil : turn [] = .last 0 "" := by
  unfold turn
  rw [show decode? [] = some "" from decode?_encode ""]
  rfl

theorem answerReads_append {texts : List String} (h : ∀ line ∈ texts, line ≠ "")
    (rest : List (List UInt8)) :
    answerReads (texts.map encode ++ rest) = ⟨(answerReads rest).exit,
      String.join (texts.map fun line => prompt ++ (exchange line).out) ++ (answerReads rest).out,
      String.join (texts.map fun line => (exchange line).err) ++ (answerReads rest).err⟩ := by
  induction texts with
  | nil => simp
  | cons line texts ih =>
    obtain ⟨hline, htexts⟩ := List.forall_mem_cons.mp h
    rw [List.map_cons, List.cons_append, answerReads, turn_encode hline, ih htexts]
    simp [String.append_assoc]

theorem answerReads_of_head {rest : List (List UInt8)} (h : ∀ l ∈ rest.head?, decode? l = none) :
    answerReads (rest ++ [[]]) =
      if rest = [] then ⟨0, prompt, ""⟩ else ⟨1, prompt, errorLine notUtf8⟩ := by
  cases rest with
  | nil => simp [answerReads, turn_nil]
  | cons l ls => simp [answerReads, turn, h l rfl]

/-- Without a path the standard input is answered line by line, up to the first line that is not text.
Each line adds to the outputs what a file that holds nothing else is answered with, whatever the other
lines are. -/
theorem lines_answered_as_files (files : String → Except ReadError (List UInt8))
    (stdin : List UInt8) :
    (∀ args, Command.ofArgs? args = some .lines ↔
      args ∈ [[], ["--"], ["--dump"], ["--dump", "--"]]) ∧
    ∃ (exchanges : List Exchange) (rest : List (List UInt8)),
      CutIntoLines stdin (exchanges.map (fun x => encode x.line) ++ rest) ∧
      (∀ l ∈ rest.head?, ∀ text, l ≠ encode text) ∧
      (∀ x ∈ exchanges, x.LikeFile) ∧
      Command.lines.answer files stdin =
        ⟨if rest = [] then 0 else 1,
          String.join (exchanges.map fun x => "> " ++ x.out) ++ "> ",
          String.join (exchanges.map fun x => x.err) ++
            if rest = [] then "" else "ERROR: stream did not contain valid UTF-8\n"⟩ := by
  refine ⟨fun args => Command.ofArgs?_eq_lines_iff, ?_⟩
  obtain ⟨texts, rest, hlines, hrest⟩ := exists_texts (byteLines stdin)
  have hcut := cutIntoLines_byteLines stdin
  rw [hlines] at hcut
  refine ⟨texts.map exchange, rest, ?_, ?_, ?_, ?_⟩
  · simpa [Function.comp_def, exchange] using hcut
  · intro l hl text htext
    have hnone := hrest l hl
    rw [decode?_eq_some_iff.mpr htext] at hnone
    cases hnone
  · intro x hx
    obtain ⟨line, -, rfl⟩ := List.mem_map.mp hx
    exact likeFile_exchange line
  · have htexts : ∀ line ∈ texts, line ≠ "" := by
      rintro line hline rfl
      exact (hcut.line [] (List.mem_append_left _ (List.mem_map.mpr ⟨"", hline, rfl⟩))).1 rfl
    rw [Command.answer, reads, hlines, List.append_assoc, answerReads_append htexts,
      answerReads_of_head hrest]
    by_cases h : rest = []
    · simp [h, Function.comp_def, prompt]
    · simp [h, Function.comp_def, prompt, errorLine, notUtf8]

end Reprint

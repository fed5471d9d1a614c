import PulseAsm.Error

/-!
# Commands

What a command leaves behind: texts for the two output streams, files, and the
failure that ended it, if there was one. Commands are functions of the texts of
the files they read; the outer layer does the reading and the writing.
-/

namespace PulseAsm.Command

/-- A file that a command reads: its path, and its text unless it cannot be read. -/
structure Source where
  /-- The path. -/
  path : String
  /-- The text. -/
  text : Option String

/-- What a file that a command writes holds. -/
inductive Content where
  /-- Text. -/
  | text (s : String)
  /-- Bytes. -/
  | bytes (bs : List UInt8)

/-- A file that a command writes. -/
structure OutputFile where
  /-- The path. -/
  path : String
  /-- What it holds. -/
  content : Content

/-- Why a command failed. -/
inductive Failure where
  /-- A file cannot be read. -/
  | unreadable (path : String)
  /-- A file is not what it should be. -/
  | malformed (path : String)
  /-- A step of a script failed. -/
  | step (index : Nat) (cause : Error)
  /-- Anything else. -/
  | other (message : String)

/-- The first line about a failure. -/
def Failure.heading : Failure → String
  | .unreadable path => s!"reading {path}"
  | .malformed path => s!"parsing {path}"
  | .step index _ => s!"step {index}"
  | .other message => message

/-- What was behind a failure. -/
def Failure.cause? : Failure → Option String
  | .step _ cause => some cause.message
  | _ => none

/-- What a command leaves behind. -/
structure Outcome where
  /-- The text for the output stream. -/
  stdout : String := ""
  /-- The text for the error stream, failures apart. -/
  stderr : String := ""
  /-- The files, in the order in which they were made. -/
  files : List OutputFile := []
  /-- The failure that ended the command. -/
  failure : Option Failure := none

end PulseAsm.Command

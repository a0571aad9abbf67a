import Lunify.Command.Catalog

namespace Lunify

namespace Command

/-! ### Help

The words about the program and about each command. Rows of two columns are aligned: the second
column starts two blanks after the longest entry of the first. -/

def programName : Text := utf8 "lupy"

/-- Rows of two columns, each on a line of its own. -/
def aligned (rows : List (Text × Text)) : List Text :=
  let width := (rows.map fun r => r.1.length).foldl max 0 + 2
  rows.map fun (a, b) => a ++ Text.blanks (width - a.length) ++ b

/-- A value that a flag has when it is not given. -/
def FlagKind.standardText : FlagKind → Text
  | .text s => if s.isEmpty then [] else Text.quoted s
  | .integer i => Text.ofInt i
  | .float x => Chunk.Binary64.text x
  | .duration d => d.text
  | .switch => []

/-- A name of a flag with what stands for its value. -/
def Flag.spelled (f : Flag) (name : Text) : Text :=
  utf8 (if name.length = 1 then "-" else "--") ++ name ++
    match f.kind with
    | .switch => []
    | _ => utf8 " value"

/-- The names of a flag, and what it is for. -/
def Flag.row (f : Flag) : Text × Text :=
  let standard := f.kind.standardText
  (utf8 "   " ++ Text.join (utf8 ", ") (f.names.map f.spelled),
    f.usage ++ if standard.isEmpty then [] else utf8 " (default: " ++ standard ++ utf8 ")")

/-- The commands of a group, under its name if it has one. -/
def groupHelp (group : Text) : List Text :=
  (if group.isEmpty then [] else [utf8 "   " ++ group ++ utf8 ":"]) ++
    aligned ((specs.filter (·.group = group)).map fun s =>
      (utf8 "     " ++ Text.join (utf8 ", ") s.names, s.usage))

/-- The help on the program. -/
def help : Text :=
  Text.join (utf8 "\n") ([
    utf8 "NAME:",
    utf8 "   " ++ programName ++ utf8 " - the Python to Lua translator",
    [],
    utf8 "USAGE:",
    utf8 "   " ++ programName ++ utf8 " [global options] command [command options] [arguments...]",
    [],
    utf8 "COMMANDS:"]
    ++ groupHelp [] ++ groupHelp otherGroup ++ groupHelp sourceGroup
    ++ [[], utf8 "GLOBAL OPTIONS:"]
    ++ aligned (globalFlags.map Flag.row)
    ++ [[], utf8 "COPYRIGHT:", utf8 "   Copyright 2024 The ProbeChain Authors", []])

/-- The help on a command. The command for help itself has no full name. -/
def Spec.help (s : Spec) : Text :=
  let fullName := if s.verb = .help then [] else programName ++ utf8 " " ++ s.names.headD []
  Text.join (utf8 "\n") ([
    utf8 "NAME:",
    utf8 "   " ++ fullName ++ utf8 " - " ++ s.usage,
    [],
    utf8 "USAGE:",
    utf8 "   " ++ fullName ++ utf8 (if s.flags.isEmpty then " " else " [command options] ")
      ++ (if s.arguments.isEmpty then utf8 "[arguments...]" else s.arguments)]
    ++ (if s.group.isEmpty then [] else [[], utf8 "CATEGORY:", utf8 "   " ++ s.group])
    ++ (if s.description.isEmpty then []
      else [[], utf8 "DESCRIPTION:", utf8 "   " ++ s.description])
    ++ (if s.flags.isEmpty then []
      else [[], utf8 "OPTIONS:"] ++ aligned (s.flags.map Flag.row) ++ [utf8 "   "])
    ++ [[]])

end Command

end Lunify

import Lunify.Command.Console
import Lunify.Command.Help
import Lunify.Http.Address
import Lunify.Settings.Read
import Lunify.Version

namespace Lunify

namespace Command

/-! ### Running a command

A command works on the files of the working directory and prints. It ends early with a message and
a status; what it has printed and written until then stays. -/

/-- What a command is given. -/
structure Invocation where
  args : List Text
  files : Files
  input : Text
  /-- The content of the file with the history of the console, where there is a place for it. -/
  history? : Option Text

/-- What a command leaves behind. -/
structure Outcome where
  status : Nat
  out : Text
  err : Text
  files : Files
  /-- The new content of the file with the history, if it is written. -/
  history? : Option Text

/-- What a command changes. -/
structure World where
  files : Files
  out : Text
  history? : Option Text

/-- An early end. -/
structure Stop where
  status : Nat
  message : Text

abbrev Act := EStateM Stop World

def print (s : Text) : Act Unit :=
  modify fun w => { w with out := w.out ++ s }

def fail {α : Type} (message : Text) : Act α :=
  throw ⟨1, message⟩

def fatal {α : Type} (message : Text) : Act α :=
  fail (utf8 "Fatal: " ++ message)

def files : Act Files := do
  return (← get).files

/-- The arguments of a command: the flags before it, and its own. -/
structure Context where
  outer : Given
  own : Given

def overriding {α : Type} (given? : Option α) (put : α → Settings → Settings) (s : Settings) :
    Settings :=
  match given? with
  | some a => put a s
  | none => s

/-- The settings with the flags of a command. -/
def Context.applied (c : Context) (s : Settings) : Settings :=
  let g := c.own
  s |> overriding (inputFlag.text? g) (fun x s => { s with batch.input := x })
    |> overriding (outputFlag.text? g) (fun x s => { s with batch.output := x })
    |> overriding (workersFlag.integer? g) (fun x s => { s with batch.workers := x })
    |> overriding (copyAssetsFlag.switch? g) (fun x s => { s with batch.copyAssets := x })
    |> overriding (skipCheckFlag.switch? g) (fun x s => { s with pipeline.skipCheck := x })
    |> overriding (verifyFlag.switch? g) (fun x s => { s with pipeline.verify := x })
    |> overriding (grammarFlag.text? g) (fun x s => { s with pipeline.grammarFile := x })
    |> overriding (cacheFlag.text? g) (fun x s => { s with cache.directory := x })
    |> overriding (addressFlag.text? g) (fun x s => { s with server.address := x })
    |> overriding (originsFlag.text? g)
      (fun x s => { s with server.origins := Text.commaList x })
    |> overriding (rateFlag.float? g) (fun x s => { s with server.rate := x })
    |> overriding (burstFlag.integer? g) (fun x s => { s with server.burst := x })

/-- The settings of a command: the standard ones, then the file, then the flags. -/
def Context.settings (c : Context) : Act Settings := do
  let path := configFlag.text c.outer
  let s ← if path.isEmpty then pure Settings.standard
    else match Settings.standard.readingFile (← files) path with
      | .ok s => pure s
      | .error e => fatal e.message
  return c.applied s

/-- Opens the store in a directory, which is made if it is missing. -/
def openStore (directory : Text) : Act Store := do
  let refuse (reason : Text) : Act Store :=
    fatal (utf8 "Failed to open the translation cache: " ++ reason)
  let fs ← files
  match fs.find directory with
  | .ok .directory => return .onDisk (some .empty)
  | .ok (.file _) =>
    refuse (utf8 "leveldb/storage: open " ++ directory ++ utf8 ": not a directory")
  | .error .missing =>
    match fs.makeDirectories directory with
    | .ok fs =>
      modify fun w => { w with files := fs }
      return .onDisk (some .empty)
    | .error e => refuse e.message
  | .error cause => refuse (FileError.message ⟨utf8 "stat", directory, cause⟩)

/-- The pipeline of the settings, and the store if there is to be one. -/
def pipeline (s : Settings) : Act (Pipeline × Option Store) := do
  let store? ← if s.cache.directory.isEmpty then pure none
    else do pure (some (← openStore s.cache.directory))
  match Grammar.chosen (← files) s.pipeline.grammarFile with
  | .ok g => return (⟨g, s.pipeline.skipCheck, s.pipeline.verify⟩, store?)
  | .error e => fatal e.message

/-- The only source file of a command. -/
def Context.source (c : Context) : Act Text := do
  match c.own.args with
  | [path] =>
    match (← files).read path with
    | .ok s => return s
    | .error e => fatal (utf8 "Could not read source: " ++ e.message)
  | _ => fatal (utf8 "This command requires exactly one source file")

/-- Does a batch and prints what became of each file. -/
def batch (config : Batch.Config) (p : Pipeline) (store? : Option Store) : Act Report := do
  let fs ← files
  match Batch.jobs fs config with
  | .error e => fail e.message
  | .ok jobs =>
    let (fs, _, results) := Batch.performAll (Batch.stored p) fs store? jobs
    modify fun w => { w with files := fs }
    print (results.flatMap (·.printed))
    return ⟨results.map (·.entry ⟨0⟩), ⟨0⟩⟩

/-- The command that takes a tree of sources to Lua. -/
def convert (c : Context) : Act Unit := do
  if let extra :: _ := c.own.args then
    fail (utf8 "invalid command: " ++ Text.quoted extra)
  let s ← c.settings
  let (p, store?) ← pipeline s
  print (utf8 "Translation started\n")
  let report ← batch s.batch p store?
  print report.text
  if 0 < report.failed then
    fail (Text.ofNat report.failed ++ utf8 " of " ++ Text.ofNat report.entries.length
      ++ utf8 " files failed")

/-- The command that goes on after a batch until it is interrupted. No change of a file is ever
reported to it here, so that it is interrupted at once. -/
def watch (c : Context) : Act Unit := do
  let s ← c.settings
  let (p, store?) ← pipeline s
  let _ ← batch s.batch p store?

def orFail {α : Type} : Except Failure α → Act α
  | .ok a => pure a
  | .error e => fail e.message

/-- The command that prints a stage. -/
def emit (c : Context) : Act Unit := do
  let s ← c.settings
  let stage := stageFlag.text c.own
  if stage = utf8 "grammar" then
    if s.pipeline.grammarFile.isEmpty then print Grammar.builtinText
    else match (← files).read s.pipeline.grammarFile with
      | .ok text => print text
      | .error e => fail e.message
  else if stage = utf8 "symbols" then
    print (← pipeline s).1.grammar.listing
  else
    let source ← c.source
    let (p, _) ← pipeline s
    let stages := p.stages source
    if stage = utf8 "tokens" then
      print (stages.tokens.flatMap fun t => t.render ++ utf8 "\n")
    else if stage = utf8 "tree" then
      if let some t := stages.tree? then print (t.outline 0)
    else if stage = utf8 "statements" then
      if let some t := stages.tree? then print t.statements
    else if stage = utf8 "lua" then
      if let .ok lua := stages.result then print lua
    else
      fail (utf8 "unknown stage " ++ Text.quoted stage)
    let _ ← orFail stages.result

/-- The command that runs the Lua text of a source. -/
def run (c : Context) : Act Unit := do
  let source ← c.source
  let (p, _) ← pipeline (← c.settings)
  let lua ← orFail (p.lua source)
  let (out, error?) := Chunk.sandboxFor (timeoutFlag.duration c.own) lua
  print out
  match error? with
  | none => pure ()
  | some .aborted => fail Chunk.RunError.aborted.message
  | some e => throw ⟨2, e.message⟩

/-- The command that reads snippets. -/
def console (c : Context) (i : Invocation) : Act Unit := do
  let (p, _) ← pipeline (← c.settings)
  let mode : Console.Mode := ⟨p, runFlag.isOn c.own, timeoutFlag.duration c.own⟩
  let history := (i.history?.map Console.readHistory).getD []
  let (out, history) := mode.session history [] (Console.lines i.input)
  print (Console.welcome ++ out)
  modify fun w => { w with history? := i.history?.map fun _ => Console.historyText history }

def serve (c : Context) : Act Unit := do
  let s ← c.settings
  let _ ← pipeline s
  match Http.listen s.server.address with
  | .ok () => pure ()
  | .error e => fail e.message

/-- The command that shows the settings, or writes them to a file. -/
def showSettings (c : Context) : Act Unit := do
  let s ← c.settings
  match c.own.args with
  | [] => print s.text
  | path :: _ =>
    match (← files).write path s.text with
    | .ok fs => modify fun w => { w with files := fs }
    | .error e => fail e.message

def version : Act Unit :=
  print (programName ++ utf8 "\nVersion: " ++ Version.withKind ++ utf8 "\n")

/-- The command that shows help. -/
def showHelp (c : Context) : Act Unit :=
  match c.own.args with
  | [] => print help
  | topic :: _ =>
    match specNamed? topic with
    | some s => print s.help
    | none => throw ⟨3, utf8 "No help topic for '" ++ topic ++ utf8 "'"⟩

/-- Does what a command is for. -/
def perform (v : Verb) (c : Context) (i : Invocation) : Act Unit :=
  match v with
  | .convert => convert c
  | .emit => emit c
  | .run => run c
  | .watch => watch c
  | .console => console c i
  | .serve => serve c
  | .showSettings => showSettings c
  | .version => version
  | .help => showHelp c

/-- Runs a command with the arguments after its name. -/
def Spec.act (s : Spec) (outer : Given) (args : List Text) (i : Invocation) : Act Unit := do
  let flags := s.flags ++ [helpFlag]
  let own := readFlags flags [] (flagsFirst args)
  if let some e := own.twoForms? flags then
    print (e.message ++ utf8 "\n\n" ++ s.help)
    fail e.message
  if let some e := own.error? then
    print (utf8 "Incorrect Usage: " ++ e.message ++ utf8 "\n\n" ++ s.help)
    fail e.message
  if helpFlag.isOn own then print s.help
  else perform s.verb ⟨outer, own⟩ i

/-- Runs the program. Without the name of a command the sources are taken to Lua. -/
def program (i : Invocation) : Act Unit := do
  let outer := readFlags globalFlags [] i.args
  if let some e := outer.twoForms? globalFlags then
    print (e.message ++ utf8 "\n" ++ help)
    fail e.message
  if let some e := outer.error? then
    print (utf8 "Incorrect Usage. " ++ e.message ++ utf8 "\n\n" ++ help)
    fail e.message
  if helpFlag.isOn outer then print help
  else match outer.args with
    | [] => perform .convert ⟨outer, outer⟩ i
    | name :: rest =>
      match specNamed? name with
      | some s => s.act outer rest i
      | none => perform .convert ⟨outer, outer⟩ i

/-- What the program leaves behind. -/
def Invocation.outcome (i : Invocation) : Outcome :=
  match (program i).run ⟨i.files, [], none⟩ with
  | .ok _ w => ⟨0, w.out, [], w.files, w.history?⟩
  | .error e w => ⟨e.status, w.out, e.message ++ utf8 "\n", w.files, w.history?⟩

end Command

end Lunify

import Lunify.Command.Flags
import Lunify.Settings.Basic

namespace Lunify

namespace Command

/-! ### The commands

The flags and the commands with the words that describe them. -/

/-- What a command does. -/
inductive Verb where
  | convert
  | emit
  | run
  | watch
  | console
  | serve
  | showSettings
  | version
  | help
deriving DecidableEq, Repr

/-- A command. Its arguments, its group and its description may be left empty. -/
structure Spec where
  verb : Verb
  names : List Text
  usage : Text
  arguments : Text
  group : Text
  description : Text
  flags : List Flag

def configFlag : Flag :=
  ⟨[utf8 "config"], utf8 "TOML configuration file", .text []⟩

def verbosityFlag : Flag :=
  ⟨[utf8 "verbosity"],
    utf8 "Logging verbosity: 0=silent, 1=error, 2=warn, 3=info, 4=debug, 5=detail", .integer 3⟩

def logFormatFlag : Flag :=
  ⟨[utf8 "log.format"], utf8 "Log format: terminal or logfmt", .text (utf8 "terminal")⟩

def inputFlag : Flag :=
  ⟨[utf8 "input", utf8 "i"], utf8 "Source file or directory",
    .text Settings.standard.batch.input⟩

def outputFlag : Flag :=
  ⟨[utf8 "output", utf8 "o"], utf8 "Output directory", .text Settings.standard.batch.output⟩

def skipCheckFlag : Flag :=
  ⟨[utf8 "unsafe"], utf8 "Skip the scope and arity checks", .switch⟩

def verifyFlag : Flag :=
  ⟨[utf8 "verify"], utf8 "Parse the generated Lua before writing it", .switch⟩

def grammarFlag : Flag :=
  ⟨[utf8 "grammar"], utf8 "Grammar rule file replacing the built-in grammar", .text []⟩

def workersFlag : Flag :=
  ⟨[utf8 "workers"], utf8 "Number of files translated in parallel",
    .integer Settings.standard.batch.workers⟩

def copyAssetsFlag : Flag :=
  ⟨[utf8 "copy-assets"], utf8 "Copy files that are not Python sources into the output tree",
    .switch⟩

def cacheFlag : Flag :=
  ⟨[utf8 "cachedir"], utf8 "Directory of the persistent translation cache", .text []⟩

def batchFlags : List Flag :=
  [inputFlag, outputFlag, skipCheckFlag, verifyFlag, grammarFlag, workersFlag, copyAssetsFlag,
    cacheFlag]

def addressFlag : Flag :=
  ⟨[utf8 "http.addr"], utf8 "HTTP server listening address",
    .text Settings.standard.server.address⟩

/-- The origins whose requests are allowed. -/
def originsFlag : Flag :=
  ⟨[utf8 "http.corsdomain"],
    utf8 "Comma separated list of domains from which to accept cross origin requests "
      ++ utf8 "(browser enforced)",
    .text []⟩

def rateFlag : Flag :=
  ⟨[utf8 "http.ratelimit"], utf8 "Maximum translation requests per second (0 = unlimited)",
    .float 0⟩

def burstFlag : Flag :=
  ⟨[utf8 "http.burst"], utf8 "Requests allowed above the rate limit in a burst",
    .integer Settings.standard.server.burst⟩

def serverFlags : List Flag :=
  [addressFlag, originsFlag, rateFlag, burstFlag]

def stageFlag : Flag :=
  ⟨[utf8 "stage"], utf8 "Stage to print: tokens, tree, statements, lua, grammar or symbols",
    .text (utf8 "lua")⟩

def timeoutFlag : Flag :=
  ⟨[utf8 "timeout"], utf8 "Maximum running time of the Lua program",
    .duration ⟨5 * Duration.second⟩⟩

def runFlag : Flag :=
  ⟨[utf8 "run"], utf8 "Run every translated snippet", .switch⟩

def helpFlag : Flag :=
  ⟨[utf8 "help", utf8 "h"], utf8 "show help", .switch⟩

def globalFlags : List Flag :=
  [configFlag, verbosityFlag, logFormatFlag] ++ batchFlags ++ [helpFlag]

def sourceGroup : Text := utf8 "TRANSLATION COMMANDS"

def otherGroup : Text := utf8 "MISCELLANEOUS COMMANDS"

/-- Reads snippets line by line. -/
def consoleSpec : Spec where
  verb := .console
  names := [utf8 "console"]
  usage := utf8 "Start an interactive translation session"
  arguments := []
  group := sourceGroup
  description :=
    utf8 "\nThe console reads a Python snippet line by line. An empty line submits the"
      ++ utf8 "\nsnippet, which is translated and printed as Lua. Tab inserts a tab and four"
      ++ utf8 "\nleading spaces are read as one tab."
  flags := [runFlag, skipCheckFlag, grammarFlag, timeoutFlag]

/-- Shows the settings. -/
def showSettingsSpec : Spec where
  verb := .showSettings
  names := [utf8 "dumpconfig"]
  usage := utf8 "Show configuration values"
  arguments := utf8 "[file]"
  group := otherGroup
  description := utf8 "The dumpconfig command shows configuration values."
  flags := batchFlags ++ serverFlags

/-- Prints a stage of one source. -/
def emitSpec : Spec where
  verb := .emit
  names := [utf8 "emit"]
  usage := utf8 "Print an intermediate stage of one translation"
  arguments := utf8 "<file.py>"
  group := sourceGroup
  description := []
  flags := [stageFlag, skipCheckFlag, grammarFlag]

/-- Runs one source. -/
def runSpec : Spec where
  verb := .run
  names := [utf8 "run"]
  usage := utf8 "Translate a file and run the Lua result"
  arguments := utf8 "<file.py>"
  group := sourceGroup
  description := []
  flags := [timeoutFlag, skipCheckFlag, grammarFlag]

/-- Answers requests. -/
def serveSpec : Spec where
  verb := .serve
  names := [utf8 "serve"]
  usage := utf8 "Serve translations over HTTP"
  arguments := []
  group := sourceGroup
  description := []
  flags := [skipCheckFlag, verifyFlag, grammarFlag, cacheFlag] ++ serverFlags

/-- Takes a tree of sources to Lua. -/
def convertSpec : Spec where
  verb := .convert
  names := [utf8 "translate"]
  usage := utf8 "Translate a file or a directory tree of Python sources"
  arguments := utf8 " "
  group := sourceGroup
  description :=
    utf8 "\nEvery .py file under --input is translated into a .lua file at the mirrored"
      ++ utf8 "\npath under --output. A file that fails to translate is reported and skipped."
      ++ utf8 "\nThe command exits with status 1 when any file failed."
  flags := batchFlags

def versionSpec : Spec where
  verb := .version
  names := [utf8 "version"]
  usage := utf8 "Print version numbers"
  arguments := utf8 " "
  group := otherGroup
  description := []
  flags := []

/-- Takes a tree of sources to Lua again and again. -/
def watchSpec : Spec where
  verb := .watch
  names := [utf8 "watch"]
  usage := utf8 "Retranslate sources whenever they change"
  arguments := []
  group := sourceGroup
  description :=
    utf8 "\nThe watch command translates the whole --input tree once and then keeps"
      ++ utf8 "\nretranslating every .py file that is created or written under it."
  flags := batchFlags

/-- Shows help. -/
def helpSpec : Spec where
  verb := .help
  names := [utf8 "help", utf8 "h"]
  usage := utf8 "Shows a list of commands or help for one command"
  arguments := utf8 "[command]"
  group := []
  description := []
  flags := []

def specs : List Spec :=
  [consoleSpec, showSettingsSpec, emitSpec, runSpec, serveSpec, convertSpec, versionSpec, watchSpec,
    helpSpec]

def specNamed? (name : Text) : Option Spec :=
  specs.find? fun s => s.names.contains name

end Command

end Lunify

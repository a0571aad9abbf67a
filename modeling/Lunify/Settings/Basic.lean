import Lunify.Batch.Run
import Lunify.Decimal.Shortest

namespace Lunify

/-! ### Settings

All that can be set from a file or from the command line, with the values it has otherwise, and
its text in the form of a settings file. -/

/-- How sources are taken to Lua. -/
structure PipelineSettings where
  /-- A file with a grammar; empty for the built-in one. -/
  grammarFile : Text
  skipCheck : Bool
  verify : Bool
deriving DecidableEq, Repr

/-- Where Lua texts are kept. -/
structure CacheSettings where
  /-- A directory; empty for none. -/
  directory : Text
  memoryBytes : Int
deriving DecidableEq, Repr

/-- How the service answers. -/
structure ServerSettings where
  address : Text
  origins : List Text
  /-- Sources per second; zero for no limit. -/
  rate : Float
  burst : Int

/-- The settings. -/
structure Settings where
  pipeline : PipelineSettings
  batch : Batch.Config
  cache : CacheSettings
  server : ServerSettings

namespace Settings

/-- The settings where nothing else is said. -/
def standard : Settings where
  pipeline := ⟨[], false, false⟩
  batch := ⟨utf8 "./input", utf8 "./output", 4, false⟩
  cache := ⟨[], 32 * 1024 * 1024⟩
  server := ⟨utf8 "localhost:8547", [utf8 "*"], 0, 10⟩

/-- A number with the fewest digits that read back, always with an exponent. -/
def floatText (x : Float) : Text :=
  match Decimal.classify x with
  | .notANumber => utf8 "NaN"
  | .infinite negative => utf8 (if negative then "-Inf" else "+Inf")
  | .finite b =>
    (if b.negative then utf8 "-" else []) ++
      if b.mantissa = 0 then utf8 "0e+00" else (Decimal.shortest b).scientific

def boolText (b : Bool) : Text :=
  utf8 (if b then "true" else "false")

def line (name : String) (value : Text) : Text :=
  utf8 name ++ utf8 " = " ++ value ++ utf8 "\n"

def lineUnlessEmpty (name : String) (value : Text) : Text :=
  if value.isEmpty then [] else line name (Text.quoted value)

def table (name : String) (lines : List Text) : Text :=
  utf8 "[" ++ utf8 name ++ utf8 "]\n" ++ lines.flatten

/-- The settings as a file. -/
def text (s : Settings) : Text :=
  Text.join (utf8 "\n") [
    table "Translate" [
      lineUnlessEmpty "GrammarFile" s.pipeline.grammarFile,
      line "Unsafe" (boolText s.pipeline.skipCheck),
      line "Verify" (boolText s.pipeline.verify)],
    table "Batch" [
      line "Input" (Text.quoted s.batch.input),
      line "Output" (Text.quoted s.batch.output),
      line "Workers" (Text.ofInt s.batch.workers),
      line "CopyAssets" (boolText s.batch.copyAssets)],
    table "Cache" [
      lineUnlessEmpty "Dir" s.cache.directory,
      line "MemoryBytes" (Text.ofInt s.cache.memoryBytes)],
    table "Server" [
      line "Addr" (Text.quoted s.server.address),
      line "CORSOrigins"
        (utf8 "[" ++ Text.join (utf8 ", ") (s.server.origins.map Text.quoted) ++ utf8 "]"),
      line "RateLimit" (floatText s.server.rate),
      line "RateBurst" (Text.ofInt s.server.burst)]]

end Settings

end Lunify

import Lunify.Decimal.Read
import Lunify.Settings.Basic
import Lunify.Time.Instant
import Lunify.Toml.Read

namespace Lunify

/-! ### Settings from a file

A section says which names a table may have and where their values go. Every entry must have a
place, and its value must be of the kind that the place takes. -/

/-- Why an entry does not fit. -/
inductive Misfit where
  /-- There is no such name; some kinds of tables have a page that lists the names. -/
  | unknown (name kind page : Text)
  /-- The name is not for files. -/
  | closed (name kind : Text)
  | wrongKind (found wanted needed : Text)
  | outOfRange (digits kind : Text)
  | floatRange (digits : Text)
  | noSuchTime (s part : Text)
  | mixedArray
deriving DecidableEq, Repr

/-- The reason in words. -/
def Misfit.message : Misfit → Text
  | .unknown name kind page =>
    utf8 "field '" ++ name ++ utf8 "' is not defined in " ++ kind ++
      if page.isEmpty then []
      else utf8 ", see https://godoc.org/" ++ page ++ utf8 " for available fields"
  | .closed name kind =>
    utf8 "field corresponding to \x60" ++ name ++ utf8 "' in " ++ kind
      ++ utf8 " cannot be set through TOML"
  | .wrongKind found wanted needed =>
    utf8 "cannot unmarshal TOML " ++ found ++ utf8 " into " ++ wanted ++
      if needed.isEmpty then [] else utf8 " (need " ++ needed ++ utf8 ")"
  | .outOfRange digits kind =>
    utf8 "value " ++ digits ++ utf8 " is out of range for " ++ kind
  | .floatRange digits =>
    utf8 "strconv.ParseFloat: parsing " ++ Text.quoted digits ++ utf8 ": value out of range"
  | .noSuchTime s part =>
    utf8 "parsing time " ++ Text.quoted s ++ utf8 ": " ++ part ++ utf8 " out of range"
  | .mixedArray => utf8 "array can't contain multiple types"

/-- Why a file gives no settings. -/
inductive SettingsError where
  | unreadable (e : FileError)
  | notToml (path : Text) (e : Toml.ReadError)
  /-- The entry at a line does not fit; the place is empty when it has none. -/
  | misfit (path : Text) (line : Nat) (place : Text) (cause : Misfit)

/-- The error in words. -/
def SettingsError.message : SettingsError → Text
  | .unreadable e => e.message
  | .notToml path e => path ++ utf8 ", " ++ e.message
  | .misfit path line place cause =>
    path ++ utf8 ", line " ++ Text.ofNat line ++ utf8 ": "
      ++ (if place.isEmpty then [] else utf8 "(" ++ place ++ utf8 ") ") ++ cause.message

/-- An entry that does not fit, before the file is known. -/
structure MisfitAt where
  line : Nat
  place : Text
  cause : Misfit

/-- Where the value under a name goes. -/
inductive Slot (σ : Type) where
  | text (put : Text → σ → σ)
  | integer (put : Int → σ → σ)
  | float (put : Float → σ → σ)
  | boolean (put : Bool → σ → σ)
  | texts (put : List Text → σ → σ)
  | section (kind : Text) (read : Toml.Table → σ → Except MisfitAt σ)
  | closed

/-- What a slot takes. -/
def Slot.kind {σ : Type} : Slot σ → Text
  | .text _ => utf8 "string"
  | .integer _ => utf8 "int"
  | .float _ => utf8 "float64"
  | .boolean _ => utf8 "bool"
  | .texts _ => utf8 "[]string"
  | .section kind _ => kind
  | .closed => []

def daysIn (year month : Nat) : Nat :=
  if month = 2 then
    if year % 4 = 0 && (year % 100 != 0 || year % 400 = 0) then 29 else 28
  else if [4, 6, 9, 11].contains month then 30 else 31

/-- The first part of a time of day that is out of range. -/
def clockFault? (s : Text) : Option Text :=
  if 24 ≤ Instant.numberAt s 0 2 then some (utf8 "hour")
  else if 60 ≤ Instant.numberAt s 3 2 then some (utf8 "minute")
  else if 60 ≤ Instant.numberAt s 6 2 then some (utf8 "second")
  else
    let zone := s.drop 8 |>.dropWhile fun b => Text.isDigit b || b = byte '.'
    if zone.length < 6 then none
    else if 24 < Instant.numberAt zone 1 2 then some (utf8 "time zone offset hour")
    else if 60 < Instant.numberAt zone 4 2 then some (utf8 "time zone offset minute")
    else none

/-- The first part of a date, a time of day or both that is out of range. The day comes last. -/
def timeFault? (s : Text) : Option Text :=
  if s.contains (byte ':') && !(s.take 5).contains (byte '-') then clockFault? s
  else
    let month := Instant.numberAt s 5 2
    let day := Instant.numberAt s 8 2
    if month = 0 || 12 < month then some (utf8 "month")
    else match clockFault? (s.drop 11) with
      | some part => some part
      | none =>
        if day = 0 || daysIn (Instant.numberAt s 0 4) month < day then some (utf8 "day") else none

/-- A whole number of 64 bits. -/
def wholeNumber (digits : Text) : Except Misfit Int :=
  let (negative, ds) := Decimal.splitSign digits
  let n : Int := Text.digitsValue ds
  let i := if negative then -n else n
  if fitsWord i then .ok i else .error (.outOfRange digits (utf8 "int"))

def finiteNumber (digits : Text) : Except Misfit Float :=
  let x := ((Decimal.read digits).map Decimal.Scaled.toFloat).getD 0
  if x.isInf then .error (.floatRange digits) else .ok x

/-- The error for a value that is no wanted kind; a value that is wrong in itself comes first. -/
def wrongKind (v : Toml.Node) (wanted : Text) : Misfit :=
  match v with
  | .integer _ => .wrongKind (utf8 "integer") wanted []
  | .float digits =>
    match finiteNumber digits with
    | .error e => e
    | .ok _ => .wrongKind (utf8 "float") wanted []
  | .moment s =>
    match timeFault? s with
    | some part => .noSuchTime s part
    | none => .wrongKind (utf8 "datetime") wanted []
  | .boolean _ => .wrongKind (utf8 "boolean") wanted []
  | .text _ _ => .wrongKind (utf8 "string") wanted []
  | .array _ => .wrongKind (utf8 "array") wanted (utf8 "slice")
  | .inline _ _ => .wrongKind (utf8 "table") wanted (utf8 "struct or map")

/-- Whether two values are written alike. -/
def sameForm : Toml.Node → Toml.Node → Bool
  | .integer _, .integer _ => true
  | .float _, .float _ => true
  | .moment _, .moment _ => true
  | .boolean _, .boolean _ => true
  | .text _ _, .text _ _ => true
  | .array _, .array _ => true
  | _, _ => false

/-- The texts of an array whose first item has the form of `first`. -/
def textItems (first : Toml.Node) : List Toml.Node → Except Misfit (List Text)
  | [] => .ok []
  | v :: vs =>
    if !sameForm first v then .error .mixedArray
    else match v with
      | .text s? _ => do return s?.getD [] :: (← textItems first vs)
      | v => .error (wrongKind v (utf8 "string"))

/-- Puts a value into its slot. -/
def Slot.place {σ : Type} (slot : Slot σ) (v : Toml.Node) : Except Misfit (σ → σ) :=
  match slot, v with
  | .text put, .text s? _ => .ok (put (s?.getD []))
  | .integer put, .integer digits => do return put (← wholeNumber digits)
  | .float put, .float digits => do return put (← finiteNumber digits)
  | .boolean put, .boolean b => .ok (put b)
  | .texts put, .array items => do
    return put (← textItems (items.headD (.array [])) items)
  | slot, v => .error (wrongKind v slot.kind)

/-- The names that a table may have. -/
structure Section (σ : Type) where
  /-- What the table is called in messages. -/
  kind : Text
  /-- A page that lists the names; empty for none. -/
  page : Text
  slots : List (Text × Slot σ)

namespace Section

variable {σ : Type}

def tableMisfit (t : Toml.Table) (wanted : Text) : MisfitAt :=
  ⟨t.line, [], .wrongKind (utf8 "table") wanted (utf8 "struct or map")⟩

/-- Takes one entry. -/
def assign (s : Section σ) (a : σ) (name : Text) (e : Toml.Entry) : Except MisfitAt σ :=
  match s.slots.find? (·.1 = name) with
  | none => .error ⟨e.line, [], .unknown name s.kind s.page⟩
  | some (_, .closed) => .error ⟨e.line, [], .closed name s.kind⟩
  | some (_, slot) =>
    let misfit (cause : Misfit) : MisfitAt := ⟨e.line, s.kind ++ utf8 "." ++ name, cause⟩
    match e with
    | .value _ v => do return (← (slot.place v).mapError misfit) a
    | .table t =>
      match slot with
      | .section _ read => read t a
      | _ => .error (tableMisfit t slot.kind)
    | .tables ts =>
      match slot, ts with
      | .texts _, t :: _ => .error (tableMisfit t (utf8 "string"))
      | _, _ => .error (misfit (.wrongKind (utf8 "array table") slot.kind (utf8 "slice")))

def read (s : Section σ) (t : Toml.Table) (a : σ) : Except MisfitAt σ :=
  t.entries.foldlM (fun a p => s.assign a p.1 p.2) a

end Section

namespace Settings

def page (path : String) : Text :=
  utf8 "github.com/probechain/lupy/" ++ utf8 path ++ utf8 "#Config"

/-- The fields of the pipeline. -/
def pipelineSection : Section PipelineSettings where
  kind := utf8 "translate.Config"
  page := page "translate"
  slots := [
    (utf8 "GrammarFile", .text fun x s => { s with grammarFile := x }),
    (utf8 "Unsafe", .boolean fun x s => { s with skipCheck := x }),
    (utf8 "Verify", .boolean fun x s => { s with verify := x }),
    (utf8 "Cache", .closed)]

/-- The fields of a batch. -/
def batchSection : Section Batch.Config where
  kind := utf8 "batch.Config"
  page := page "internal/batch"
  slots := [
    (utf8 "Input", .text fun x s => { s with input := x }),
    (utf8 "Output", .text fun x s => { s with output := x }),
    (utf8 "Workers", .integer fun x s => { s with workers := x }),
    (utf8 "CopyAssets", .boolean fun x s => { s with copyAssets := x })]

/-- The fields of the store. -/
def cacheSection : Section CacheSettings where
  kind := utf8 "main.cacheConfig"
  page := []
  slots := [
    (utf8 "Dir", .text fun x s => { s with directory := x }),
    (utf8 "MemoryBytes", .integer fun x s => { s with memoryBytes := x })]

/-- The fields of the service. -/
def serverSection : Section ServerSettings where
  kind := utf8 "server.Config"
  page := page "internal/server"
  slots := [
    (utf8 "Addr", .text fun x s => { s with address := x }),
    (utf8 "CORSOrigins", .texts fun x s => { s with origins := x }),
    (utf8 "RateLimit", .float fun x s => { s with rate := x }),
    (utf8 "RateBurst", .integer fun x s => { s with burst := x })]

/-- The tables of a file. -/
def sections : Section Settings where
  kind := utf8 "main.lupyConfig"
  page := []
  slots := [
    (utf8 "Translate", .section pipelineSection.kind fun t s => do
      return { s with pipeline := ← pipelineSection.read t s.pipeline }),
    (utf8 "Batch", .section batchSection.kind fun t s => do
      return { s with batch := ← batchSection.read t s.batch }),
    (utf8 "Cache", .section cacheSection.kind fun t s => do
      return { s with cache := ← cacheSection.read t s.cache }),
    (utf8 "Server", .section serverSection.kind fun t s => do
      return { s with server := ← serverSection.read t s.server })]

/-- The settings with what the text of a file says. -/
def reading (s : Settings) (path text : Text) : Except SettingsError Settings := do
  let t ← (Toml.read text).mapError (.notToml path)
  (sections.read t s).mapError fun e => .misfit path e.line e.place e.cause

def readingFile (s : Settings) (files : Files) (path : Text) : Except SettingsError Settings := do
  s.reading path (← (files.read path).mapError .unreadable)

end Settings

end Lunify

import Lunify.Batch.Discover
import Lunify.Cache.Store
import Lunify.Report.Basic

namespace Lunify

namespace Batch

/-! ### Running a batch

Every file is a job of its own: a job that fails leaves the others as they are. A source is written
as Lua in place of what may be there, an asset is only copied where there is nothing. -/

/-- What a batch is to do. -/
structure Config where
  input : Text
  output : Text
  workers : Int
  copyAssets : Bool
deriving DecidableEq, Repr

/-- A file to work on. -/
structure Job where
  source : Text
  target : Text
  isAsset : Bool
deriving DecidableEq, Repr

/-- Why a job fails. -/
inductive JobError where
  | files (e : FileError)
  | source (e : Failure)

namespace JobError

def message : JobError → Text
  | .files e => e.message
  | .source e => e.message

def verdict : JobError → Verdict
  | .files _ => .internal
  | .source e => e.verdict

end JobError

/-- A job and what became of it. -/
structure Result where
  job : Job
  error? : Option JobError

def Result.verdict (r : Result) : Verdict :=
  match r.error? with
  | some e => e.verdict
  | none => .none

/-- Why a batch cannot run at all. -/
inductive BatchError where
  | files (e : FileError)
  | notBelow (e : NotBelow)

def BatchError.message : BatchError → Text
  | .files e => e.message
  | .notBelow e => e.message

/-- The jobs of a batch: the sources, then the assets if they are copied. -/
def jobs (files : Files) (c : Config) : Except BatchError (List Job) := do
  let (sources, assets) ← (discover files c.input).mapError .files
  let paths := sources.map (·, false) ++ if c.copyAssets then assets.map (·, true) else []
  paths.mapM fun (source, isAsset) => do
    let target ← (target files c.input c.output source).mapError .notBelow
    return { source, target, isAsset }

abbrev Compiler (σ : Type) := σ → Text → Except Failure Text × σ

/-- Does a job: the files and the state afterwards, and the error if it fails. -/
def perform {σ : Type} (compile : Compiler σ) (files : Files) (state : σ) (job : Job) :
    Files × σ × Option JobError :=
  if job.isAsset then
    match files.makeDirectories (Path.dir job.target) with
    | .error e => (files, state, some (.files e))
    | .ok made =>
      match made.read job.source with
      | .error e => (made, state, some (.files e))
      | .ok s =>
        match made.create job.target s with
        | .error e => (made, state, some (.files e))
        | .ok files => (files, state, none)
  else
    match files.read job.source with
    | .error e => (files, state, some (.files e))
    | .ok s =>
      match compile state s with
      | (.error e, state) => (files, state, some (.source e))
      | (.ok lua, state) =>
        match files.makeDirectories (Path.dir job.target) with
        | .error e => (files, state, some (.files e))
        | .ok made =>
          match made.write job.target lua with
          | .error e => (made, state, some (.files e))
          | .ok files => (files, state, none)

/-- Does jobs one after the other. -/
def performAll {σ : Type} (compile : Compiler σ) (files : Files) (state : σ) :
    List Job → Files × σ × List Result
  | [] => (files, state, [])
  | job :: rest =>
    let (files, state, error?) := perform compile files state job
    let (files, state, results) := performAll compile files state rest
    (files, state, ⟨job, error?⟩ :: results)

def direct (p : Pipeline) : Compiler Unit :=
  fun _ s => (p.lua s, ())

/-- Compiles by a pipeline and a store, if there is one. -/
def stored (p : Pipeline) : Compiler (Option Store) :=
  fun store? s => match store? with
    | none => (p.lua s, none)
    | some store =>
      let (r, store) := p.luaThrough store s
      (r, some store)

/-- What is printed about a result. -/
def printed (source : Text) (error? : Option Text) : Text :=
  source ++ utf8 "\n" ++ match error? with
    | none => utf8 "Status: SUCCESS\n"
    | some message => utf8 "Status: ERROR\nDescription: " ++ message ++ utf8 "\nFile skipped\n"

def Result.printed (r : Result) : Text :=
  Batch.printed r.job.source (r.error?.map JobError.message)

def Result.entry (r : Result) (elapsed : Duration) : ReportEntry :=
  ⟨r.job.source, r.job.target, r.job.isAsset, r.error?.map fun e => e.verdict.name, elapsed⟩

end Batch

end Lunify

import Lunify.Report.Table
import Lunify.Time.Duration

namespace Lunify

/-! ### Reports

What became of the files of a batch, as a table. -/

/-- What became of one file. -/
structure ReportEntry where
  source : Text
  target : Text
  isAsset : Bool
  /-- The word for the failure, if there was one. -/
  failure? : Option Text
  elapsed : Duration
deriving DecidableEq, Repr

/-- What became of all files. -/
structure Report where
  entries : List ReportEntry
  elapsed : Duration
deriving DecidableEq, Repr

def ReportEntry.status (e : ReportEntry) : Text :=
  match e.failure? with
  | some kind => kind ++ utf8 " error"
  | none => utf8 (if e.isAsset then "copied" else "ok")

namespace Report

def failed (r : Report) : Nat :=
  r.entries.countP fun e => e.failure?.isSome

/-- The report as a table. The times of files are rounded to microseconds, the whole time to
milliseconds. -/
def table (r : Report) : Table where
  heading := [utf8 "File", utf8 "Output", utf8 "Status", utf8 "Time"]
  rows := r.entries.map fun e =>
    [e.source, e.target, e.status, (e.elapsed.round Duration.microsecond).text]
  footing := [[], [], Text.ofNat r.failed ++ utf8 " failed",
    (r.elapsed.round Duration.millisecond).text]

def text (r : Report) : Text :=
  r.table.text

end Report

end Lunify

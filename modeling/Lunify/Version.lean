import Lunify.Text.Basic

namespace Lunify

namespace Version

/-! ### The version -/

def release : Text := utf8 "0.3.0"

def kind : Text := utf8 "unstable"

def withKind : Text := release ++ utf8 "-" ++ kind

def commitLength : Nat := 8

/-- The version with the first bytes of a commit, if it is long enough, and a date, if there is
one. -/
def withCommit (commit date : Text) : Text :=
  withKind ++
    (if commitLength ≤ commit.length then utf8 "-" ++ commit.take commitLength else []) ++
    (if date.isEmpty then [] else utf8 "-" ++ date)

end Version

end Lunify

namespace Lunify

/-! ### Adaptive caches

A cache of bounded size that balances keys seen once lately against keys seen more often. It keeps
two lists of entries, each with the newest first: entries seen once, and entries seen again. Two
more lists hold the keys that were lately dropped from these. A request for such a key moves the
target for the length of the first list: up when the key was dropped from the first list, down when
it was dropped from the second. -/

/-- A cache with its target. All four lists have the newest first. -/
structure Adaptive (κ α : Type) where
  size : Nat
  /-- The length that the list of entries seen once should have. -/
  target : Nat
  recent : List (κ × α)
  frequent : List (κ × α)
  droppedRecent : List κ
  droppedFrequent : List κ

namespace Adaptive

variable {κ α : Type} [DecidableEq κ]

def empty (size : Nat) : Adaptive κ α :=
  ⟨size, 0, [], [], [], []⟩

def length (c : Adaptive κ α) : Nat :=
  c.recent.length + c.frequent.length

def find? (key : κ) (entries : List (κ × α)) : Option α :=
  (entries.find? fun e => e.1 = key).map Prod.snd

def without (key : κ) (entries : List (κ × α)) : List (κ × α) :=
  entries.filter fun e => e.1 ≠ key

/-- Puts an entry at the front of a list of at most `size` entries. -/
def push (size : Nat) (key : κ) (value : α) (entries : List (κ × α)) : List (κ × α) :=
  ((key, value) :: without key entries).take size

def pushKey (size : Nat) (key : κ) (keys : List κ) : List κ :=
  (key :: keys.filter (· ≠ key)).take size

/-- Looks a key up. A key that is found counts as seen again. -/
def get (c : Adaptive κ α) (key : κ) : Option α × Adaptive κ α :=
  match find? key c.recent with
  | some v =>
    (some v, { c with recent := without key c.recent, frequent := push c.size key v c.frequent })
  | none =>
    match find? key c.frequent with
    | some v => (some v, { c with frequent := push c.size key v c.frequent })
    | none => (none, c)

/-- Drops the oldest entry of the first list if that is longer than its target, else of the
second. At the target the first list gives way to a key that was dropped from the second. -/
def replace (c : Adaptive κ α) (wasFrequent : Bool) : Adaptive κ α :=
  let n := c.recent.length
  if 0 < n && (c.target < n || (n = c.target && wasFrequent)) then
    match c.recent.getLast? with
    | some (k, _) => { c with
        recent := c.recent.dropLast, droppedRecent := pushKey c.size k c.droppedRecent }
    | none => c
  else
    match c.frequent.getLast? with
    | some (k, _) => { c with
        frequent := c.frequent.dropLast, droppedFrequent := pushKey c.size k c.droppedFrequent }
    | none => c

def makeRoom (c : Adaptive κ α) (wasFrequent : Bool) : Adaptive κ α :=
  if c.size ≤ c.length then c.replace wasFrequent else c

/-- By how much the target moves: the ratio of the lengths, at least one. -/
def stride (other own : Nat) : Nat :=
  if own < other then other / own else 1

/-- Adds an entry under a key that the cache does not hold. -/
def add (c : Adaptive κ α) (key : κ) (value : α) : Adaptive κ α :=
  let once := c.droppedRecent.length
  let often := c.droppedFrequent.length
  if key ∈ c.droppedRecent then
    let c := { c with target := min c.size (c.target + stride often once) }
    let c := c.makeRoom false
    { c with
      droppedRecent := c.droppedRecent.filter (· ≠ key)
      frequent := push c.size key value c.frequent }
  else if key ∈ c.droppedFrequent then
    let c := { c with target := c.target - stride once often }
    let c := c.makeRoom true
    { c with
      droppedFrequent := c.droppedFrequent.filter (· ≠ key)
      frequent := push c.size key value c.frequent }
  else
    let c := c.makeRoom false
    { c with
      droppedRecent := if c.size - c.target < c.droppedRecent.length then
        c.droppedRecent.dropLast else c.droppedRecent
      droppedFrequent := if c.target < c.droppedFrequent.length then
        c.droppedFrequent.dropLast else c.droppedFrequent
      recent := push c.size key value c.recent }

end Adaptive

end Lunify

import Lunify.Log.Format
import Lunify.Proofs.Text.Quoted
import Lunify.Proofs.Text.Split

/-!
# Lines of fields

A line of the log can be read back. Its fields are the parts between the spaces that are not inside of quotes
(`Log.pieces`), the key of a field ends at its first equals sign, and a value that begins with a quote is a quoted text
(`Log.pair?`). As a value with a quote in it is written between quotes, the two kinds of values cannot be
confused (`Log.exists_fieldLine`).
-/

namespace Lunify

open List

namespace Log

open Text (quoted marks escapeRune)

/-! ### Reading a line -/

/-- Where a byte of a line stands: outside of quotes, between quotes, or there after a backslash. -/
inductive Spot where
  | outside
  | inside
  | escaped
deriving DecidableEq

def Spot.after : Spot → UInt8 → Spot
  | .outside, b => if b = byte '"' then .inside else .outside
  | .inside, b => if b = byte '\\' then .escaped else if b = byte '"' then .outside else .inside
  | .escaped, _ => .inside

/-- The pieces of a text between the spaces outside of quotes. -/
def pieces : Spot → Text → List Text
  | _, [] => [[]]
  | spot, b :: r =>
    if spot = .outside && b = byte ' ' then [] :: pieces .outside r
    else (pieces (spot.after b) r).modifyHead (b :: ·)

/-- A field as a key and a value. -/
def pair? (field : Text) : Option (Text × Text) :=
  (Text.cutAt (utf8 "=") field).bind fun (key, value) =>
    (if value.head? = some (byte '"') then Text.unquoted? value else some value).map (key, ·)

/-- The keys and values on a line. -/
def pairs? (line : Text) : Option (List (Text × Text)) :=
  if line.isEmpty then some [] else (pieces .outside line).mapM pair?

/-! ### The pieces of a line -/

/-- A text that is walked from one spot to another without a separator. -/
def Whole (spot spot' : Spot) (s : Text) : Prop :=
  ∀ r, pieces spot (s ++ r) = (pieces spot' r).modifyHead (s ++ ·)

lemma Whole.append {spot spot' spot'' : Spot} {s t : Text} (hs : Whole spot spot' s) (ht : Whole spot' spot'' t) :
    Whole spot spot'' (s ++ t) := by
  intro r
  rw [append_assoc, hs, ht, modifyHead_modifyHead]
  congr 1
  funext u
  exact (append_assoc s t u).symm

lemma whole_nil (spot : Spot) : Whole spot spot [] := by
  intro r
  cases h : pieces spot r <;> simp [h]

lemma whole_cons {spot spot' : Spot} {b : UInt8} {s : Text} (hb : ¬ (spot = .outside ∧ b = byte ' '))
    (hs : Whole (spot.after b) spot' s) : Whole spot spot' (b :: s) := by
  intro r
  rw [cons_append, pieces, if_neg (by simpa using hb), hs, modifyHead_modifyHead]
  rfl

/-- Bytes that keep the spot. -/
lemma whole_of_forall {spot : Spot} {s : Text}
    (hs : ∀ b ∈ s, spot.after b = spot ∧ ¬ (spot = .outside ∧ b = byte ' ')) : Whole spot spot s := by
  induction s with
  | nil => exact whole_nil spot
  | cons b s ih =>
    obtain ⟨hb, hs⟩ := forall_mem_cons.1 hs
    exact whole_cons hb.2 (hb.1.symm ▸ ih hs)

lemma whole_inside {s : Text} (hs : ∀ b ∈ s, b ∉ marks) : Whole .inside .inside s := by
  refine whole_of_forall fun b hb => ?_
  have hmark := hs b hb
  simp only [marks, mem_cons, not_or] at hmark
  simp [Spot.after, hmark]

lemma whole_escapeRune (r : Rune) : Whole .inside .inside (escapeRune '"' r) := by
  rcases Text.escapeRune_cases r with ⟨h, hplain⟩ | ⟨b, ds, h, -, hds, -⟩
  · exact h ▸ whole_inside hplain
  · rw [h]
    exact whole_cons (by simp) (whole_cons (by simp [Spot.after]) (whole_inside hds))

/-- A quoted text is whole. -/
lemma whole_quoted (s : Text) : Whole .outside .outside (quoted s) := by
  have hrunes : ∀ rs : List Rune, Whole .inside .inside (rs.flatMap (escapeRune '"')) := by
    intro rs
    induction rs with
    | nil => exact whole_nil _
    | cons r rs ih => exact (whole_escapeRune r).append ih
  exact whole_cons (by decide) ((hrunes _).append (whole_cons (by simp) (whole_nil _)))

/-- Whole pieces with spaces between them are found again. -/
lemma pieces_join {fs : List Text} (hne : fs ≠ []) (hfs : ∀ f ∈ fs, Whole .outside .outside f) :
    pieces .outside (Text.join (utf8 " ") fs) = fs := by
  induction fs with
  | nil => exact absurd rfl hne
  | cons f fs ih =>
    obtain ⟨hf, hfs⟩ := forall_mem_cons.1 hfs
    cases fs with
    | nil =>
      have h := hf []
      rw [append_nil] at h
      simpa [Text.join, pieces] using h
    | cons f' fs =>
      rw [Text.join, intercalate_cons_cons, ← Text.join, append_assoc, hf]
      change (pieces .outside (byte ' ' :: Text.join (utf8 " ") (f' :: fs))).modifyHead _ = _
      rw [pieces, if_pos (by decide), ih (cons_ne_nil _ _) hfs]
      simp

/-! ### Fields -/

lemma of_needsQuotes_eq_false {value : Text} (h : needsQuotes value = false) :
    ∀ b ∈ value, byte ' ' < b ∧ b ≠ byte '=' ∧ b ≠ byte '"' := by
  intro b hb
  simp only [needsQuotes, Bool.or_eq_false_iff, any_eq_false] at h
  simpa [and_assoc] using h.2 b hb

/-- What a key and a value are written as. -/
def written (p : Text × Text) : Text :=
  p.1 ++ (utf8 "=" ++ fieldText p.2)

lemma fields_eq (terminal : Bool) (pairs : List (Text × Text)) :
    fields terminal none (pairs.flatMap fun p => [.string p.1, .string p.2]) = .ok (pairs.map written) := by
  induction pairs with
  | nil => rfl
  | cons p pairs ih =>
    simp only [flatMap_cons, cons_append, nil_append, fields, ih]
    simp [field, Value.field, coloured, written, bind, Except.bind, pure, Except.pure]

section

variable {p : Text × Text} (hkey : ∀ b ∈ p.1, byte ' ' < b ∧ b ≠ byte '=' ∧ b ≠ byte '"')

include hkey

lemma whole_written : Whole .outside .outside (written p) := by
  have hplain : ∀ {s : Text}, (∀ b ∈ s, byte ' ' < b ∧ b ≠ byte '"') → Whole .outside .outside s := by
    intro s hs
    refine whole_of_forall fun b hb => ⟨by simp [Spot.after, (hs b hb).2], ?_⟩
    rintro ⟨-, rfl⟩
    exact absurd (hs _ hb).1 (by decide)
  refine (hplain fun b hb => ⟨(hkey b hb).1, (hkey b hb).2.2⟩).append ((hplain (by decide +kernel)).append ?_)
  unfold fieldText
  split
  · exact whole_quoted p.2
  · rename_i hquotes
    have hvalue := of_needsQuotes_eq_false (Bool.eq_false_of_not_eq_true hquotes)
    exact hplain fun b hb => ⟨(hvalue b hb).1, (hvalue b hb).2.2⟩

lemma notMem_written : byte '\n' ∉ written p := by
  have hplain : ∀ {s : Text}, (∀ b ∈ s, byte ' ' < b ∧ b ≠ byte '=' ∧ b ≠ byte '"') → byte '\n' ∉ s :=
    fun hs hmem => absurd (hs _ hmem).1 (by decide)
  rw [written, mem_append, mem_append, not_or, not_or]
  refine ⟨hplain hkey, by decide, ?_⟩
  unfold fieldText
  split
  · exact Text.notMem_quoted p.2
  · rename_i hquotes
    exact hplain (of_needsQuotes_eq_false (Bool.eq_false_of_not_eq_true hquotes))

/-- A field is read back. -/
lemma pair?_written : pair? (written p) = some p := by
  have hcut : Text.cutAt (utf8 "=") (written p) = some (p.1, fieldText p.2) := by
    refine Text.cutAt_append fun t ht hsuffix hbegins => ?_
    obtain ⟨b, t, rfl⟩ := exists_cons_of_ne_nil ht
    have hb := (hkey b (hsuffix.subset mem_cons_self)).2.1
    exact hb (cons_prefix_cons.1 hbegins).1.symm
  simp only [pair?, hcut, Option.bind_some]
  by_cases hquotes : needsQuotes p.2 = true
  · rw [fieldText, if_pos hquotes, if_pos (by rfl), Text.unquoted?_quoted]
    rfl
  · have hvalue := of_needsQuotes_eq_false (Bool.eq_false_of_not_eq_true hquotes)
    rw [fieldText, if_neg hquotes, if_neg fun hhead => (hvalue _ (mem_of_head? hhead)).2.2 rfl]
    rfl

end

/-- Keys without spaces, control bytes, equals signs and quotes, and values of any bytes, make one line, and they are read
back from it. -/
theorem exists_fieldLine (terminal : Bool) (pairs : List (Text × Text))
    (hkeys : ∀ p ∈ pairs, ∀ b ∈ p.1, byte ' ' < b ∧ b ≠ byte '=' ∧ b ≠ byte '"') :
    ∃ line, fieldLine terminal none (pairs.flatMap fun p => [.string p.1, .string p.2]) = .ok (line ++ [byte '\n']) ∧
      byte '\n' ∉ line ∧ pairs? line = some pairs := by
  refine ⟨Text.join (utf8 " ") (pairs.map written), ?_, ?_, ?_⟩
  · rw [fieldLine, fields_eq]
    rfl
  · refine Text.notMem_join (by decide) fun f hf => ?_
    obtain ⟨p, hp, rfl⟩ := List.mem_map.1 hf
    exact notMem_written (hkeys p hp)
  · cases pairs with
    | nil => rfl
    | cons p pairs =>
      have hne : (Text.join (utf8 " ") ((p :: pairs).map written)).isEmpty = false := by
        have hmark : utf8 "=" ≠ [] := by decide
        cases pairs <;> simp [Text.join, written, hmark]
      have hwhole : ∀ f ∈ (p :: pairs).map written, Whole .outside .outside f := by
        intro f hf
        obtain ⟨p, hp, rfl⟩ := List.mem_map.1 hf
        exact whole_written (hkeys p hp)
      rw [pairs?, hne, if_neg Bool.false_ne_true, pieces_join (by simp) hwhole]
      generalize p :: pairs = pairs at hkeys
      induction pairs with
      | nil => rfl
      | cons p pairs ih =>
        obtain ⟨hp, hpairs⟩ := List.forall_mem_cons.1 hkeys
        rw [List.map_cons, List.mapM_cons, pair?_written hp, ih hpairs]
        rfl

/-- An empty value, a value with a quote, a backslash, a line feed and bytes that are no characters, and an empty key. -/
theorem exists_fieldLine_escaped :
    let pairs : List (Text × Text) :=
      [(utf8 "lua", []), ([0xFF], utf8 "x = \"\\\n" ++ [0x80, 0x7F]), ([], utf8 "plain")]
    (∀ p ∈ pairs, ∀ b ∈ p.1, byte ' ' < b ∧ b ≠ byte '=' ∧ b ≠ byte '"') ∧
    ∃ line, fieldLine false none (pairs.flatMap fun p => [.string p.1, .string p.2]) = .ok (line ++ [byte '\n']) ∧
      byte '\n' ∉ line ∧ pairs? line = some pairs := by
  intro pairs
  have hkeys : ∀ p ∈ pairs, ∀ b ∈ p.1, byte ' ' < b ∧ b ≠ byte '=' ∧ b ≠ byte '"' := by decide +kernel
  exact ⟨hkeys, exists_fieldLine false pairs hkeys⟩

end Log

end Lunify

import Mathlib.Data.List.TakeWhile

/-!
# Decimal numerals in text

`strtoll` and `strtoul` in base ten skip white space, take a sign if there is one and then
digits for as long as there are any; whatever stands behind is left alone, and only a text
without a digit there is no number. `scan` is what they have in common: the sign and the
magnitude they come by.

`Denotes` is what a text means that is a numeral as a whole. There the scan reads its
number (`scan_of_denotes`); of any other text it may read the beginning.
-/

namespace HftLob.Lib.Numeral

/-- `isspace` in the "C" locale. -/
def isSpace (c : Char) : Bool := c.toNat = 32 || (9 ≤ c.toNat && c.toNat ≤ 13)

def digitsValue (digits : List Char) : Nat :=
  digits.foldl (fun n d => 10 * n + (d.toNat - 48)) 0

/-- Whether there is a minus sign, and what is behind the sign. -/
def splitSign : List Char → Bool × List Char
  | [] => (false, [])
  | c :: s => if c = '-' then (true, s) else if c = '+' then (false, s) else (false, c :: s)

/-- Sign and magnitude; `none` if there is no digit. -/
def scan (s : List Char) : Option (Bool × Nat) :=
  let signed := splitSign (s.dropWhile isSpace)
  let digits := signed.2.takeWhile Char.isDigit
  if digits = [] then none else some (signed.1, digitsValue digits)

/-- The text is the number with white space around it, and nothing else. -/
def Denotes (s : List Char) (n : Int) : Prop :=
  ∃ lead sign digits trail : List Char, s = lead ++ (sign ++ (digits ++ trail))
    ∧ (∀ c ∈ lead, isSpace c = true) ∧ (∀ c ∈ trail, isSpace c = true)
    ∧ digits ≠ [] ∧ (∀ c ∈ digits, c.isDigit = true)
    ∧ ((sign = [] ∨ sign = ['+']) ∧ n = digitsValue digits
      ∨ sign = ['-'] ∧ n = -(digitsValue digits : Int))

variable {s : List Char} {n : Int}

theorem isDigit_toNat {c : Char} (h : c.isDigit = true) : 48 ≤ c.toNat ∧ c.toNat ≤ 57 := by
  rw [Char.isDigit, Bool.and_eq_true, decide_eq_true_eq, decide_eq_true_eq] at h
  exact ⟨UInt32.le_iff_toNat_le.mp h.1, UInt32.le_iff_toNat_le.mp h.2⟩

theorem isSpace_toNat {c : Char} (h : isSpace c = true) :
    c.toNat = 32 ∨ (9 ≤ c.toNat ∧ c.toNat ≤ 13) := by
  simpa [isSpace] using h

/-- White space ends a run of digits. -/
theorem takeWhile_space {trail : List Char} (h : ∀ c ∈ trail, isSpace c = true) :
    trail.takeWhile Char.isDigit = [] := by
  cases trail with
  | nil => rfl
  | cons c trail =>
      have hspace := isSpace_toNat (h c List.mem_cons_self)
      refine List.takeWhile_cons_of_neg fun hdigit => ?_
      have := isDigit_toNat hdigit
      omega

/-- The first character behind leading white space is kept. -/
theorem dropWhile_lead {lead rest : List Char} {c : Char} (h : ∀ c ∈ lead, isSpace c = true)
    (hc : isSpace c = false) : (lead ++ c :: rest).dropWhile isSpace = c :: rest := by
  rw [List.dropWhile_append_of_pos h, List.dropWhile_cons_of_neg (by simp [hc])]

theorem splitSign_digit {c : Char} {rest : List Char} (h : c.isDigit = true) :
    splitSign (c :: rest) = (false, c :: rest) := by
  have hrange := isDigit_toNat h
  have hminus : c ≠ '-' := by
    rintro rfl
    revert hrange
    decide
  have hplus : c ≠ '+' := by
    rintro rfl
    revert hrange
    decide
  rw [splitSign, if_neg hminus, if_neg hplus]

theorem isSpace_digit {c : Char} (h : c.isDigit = true) : isSpace c = false := by
  have hrange := isDigit_toNat h
  cases hs : isSpace c with
  | false => rfl
  | true =>
      have := isSpace_toNat hs
      omega

/-- **The scan reads a numeral.** -/
theorem scan_of_denotes (h : Denotes s n) :
    ∃ minus m, scan s = some (minus, m) ∧ n = if minus then -(m : Int) else m := by
  obtain ⟨lead, sign, digits, trail, rfl, hlead, htrail, hne, hdigits, hvalue⟩ := h
  obtain ⟨d, ds, rfl⟩ := List.exists_cons_of_ne_nil hne
  have hd : d.isDigit = true := hdigits d List.mem_cons_self
  have hrun : ((d :: ds) ++ trail).takeWhile Char.isDigit = d :: ds := by
    rw [List.takeWhile_append_of_pos hdigits, takeWhile_space htrail, List.append_nil]
  -- what the sign makes of the text in front of the digits
  have hsigned : ∃ minus, splitSign ((lead ++ (sign ++ ((d :: ds) ++ trail))).dropWhile isSpace)
        = (minus, (d :: ds) ++ trail)
      ∧ n = if minus then -(digitsValue (d :: ds) : Int) else digitsValue (d :: ds) := by
    rcases hvalue with ⟨rfl | rfl, hn⟩ | ⟨rfl, hn⟩
    · refine ⟨false, ?_, hn⟩
      rw [List.nil_append, List.cons_append, dropWhile_lead hlead (isSpace_digit hd),
        splitSign_digit hd]
    · refine ⟨false, ?_, hn⟩
      rw [List.cons_append, List.nil_append, dropWhile_lead hlead (by decide)]
      rfl
    · refine ⟨true, ?_, hn⟩
      rw [List.cons_append, List.nil_append, dropWhile_lead hlead (by decide)]
      rfl
  obtain ⟨minus, hsplit, hn⟩ := hsigned
  refine ⟨minus, digitsValue (d :: ds), ?_, hn⟩
  unfold scan
  rw [hsplit]
  dsimp only
  rw [hrun, if_neg (by simp)]

theorem Denotes.ne_nil (h : Denotes s n) : s ≠ [] := by
  obtain ⟨lead, sign, digits, trail, rfl, _, _, hne, _⟩ := h
  simp [hne]

end HftLob.Lib.Numeral

/-!
Whole numbers in decimal writing: digits, an optional sign, and no other decoration. Writing a
number and reading it back gives the number.
-/

namespace TinyScript.Decimal

/-- A numeral is one or more of the digits `0` to `9`. -/
def isNumeral (cs : List Char) : Bool :=
  !cs.isEmpty && cs.all Char.isDigit

def natural? (cs : List Char) : Option Nat :=
  if isNumeral cs then some (Nat.ofDigitChars 10 cs 0) else none

/-- Reads a numeral with at most one sign in front of it. Leading zeros are allowed. -/
def integer? : List Char → Option Int
  | '+' :: cs => (natural? cs).map Int.ofNat
  | '-' :: cs => (natural? cs).map fun n => -Int.ofNat n
  | cs => (natural? cs).map Int.ofNat

def ofNat (n : Nat) : String :=
  String.ofList (Nat.toDigits 10 n)

/-- Only negative numbers are written with a sign. -/
def ofInt : Int → String
  | .ofNat n => ofNat n
  | .negSucc n => "-" ++ ofNat (n + 1)

theorem isNumeral_iff {cs : List Char} :
    isNumeral cs = true ↔ cs ≠ [] ∧ ∀ c ∈ cs, c.isDigit = true := by
  simp [isNumeral]

theorem isNumeral_toDigits (n : Nat) : isNumeral (Nat.toDigits 10 n) = true :=
  isNumeral_iff.mpr ⟨Nat.toDigits_ne_nil, fun _ hc =>
    Nat.isDigit_of_mem_toDigits (by decide) (by decide) hc⟩

theorem natural?_ofNat (n : Nat) : natural? (ofNat n).toList = some n := by
  simp [natural?, ofNat, isNumeral_toDigits, Nat.ofDigitChars_toDigits]

/-- A numeral starts with no sign, so it is read as it stands. -/
theorem integer?_of_isNumeral {cs : List Char} (h : isNumeral cs = true) :
    integer? cs = (natural? cs).map Int.ofNat := by
  have hd := (isNumeral_iff.mp h).2
  unfold integer?
  split
  · exact absurd (hd '+' (by simp)) (by decide)
  · exact absurd (hd '-' (by simp)) (by decide)
  · rfl

theorem integer?_ofInt (n : Int) : integer? (ofInt n).toList = some n := by
  cases n with
  | ofNat n =>
    rw [ofInt, integer?_of_isNumeral (by simp [ofNat, isNumeral_toDigits]), natural?_ofNat]
    rfl
  | negSucc n =>
    have hs : "-".toList = ['-'] := by decide
    rw [ofInt, String.toList_append, hs, List.singleton_append, integer?, natural?_ofNat]
    rfl

end TinyScript.Decimal

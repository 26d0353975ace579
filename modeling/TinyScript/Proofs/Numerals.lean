import TinyScript.Eval.Nodes

/-!
Numbers and their decimal writing. A literal stands for the number that its digits write, whatever
its sign and however many zeros lead it, as long as that number fits; and a number that fits is read
back from what is shown for it.
-/

namespace TinyScript

namespace Decimal

/-- The characters are digits that write the number. A further digit counts one each, and those
before it ten times what they did. -/
inductive Writes : List Char → Nat → Prop where
  | digit {c : Char} (h : c.isDigit = true) : Writes [c] (c.toNat - '0'.toNat)
  | more {cs : List Char} {n : Nat} {c : Char} (hs : Writes cs n) (h : c.isDigit = true) :
      Writes (cs ++ [c]) (10 * n + (c.toNat - '0'.toNat))

/-- The characters write the integer: digits, with one sign or none in front of them. -/
inductive WritesSigned : List Char → Int → Prop where
  | plain {cs : List Char} {n : Nat} (h : Writes cs n) : WritesSigned cs n
  | plus {cs : List Char} {n : Nat} (h : Writes cs n) : WritesSigned ('+' :: cs) n
  | minus {cs : List Char} {n : Nat} (h : Writes cs n) : WritesSigned ('-' :: cs) (-n)

/-- The digits without the zeros that lead them. Of zeros alone, one stays. -/
def significant (cs : List Char) : List Char :=
  match cs.dropWhile (· = '0') with
  | [] => ['0']
  | c :: cs => c :: cs

theorem Writes.isNumeral {cs : List Char} {n : Nat} (h : Writes cs n) : isNumeral cs = true := by
  induction h with
  | digit h => simp [isNumeral_iff, h]
  | more hs h ih =>
    rw [isNumeral_iff] at ih ⊢
    refine ⟨by simp, ?_⟩
    intro c hc
    rcases List.mem_append.mp hc with hc | hc
    · exact ih.2 c hc
    · rw [List.mem_singleton.mp hc]
      exact h

theorem Writes.value {cs : List Char} {n : Nat} (h : Writes cs n) :
    Nat.ofDigitChars 10 cs 0 = n := by
  induction h with
  | digit h => simp [Nat.ofDigitChars_cons, Nat.ofDigitChars_nil]
  | more hs h ih => rw [Nat.ofDigitChars_append, ih, Nat.ofDigitChars_cons, Nat.ofDigitChars_nil]

/-- Digits that follow are read on from what is written so far. -/
theorem Writes.append {cs : List Char} {n : Nat} (h : Writes cs n) {more : List Char}
    (hd : ∀ c ∈ more, c.isDigit = true) :
    Writes (cs ++ more) (Nat.ofDigitChars 10 more n) := by
  induction more generalizing cs n with
  | nil =>
    rw [List.append_nil, Nat.ofDigitChars_nil]
    exact h
  | cons c more ih =>
    obtain ⟨hc, hd⟩ := List.forall_mem_cons.mp hd
    have hm := ih (h.more hc) hd
    rw [List.append_assoc] at hm
    rw [Nat.ofDigitChars_cons]
    exact hm

/-- Every numeral writes the number that it is read as. -/
theorem writes_of_isNumeral {cs : List Char} (h : isNumeral cs = true) :
    Writes cs (Nat.ofDigitChars 10 cs 0) := by
  obtain ⟨hne, hd⟩ := isNumeral_iff.mp h
  obtain ⟨c, more, rfl⟩ := List.exists_cons_of_ne_nil hne
  obtain ⟨hc, hd⟩ := List.forall_mem_cons.mp hd
  rw [Nat.ofDigitChars_cons, Nat.mul_zero, Nat.zero_add]
  exact (Writes.digit hc).append hd

theorem natural?_eq_some_iff {cs : List Char} {n : Nat} :
    natural? cs = some n ↔ Writes cs n := by
  unfold natural?
  constructor
  · intro h
    split at h
    · rename_i hn
      cases h
      exact writes_of_isNumeral hn
    · cases h
  · intro h
    rw [if_pos h.isNumeral, h.value]

/-- A text is read as an integer exactly if it writes one, and as that one. -/
theorem integer?_eq_some_iff {cs : List Char} {n : Int} :
    integer? cs = some n ↔ WritesSigned cs n := by
  constructor
  · intro h
    unfold integer? at h
    split at h
    all_goals
      obtain ⟨k, hk, rfl⟩ := Option.map_eq_some_iff.mp h
      have hw := natural?_eq_some_iff.mp hk
    · exact .plus hw
    · exact .minus hw
    · exact .plain hw
  · intro h
    cases h with
    | plain h =>
      rw [integer?_of_isNumeral h.isNumeral, natural?_eq_some_iff.mpr h]
      rfl
    | plus h =>
      rw [integer?, natural?_eq_some_iff.mpr h]
      rfl
    | minus h =>
      rw [integer?, natural?_eq_some_iff.mpr h]
      rfl

theorem digit_lt_ten {c : Char} (h : c.isDigit = true) : c.toNat - '0'.toNat < 10 := by
  have hb : c.toNat ≤ 57 := (Char.isDigit_iff_toNat.mp h).2
  change c.toNat - 48 < 10
  omega

/-- What a digit counts is written by that digit. -/
theorem toDigits_digit {c : Char} (h : c.isDigit = true) :
    Nat.toDigits 10 (c.toNat - '0'.toNat) = [c] := by
  have hb : 48 ≤ c.toNat := (Char.isDigit_iff_toNat.mp h).1
  rw [Nat.toDigits_of_lt_base (digit_lt_ten h)]
  congr 1
  apply Char.toNat_inj.mp
  rw [Nat.toNat_digitChar_of_lt_ten (digit_lt_ten h)]
  change 48 + (c.toNat - 48) = c.toNat
  omega

/-- Behind a number that is not zero, every digit is written out, zeros too. -/
theorem toDigits_append {cs : List Char} (hd : ∀ c ∈ cs, c.isDigit = true) {n : Nat} (hn : 0 < n) :
    Nat.toDigits 10 n ++ cs = Nat.toDigits 10 (Nat.ofDigitChars 10 cs n) := by
  induction cs generalizing n with
  | nil => rw [List.append_nil, Nat.ofDigitChars_nil]
  | cons c cs ih =>
    obtain ⟨hc, hd⟩ := List.forall_mem_cons.mp hd
    have hstep := Nat.toDigits_append_toDigits (b := 10) (by omega) hn (digit_lt_ten hc)
    rw [toDigits_digit hc] at hstep
    calc
      Nat.toDigits 10 n ++ c :: cs = Nat.toDigits 10 n ++ [c] ++ cs := by simp
      _ = Nat.toDigits 10 (10 * n + (c.toNat - '0'.toNat)) ++ cs := by rw [hstep]
      _ = Nat.toDigits 10 (Nat.ofDigitChars 10 (c :: cs) n) := by
        rw [ih hd (by omega), Nat.ofDigitChars_cons]

/-- What is shown for a number that was read from digits: these digits, without leading zeros. -/
theorem toDigits_ofDigitChars {cs : List Char} (hd : ∀ c ∈ cs, c.isDigit = true) :
    Nat.toDigits 10 (Nat.ofDigitChars 10 cs 0) = significant cs := by
  induction cs with
  | nil => rfl
  | cons c cs ih =>
    obtain ⟨hc, hd⟩ := List.forall_mem_cons.mp hd
    rw [Nat.ofDigitChars_cons, Nat.mul_zero, Nat.zero_add]
    by_cases hz : c = '0'
    · rw [hz, Nat.sub_self, ih hd]
      simp [significant]
    · have hpos : 0 < c.toNat - '0'.toNat := by
        have hb : 48 ≤ c.toNat := (Char.isDigit_iff_toNat.mp hc).1
        have hne : c.toNat ≠ 48 := fun he => hz (Char.toNat_inj.mp he)
        change 0 < c.toNat - 48
        omega
      rw [← toDigits_append hd hpos, toDigits_digit hc]
      simp [significant, hz]

end Decimal

section Literals

variable (host : Host) (call : Caller)

theorem on_evalExpr_number (raw : String) (m : Machine) :
    (evalExpr host call (.number raw)).on m =
      some ((numberOf? raw).elim (.error (.numberOutOfRange raw)) (.ok ∘ .number), m) := by
  rw [evalExpr]
  cases numberOf? raw <;> rfl

theorem on_evalExpr_number_eq_ok_iff (raw : String) (n : Int) (m : Machine) :
    (evalExpr host call (.number raw)).on m = some (.ok (.number n), m) ↔
      numberOf? raw = some n := by
  rw [on_evalExpr_number]
  cases numberOf? raw <;> simp

theorem on_evalExpr_number_eq_error_iff (raw : String) (m : Machine) :
    (evalExpr host call (.number raw)).on m = some (.error (.numberOutOfRange raw), m) ↔
      numberOf? raw = none := by
  rw [on_evalExpr_number]
  cases numberOf? raw <;> simp

end Literals

theorem numberOf?_eq_some_iff_writesSigned {raw : String} {n : Int} :
    numberOf? raw = some n ↔ Decimal.WritesSigned raw.toList n ∧
      -9223372036854775808 ≤ n ∧ n ≤ 9223372036854775807 := by
  rw [numberOf?_eq_some_iff, Decimal.integer?_eq_some_iff, fits_iff]

/-- A number literal gives the number that its text writes, if it writes one and that one is of 64
bits, and fails with its text otherwise. What is shown for a number is a literal that gives the
number back, exactly if the number is one of 64 bits. -/
theorem evalExpr_number_iff_writesSigned (host : Host) (call : Caller) (m : Machine) :
    (∀ raw : String,
      (∀ n : Int, (evalExpr host call (.number raw)).on m = some (.ok (.number n), m) ↔
        Decimal.WritesSigned raw.toList n ∧
          -9223372036854775808 ≤ n ∧ n ≤ 9223372036854775807) ∧
      ((evalExpr host call (.number raw)).on m = some (.error (.numberOutOfRange raw), m) ↔
        ¬ ∃ n : Int, Decimal.WritesSigned raw.toList n ∧
          -9223372036854775808 ≤ n ∧ n ≤ 9223372036854775807)) ∧
    ∀ n : Int,
      (evalExpr host call (.number (Value.number n).display)).on m = some (.ok (.number n), m) ↔
        -9223372036854775808 ≤ n ∧ n ≤ 9223372036854775807 := by
  refine ⟨fun raw => ⟨fun n => ?_, ?_⟩, fun n => ?_⟩
  · rw [on_evalExpr_number_eq_ok_iff, numberOf?_eq_some_iff_writesSigned]
  · rw [on_evalExpr_number_eq_error_iff, Option.eq_none_iff_forall_ne_some]
    simp only [ne_eq, numberOf?_eq_some_iff_writesSigned, not_exists]
  · rw [on_evalExpr_number_eq_ok_iff, ← fits_iff]
    constructor
    · intro h
      exact (numberOf?_eq_some_iff.mp h).2
    · intro h
      exact numberOf?_display h

end TinyScript

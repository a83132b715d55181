import Mathlib
import UrlRouting.Proofs.Decimal.Integer
import UrlRouting.Schema.ParamType

/-!
# Numerals in the range of a type

A numeral is a text of decimal digits, with a minus sign in front of them or not. It may be as long
as one likes and may begin with zeros, and it denotes an integer by the places of its digits
(`UrlRouting.Decimal.Numeral.value`); no text of digits is anything else
(`UrlRouting.Decimal.Numeral.exists_text_eq`). Reading goes from left to right instead, and gets to
the same integer, whatever its size (`UrlRouting.Decimal.Numeral.readInt?_text`).

So it is the ranges alone that decide what a type makes of a numeral
(`UrlRouting.ParamType.coerce?_numeral`). The unsigned type has two of them. It reads what the
signed range holds, with zero in place of a negative number, and above the signed range what the
unsigned one holds. Nothing is left for a number below the signed range: that one is not raised to
zero, as the negative numbers above it are, but is refused.
-/

namespace UrlRouting

namespace Decimal

/-- **A decimal numeral**: digits, the last of which counts ones, and a minus sign or none. -/
structure Numeral where
  /-- Is there a minus sign in front? -/
  isNegative : Bool
  /-- The digits. -/
  digits : List (Fin 10)
  /-- There is one digit at least. -/
  digits_ne_nil : digits ≠ []

namespace Numeral

/-- The character of a digit. -/
def digitChar (d : Fin 10) : Char := Nat.digitChar d

/-- The numeral as it is written. -/
def text (n : Numeral) : String :=
  String.ofList ((if n.isNegative then ['-'] else []) ++ n.digits.map digitChar)

/-- The number that the digits denote, each by its place. -/
def magnitude (n : Numeral) : Nat := Nat.ofDigits 10 (n.digits.reverse.map Fin.val)

/-- The integer that the numeral denotes. -/
def value (n : Numeral) : Int := if n.isNegative then -n.magnitude else n.magnitude

theorem isDigit_digitChar (d : Fin 10) : (digitChar d).isDigit = true := by
  rw [digitChar, Nat.isDigit_digitChar]
  exact decide_eq_true d.isLt

theorem exists_digitChar_eq {c : Char} (h : c.isDigit = true) : ∃ d, digitChar d = c := by
  simp only [Char.isDigit, Bool.and_eq_true, decide_eq_true_eq] at h
  obtain ⟨hlow, hhigh⟩ := h
  have hlow : 48 ≤ c.toNat := hlow
  have hhigh : c.toNat ≤ 57 := hhigh
  refine ⟨⟨c.toNat - 48, by omega⟩, Char.toNat_inj.mp ?_⟩
  rw [digitChar, Nat.toNat_digitChar_of_lt_ten (by omega)]
  dsimp only
  omega

/-- Every text of digits, behind a minus sign or not, is that of a numeral. -/
theorem exists_text_eq {cs : List Char} (hne : cs ≠ []) (hcs : ∀ c ∈ cs, c.isDigit = true)
    (isNegative : Bool) : ∃ n : Numeral, n.isNegative = isNegative ∧
      n.text = String.ofList ((if isNegative then ['-'] else []) ++ cs) := by
  obtain ⟨ds, rfl⟩ : cs ∈ Set.range (List.map digitChar) := by
    rw [Set.range_list_map]
    exact fun c hc => exists_digitChar_eq (hcs c hc)
  exact ⟨⟨isNegative, ds, fun heq => hne (heq ▸ rfl)⟩, rfl, rfl⟩

/-- Read from the left, digits stand for the number that they denote by their places. -/
theorem ofDigitChars_map (ds : List (Fin 10)) (start : Nat) :
    Nat.ofDigitChars 10 (ds.map digitChar) start =
      Nat.ofDigits 10 (ds.reverse.map Fin.val) + 10 ^ ds.length * start := by
  induction ds generalizing start with
  | nil => simp [Nat.ofDigitChars]
  | cons d ds ih =>
    have hd : (digitChar d).toNat - '0'.toNat = d := by decide +revert
    rw [List.map_cons, Nat.ofDigitChars_cons, hd, ih, List.reverse_cons, List.map_append,
      Nat.ofDigits_append, List.map_singleton, Nat.ofDigits_singleton, List.length_map,
      List.length_reverse, List.length_cons]
    ring

/-- **A numeral is read as the integer that it denotes.** -/
theorem readInt?_text (n : Numeral) : readInt? n.text = some n.value := by
  obtain ⟨isNegative, ds, hne⟩ := n
  have hdigits : ∀ c ∈ ds.map digitChar, c.isDigit = true := by
    intro c hc
    obtain ⟨d, -, rfl⟩ := List.mem_map.mp hc
    exact isDigit_digitChar d
  have hread : readNat? (ds.map digitChar) = some (Nat.ofDigits 10 (ds.reverse.map Fin.val)) := by
    obtain ⟨d, ds, rfl⟩ := List.exists_cons_of_ne_nil hne
    rw [List.map_cons, readNat?, ← List.map_cons, readDigits?_eq hdigits, ofDigitChars_map,
      Nat.mul_zero, Nat.add_zero]
  cases isNegative with
  | true => exact readInt?_of_minus String.toList_ofList hread
  | false =>
    have htext : (String.ofList (ds.map digitChar)).toList = ds.map digitChar :=
      String.toList_ofList
    exact readInt?_of_digits (htext.symm ▸ hdigits) (htext.symm ▸ hread)

end Numeral

/-! ### Ranges -/

theorem isSigned64_iff {n : Int} : isSigned64 n = true ↔ -2 ^ 63 ≤ n ∧ n < 2 ^ 63 := by
  rw [isSigned64, Bool.and_eq_true, decide_eq_true_eq, decide_eq_true_eq]
  rfl

theorem isUnsigned64_iff {n : Int} : isUnsigned64 n = true ↔ 0 ≤ n ∧ n < 2 ^ 64 := by
  rw [isUnsigned64, Bool.and_eq_true, decide_eq_true_eq, decide_eq_true_eq]
  rfl

end Decimal

namespace ParamType

open Decimal

/-- **A numeral is read exactly, within the limits of its type.** The signed type reads the integer
that it denotes, from `-2^63` up to `2^63 - 1`; the unsigned one reads that integer too, from
`-2^63` up to `2^64 - 1`, but zero for a negative one. Beyond its limits each of them reads nothing,
however many digits there are. -/
theorem coerce?_numeral (n : Numeral) :
    int.coerce? n.text =
      (if -2 ^ 63 ≤ n.value ∧ n.value < 2 ^ 63 then some (.int n.value) else none) ∧
    uint.coerce? n.text =
      (if -2 ^ 63 ≤ n.value ∧ n.value < 2 ^ 64 then some (.int (max n.value 0)) else none) := by
  rw [coerce?, coerce?, n.readInt?_text, Option.bind_some, Option.bind_some]
  simp only [isSigned64_iff, isUnsigned64_iff]
  refine ⟨trivial, ?_⟩
  by_cases hsigned : -2 ^ 63 ≤ n.value ∧ n.value < 2 ^ 63
  · rw [if_pos hsigned, if_pos (by omega)]
  · rw [if_neg hsigned]
    by_cases hunsigned : 0 ≤ n.value ∧ n.value < 2 ^ 64
    · -- above the signed range, so there is nothing to raise to zero
      rw [if_pos hunsigned, if_pos (by omega), max_eq_left hunsigned.1]
    · rw [if_neg hunsigned, if_neg (by omega)]

/-- The numeral right below the signed range. -/
def belowSigned : Numeral where
  isNegative := true
  digits := [9, 2, 2, 3, 3, 7, 2, 0, 3, 6, 8, 5, 4, 7, 7, 5, 8, 0, 9]
  digits_ne_nil := List.cons_ne_nil _ _

/-- **A number below the signed range is not raised to zero**, though it is less than `2^64` as well
as any other negative number. -/
theorem negative_not_raised :
    belowSigned.text = "-9223372036854775809" ∧ belowSigned.value = -2 ^ 63 - 1 ∧
      belowSigned.value < 2 ^ 64 ∧
      uint.coerce? belowSigned.text ≠ some (.int (max belowSigned.value 0)) := by
  have htext : belowSigned.text = "-9223372036854775809" := by cbv
  have hvalue : belowSigned.value = -2 ^ 63 - 1 := by decide
  refine ⟨htext, hvalue, by omega, ?_⟩
  have hread : uint.coerce? belowSigned.text = none := by
    rw [htext]
    cbv
  rw [hread]
  exact (Option.some_ne_none _).symm

end ParamType

end UrlRouting

import UrlRouting.Decimal.Integer

/-!
# Reading what has been written

The text of an integer is a sign if it is negative, and then digits
(`UrlRouting.Decimal.exists_digits`); read back it is the integer again
(`UrlRouting.Decimal.readInt?_toString`).
-/

namespace UrlRouting

namespace Decimal

theorem digitValue?_eq {c : Char} (h : c.isDigit = true) :
    digitValue? c = some (c.toNat - '0'.toNat) := by
  have hrange : '0' ≤ c ∧ c ≤ '9' := by
    simp only [Char.isDigit, Bool.and_eq_true, decide_eq_true_eq] at h
    exact h
  rw [digitValue?, if_pos hrange]

/-- Digits are read as the number they write. -/
theorem readDigits?_eq {cs : List Char} (h : ∀ c ∈ cs, c.isDigit = true) (n : Nat) :
    readDigits? n cs = some (Nat.ofDigitChars 10 cs n) := by
  induction cs generalizing n with
  | nil => rfl
  | cons c cs ih =>
    rw [readDigits?, digitValue?_eq (h c List.mem_cons_self), Nat.ofDigitChars_cons]
    exact ih (fun d hd => h d (List.mem_cons_of_mem c hd)) _

theorem isDigit_of_mem_toDigits {n : Nat} {c : Char} (h : c ∈ Nat.toDigits 10 n) :
    c.isDigit = true :=
  Nat.isDigit_of_mem_toDigits (by decide) (by decide) h

theorem readNat?_toDigits (n : Nat) : readNat? (Nat.toDigits 10 n) = some n := by
  have hread := readDigits?_eq (fun c (hc : c ∈ Nat.toDigits 10 n) => isDigit_of_mem_toDigits hc) 0
  rw [Nat.ofDigitChars_ten_toDigits] at hread
  cases hcs : Nat.toDigits 10 n with
  | nil => exact absurd hcs Nat.toDigits_ne_nil
  | cons c cs => rw [readNat?, ← hcs, hread]

/-- **The text of an integer**: digits, behind a sign if it is negative. -/
theorem exists_digits (n : Int) : ∃ ds : List Char, ds ≠ [] ∧ (∀ c ∈ ds, c.isDigit = true) ∧
    (0 ≤ n ∧ (toString n).toList = ds ∨ n < 0 ∧ (toString n).toList = '-' :: ds) := by
  rw [Int.toString_eq_repr, Int.repr_eq_if]
  by_cases hn : 0 ≤ n
  · rw [if_pos hn]
    exact ⟨_, Nat.toDigits_ne_nil, fun _ hc => isDigit_of_mem_toDigits hc,
      Or.inl ⟨hn, Nat.toList_repr⟩⟩
  · rw [if_neg hn]
    refine ⟨Nat.toDigits 10 (-n).toNat, Nat.toDigits_ne_nil,
      fun _ hc => isDigit_of_mem_toDigits hc, Or.inr ⟨Int.not_le.mp hn, ?_⟩⟩
    rw [String.toList_append, Nat.toList_repr]
    rfl

theorem toString_ne_empty (n : Int) : toString n ≠ "" := by
  intro hempty
  obtain ⟨ds, hne, -, ⟨-, hn⟩ | ⟨-, hn⟩⟩ := exists_digits n
  · exact hne (hn.symm.trans (congrArg String.toList hempty))
  · exact List.cons_ne_nil _ _ (hn.symm.trans (congrArg String.toList hempty))

/-- Digits alone are read as the natural number that they are read as. -/
theorem readInt?_of_digits {s : String} {n : Nat} (hs : ∀ c ∈ s.toList, c.isDigit = true)
    (hread : readNat? s.toList = some n) : readInt? s = some (n : Int) := by
  rw [readInt?]
  split
  · rename_i cs hcs
    exact absurd (hs '-' (hcs ▸ List.mem_cons_self)) (by decide)
  · rename_i cs hcs
    exact absurd (hs '+' (hcs ▸ List.mem_cons_self)) (by decide)
  · rw [hread]
    rfl

theorem readInt?_of_minus {s : String} {cs : List Char} {n : Nat} (hs : s.toList = '-' :: cs)
    (hread : readNat? cs = some n) : readInt? s = some (-(n : Int)) := by
  rw [readInt?, hs]
  simp only [hread]
  rfl

/-- **The text of an integer is read as the integer.** -/
theorem readInt?_toString (n : Int) : readInt? (toString n) = some n := by
  rw [Int.toString_eq_repr, Int.repr_eq_if]
  by_cases hn : 0 ≤ n
  · have htext : n.toNat.repr.toList = Nat.toDigits 10 n.toNat := Nat.toList_repr
    rw [if_pos hn, readInt?_of_digits (fun c hc => isDigit_of_mem_toDigits (htext ▸ hc))
      (htext ▸ readNat?_toDigits n.toNat), Int.toNat_of_nonneg hn]
  · have htext : ("-" ++ (-n).toNat.repr).toList = '-' :: Nat.toDigits 10 (-n).toNat := by
      rw [String.toList_append, Nat.toList_repr]
      rfl
    rw [if_neg hn, readInt?_of_minus htext (readNat?_toDigits _),
      Int.toNat_of_nonneg (by omega), Int.neg_neg]

theorem nonneg_of_isUnsigned64 {n : Int} (h : isUnsigned64 n = true) : 0 ≤ n :=
  of_decide_eq_true (Bool.and_eq_true_iff.mp h).1

end Decimal

end UrlRouting

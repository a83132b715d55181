import Mathlib.Data.List.Sort
import UrlRouting.Text.CaseFold

/-!
# The form of sets of code points

A set of code points is kept as ranges that ascend and do not touch
(`UrlRouting.Text.Ranges.IsSet`). In this form the question whether a code point is in the set may
stop at the first range above it (`UrlRouting.Text.Ranges.inRanges_iff`).

Ranges are brought into the form by joining them from the lowest one upwards
(`UrlRouting.Text.Ranges.joinFrom_spec`), and what lies between ranges of this form has it, too
(`UrlRouting.Text.Ranges.gapsFrom_spec`). So a union is a union
(`UrlRouting.Text.Ranges.union_spec`), and a complement holds characters only
(`UrlRouting.Text.Ranges.compl_spec`); the other operations are made of these two.
-/

namespace UrlRouting

namespace Text

namespace Ranges

/-! ### The form -/

/-- Is the code point in one of the ranges, whatever their order is? -/
def Covers (r : Ranges) (n : Nat) : Prop := ∃ p ∈ r, p.1 ≤ n ∧ n ≤ p.2

/-- Do the ranges ascend from a code point on, and does none touch the next one? -/
def ascendFrom (least : Nat) : Ranges → Bool
  | [] => true
  | (lo, hi) :: rest => least ≤ lo && lo ≤ hi && ascendFrom (hi + 2) rest

/-- **A set of code points** in the form in which it is kept. -/
structure IsSet (r : Ranges) : Prop where
  /-- The ranges ascend and do not touch. -/
  ascends : r.ascendFrom 0 = true
  /-- The last one ends with the last code point at most. -/
  bounded : ∀ n, r.Covers n → n ≤ 0x10FFFF

section Form

variable {r s : Ranges} {least lo hi n : Nat} {p : Nat × Nat}

theorem ascendFrom_cons_iff : ascendFrom least ((lo, hi) :: r) = true ↔
    least ≤ lo ∧ lo ≤ hi ∧ ascendFrom (hi + 2) r = true := by
  simp [ascendFrom, and_assoc]

theorem ascendFrom_mono {least' : Nat} (h : ascendFrom least r = true) (hle : least' ≤ least) :
    ascendFrom least' r = true := by
  cases r with
  | nil => rfl
  | cons p r =>
    obtain ⟨h1, h2⟩ := ascendFrom_cons_iff.mp h
    exact ascendFrom_cons_iff.mpr ⟨hle.trans h1, h2⟩

theorem covers_cons_iff : Covers ((lo, hi) :: r) n ↔ (lo ≤ n ∧ n ≤ hi) ∨ r.Covers n := by
  simp [Covers]

theorem not_covers_nil : ¬Covers [] n := by simp [Covers]

theorem le_of_covers (h : ascendFrom least r = true) (hn : r.Covers n) : least ≤ n := by
  induction r generalizing least with
  | nil => exact absurd hn not_covers_nil
  | cons p r ih =>
    obtain ⟨h1, h2, h3⟩ := ascendFrom_cons_iff.mp h
    rcases covers_cons_iff.mp hn with hn | hn
    · exact h1.trans hn.1
    · have := ih h3 hn
      omega

/-- **The lookup may stop** at the first range that lies above. -/
theorem inRanges_iff (h : ascendFrom least r = true) : inRanges r n = true ↔ r.Covers n := by
  induction r generalizing least with
  | nil => exact iff_of_false Bool.false_ne_true not_covers_nil
  | cons p r ih =>
    obtain ⟨lo, hi⟩ := p
    obtain ⟨h1, h2, h3⟩ := ascendFrom_cons_iff.mp h
    rw [inRanges, covers_cons_iff]
    split_ifs with hlo hhi
    · refine iff_of_false id ?_
      rintro (hn | hn)
      · omega
      · have := le_of_covers h3 hn
        omega
    · exact iff_of_true rfl (Or.inl ⟨Nat.le_of_not_lt hlo, hhi⟩)
    · rw [ih h3]
      exact ⟨Or.inr, fun hn => hn.resolve_left fun hc => hhi hc.2⟩

theorem IsSet.inRanges_iff (h : r.IsSet) : inRanges r n = true ↔ r.Covers n :=
  Ranges.inRanges_iff h.ascends

end Form

/-! ### Joining -/

/-- Ranges by ascending start; they may overlap. -/
structure Starts (r : Ranges) : Prop where
  /-- The starts ascend. -/
  sorted : r.Pairwise fun a b => a.1 ≤ b.1
  /-- No range ends in front of its start. -/
  ordered : ∀ p ∈ r, p.1 ≤ p.2

section Join

variable {r s : Ranges} {least lo hi n : Nat}

theorem starts_of_ascendFrom (h : ascendFrom least r = true) : Starts r := by
  induction r generalizing least with
  | nil => exact ⟨.nil, List.forall_mem_nil _⟩
  | cons p r ih =>
    obtain ⟨-, h2, h3⟩ := ascendFrom_cons_iff.mp h
    obtain ⟨hsorted, hordered⟩ := ih h3
    refine ⟨.cons (fun q hq => ?_) hsorted, List.forall_mem_cons.mpr ⟨h2, hordered⟩⟩
    have := le_of_covers h3 ⟨q, hq, Nat.le_refl _, hordered q hq⟩
    omega

/-- **Joining brings ranges into the form.** -/
theorem joinFrom_spec (h : Starts ((lo, hi) :: r)) :
    ascendFrom lo (joinFrom lo hi r) = true ∧
      ∀ n, (joinFrom lo hi r).Covers n ↔ Covers ((lo, hi) :: r) n := by
  induction r generalizing lo hi with
  | nil =>
    obtain ⟨hle, -⟩ := List.forall_mem_cons.mp h.ordered
    exact ⟨ascendFrom_cons_iff.mpr ⟨Nat.le_refl lo, hle, rfl⟩, fun n => Iff.rfl⟩
  | cons p r ih =>
    obtain ⟨lo', hi'⟩ := p
    obtain ⟨hfirst, hsorted⟩ := List.pairwise_cons.mp h.sorted
    obtain ⟨hle, hordered⟩ := List.forall_mem_cons.mp h.ordered
    obtain ⟨hlo, hbehind⟩ := List.forall_mem_cons.mp hfirst
    obtain ⟨hle', hrest⟩ := List.forall_mem_cons.mp hordered
    dsimp only at hlo hle hle'
    rw [joinFrom]
    split_ifs with htouch
    · -- the two ranges touch or overlap, and are one range up to the later end
      have hjoined : Starts ((lo, max hi hi') :: r) :=
        ⟨.cons hbehind (List.pairwise_cons.mp hsorted).2,
          List.forall_mem_cons.mpr ⟨hle.trans (Nat.le_max_left hi hi'), hrest⟩⟩
      obtain ⟨hascends, hcovers⟩ := ih hjoined
      refine ⟨hascends, fun n => ?_⟩
      rw [hcovers, covers_cons_iff, covers_cons_iff, covers_cons_iff, ← or_assoc]
      refine or_congr_left ?_
      omega
    · obtain ⟨hascends, hcovers⟩ := ih ⟨hsorted, hordered⟩
      refine ⟨ascendFrom_cons_iff.mpr ⟨Nat.le_refl lo, hle, ascendFrom_mono hascends (by omega)⟩,
        fun n => ?_⟩
      rw [covers_cons_iff, hcovers]
      exact covers_cons_iff.symm

theorem join_spec (h : Starts r) :
    ascendFrom 0 (join r) = true ∧ ∀ n, (join r).Covers n ↔ r.Covers n := by
  cases r with
  | nil => exact ⟨rfl, fun n => Iff.rfl⟩
  | cons p r =>
    obtain ⟨hascends, hcovers⟩ := joinFrom_spec h
    exact ⟨ascendFrom_mono hascends (Nat.zero_le _), hcovers⟩

/-- **The union of two sets** is a set that has the code points of both. -/
theorem union_spec (hr : r.IsSet) (hs : s.IsSet) :
    (union r s).IsSet ∧ ∀ n, (union r s).Covers n ↔ r.Covers n ∨ s.Covers n := by
  have hr' := starts_of_ascendFrom hr.ascends
  have hs' := starts_of_ascendFrom hs.ascends
  have hsorted := @List.pairwise_merge _ (fun a b : Nat × Nat => a.1 ≤ b.1)
    (fun a b c hab hbc => by simp only [decide_eq_true_eq] at *; omega)
    (fun a b => by simp only [Bool.or_eq_true, decide_eq_true_eq]; omega)
    r s (by simpa using hr'.sorted) (by simpa using hs'.sorted)
  have hmerge : Starts (List.merge r s fun a b => a.1 ≤ b.1) := by
    refine ⟨by simpa using hsorted, fun p hp => ?_⟩
    rcases List.mem_merge.mp hp with hp | hp
    · exact hr'.ordered p hp
    · exact hs'.ordered p hp
  obtain ⟨hascends, hcovers⟩ := join_spec hmerge
  have hall (n : Nat) : (union r s).Covers n ↔ r.Covers n ∨ s.Covers n := by
    rw [union, hcovers]
    simp only [Covers, List.mem_merge, or_and_right, exists_or]
  refine ⟨⟨hascends, fun n hn => ?_⟩, hall⟩
  rcases (hall n).mp hn with hn | hn
  · exact hr.bounded n hn
  · exact hs.bounded n hn

/-- A list of code points as a set. -/
theorem ofCodes_spec (codes : List Nat) :
    ascendFrom 0 (ofCodes codes) = true ∧ ∀ n, (ofCodes codes).Covers n ↔ n ∈ codes := by
  have hsorted := @List.pairwise_mergeSort _ (fun a b : Nat => a ≤ b)
    (fun a b c hab hbc => by simp only [decide_eq_true_eq] at *; omega)
    (fun a b => by simp only [Bool.or_eq_true, decide_eq_true_eq]; omega) codes
  have hstarts : Starts ((codes.mergeSort fun a b => a ≤ b).map fun n => (n, n)) := by
    refine ⟨List.pairwise_map.mpr (by simpa using hsorted), fun p hp => ?_⟩
    obtain ⟨n, -, rfl⟩ := List.mem_map.mp hp
    exact Nat.le_refl n
  obtain ⟨hascends, hcovers⟩ := join_spec hstarts
  refine ⟨hascends, fun n => (hcovers n).trans ?_⟩
  simp only [Covers, List.mem_map, List.mem_mergeSort]
  constructor
  · rintro ⟨_, ⟨m, hm, rfl⟩, h1, h2⟩
    obtain rfl := Nat.le_antisymm h1 h2
    exact hm
  · exact fun hn => ⟨_, ⟨n, hn, rfl⟩, Nat.le_refl n, Nat.le_refl n⟩

end Join

/-! ### Gaps -/

section Gaps

variable {r s : Ranges} {next n : Nat}

/-- **What lies between ranges** has the form, and is what the ranges lack. -/
theorem gapsFrom_spec (h : ascendFrom next r = true) (hbound : ∀ n, r.Covers n → n ≤ 0x10FFFF) :
    ascendFrom next (gapsFrom next r) = true ∧
      ∀ n, (gapsFrom next r).Covers n ↔ next ≤ n ∧ n ≤ 0x10FFFF ∧ ¬r.Covers n := by
  induction r generalizing next with
  | nil =>
    rw [gapsFrom]
    split_ifs with hle
    · refine ⟨ascendFrom_cons_iff.mpr ⟨Nat.le_refl next, hle, rfl⟩, fun n => ?_⟩
      simp [Covers]
    · refine ⟨rfl, fun n => iff_of_false not_covers_nil ?_⟩
      omega
  | cons p r ih =>
    obtain ⟨lo, hi⟩ := p
    obtain ⟨h1, h2, h3⟩ := ascendFrom_cons_iff.mp h
    have hhi := hbound hi (covers_cons_iff.mpr (Or.inl ⟨h2, Nat.le_refl hi⟩))
    obtain ⟨hascends, hcovers⟩ := ih (ascendFrom_mono h3 (Nat.le_succ _))
      fun n hn => hbound n (covers_cons_iff.mpr (Or.inr hn))
    -- the ranges behind lie above this one
    have hbehind (n : Nat) (hn : n ≤ hi) : ¬Covers r n := by
      intro hc
      have := le_of_covers h3 hc
      omega
    rw [gapsFrom]
    split_ifs with hgap
    · refine ⟨ascendFrom_cons_iff.mpr
        ⟨Nat.le_refl next, by omega, ascendFrom_mono hascends (by omega)⟩, fun n => ?_⟩
      rw [covers_cons_iff, hcovers, covers_cons_iff]
      by_cases hn : n ≤ hi
      · have := hbehind n hn
        simp only [this, or_false, not_false_eq_true, and_true]
        omega
      · by_cases hc : Covers r n
        · simp only [hc, or_true, not_true_eq_false, and_false, or_false, iff_false]
          omega
        · simp only [hc, or_false, not_false_eq_true, and_true]
          omega
    · refine ⟨ascendFrom_mono hascends (by omega), fun n => ?_⟩
      rw [hcovers, covers_cons_iff]
      by_cases hn : n ≤ hi
      · have := hbehind n hn
        simp only [this, or_false, not_false_eq_true, and_true]
        omega
      · by_cases hc : Covers r n
        · simp only [hc, or_true, not_true_eq_false, and_false]
        · simp only [hc, or_false, not_false_eq_true, and_true]
          omega

theorem isSet_surrogates : surrogates.IsSet := by
  refine ⟨rfl, fun n hn => ?_⟩
  simp only [Covers, surrogates, List.mem_singleton, exists_eq_left] at hn
  omega

/-- **The complement of a set** has the other characters, and no surrogates. -/
theorem compl_spec (h : r.IsSet) :
    (compl r).IsSet ∧ ∀ n, (compl r).Covers n ↔ n.isValidChar ∧ ¬r.Covers n := by
  obtain ⟨hunion, hcovers⟩ := union_spec isSet_surrogates h
  obtain ⟨hascends, hgaps⟩ := gapsFrom_spec hunion.ascends hunion.bounded
  refine ⟨⟨hascends, fun n hn => ((hgaps n).mp hn).2.1⟩, fun n => (hgaps n).trans ?_⟩
  rw [hcovers]
  simp only [Covers, surrogates, List.mem_singleton, exists_eq_left, Nat.isValidChar]
  constructor
  · rintro ⟨-, hle, hno⟩
    rw [not_or] at hno
    exact ⟨by omega, hno.2⟩
  · rintro ⟨hvalid, hno⟩
    refine ⟨Nat.zero_le n, by omega, ?_⟩
    rintro (hc | hc)
    · omega
    · exact hno hc

end Gaps

end Ranges

end Text

end UrlRouting

import UrlRouting.Proofs.Regex.Classes
import UrlRouting.Proofs.Text.Ranges
import UrlRouting.Regex.Meaning

/-!
# Proper sets of characters

The sets that an expression reads are *proper* (`UrlRouting.Regex.CharSet.IsProper`): their ranges
are in the form that the lookup expects, and there is a character for each of their code points.
Then a set with one code point is the set of one character
(`UrlRouting.Regex.CharSet.eq_of_single?`), and alternatives of sets are the set of their union
(`UrlRouting.Regex.CharSet.mem_unionAll_iff`).

All that can be written in brackets is proper, if no range in it ends in front of its start
(`UrlRouting.Regex.ClassSet.isProper_set`), with case variants or without.
-/

namespace UrlRouting

namespace Regex

open Text

namespace CharSet

/-- **A proper set of characters.** -/
structure IsProper (s : CharSet) : Prop where
  /-- The ranges ascend and do not touch. -/
  ascends : s.ranges.ascendFrom 0 = true
  /-- Each code point is that of a character. -/
  valid : ∀ n, Ranges.Covers s.ranges n → n.isValidChar

section IsProper

variable {s t : CharSet} {c : Char}

theorem IsProper.isSet (h : s.IsProper) : Ranges.IsSet s.ranges := by
  refine ⟨h.ascends, fun n hn => ?_⟩
  have hvalid := h.valid n hn
  unfold Nat.isValidChar at hvalid
  omega

theorem IsProper.mem_iff (h : s.IsProper) : s.mem c = true ↔ Ranges.Covers s.ranges c.toNat :=
  Ranges.inRanges_iff h.ascends

/-! ### Particular sets -/

theorem isProper_nothing : nothing.IsProper :=
  ⟨rfl, fun _ hn => absurd hn Ranges.not_covers_nil⟩

theorem covers_single {n m : Nat} : Ranges.Covers [(m, m)] n ↔ n = m := by
  simp only [Ranges.Covers, List.mem_singleton, exists_eq_left]
  omega

theorem isProper_single (c : Char) : (single c).IsProper := by
  refine ⟨?_, fun n hn => ?_⟩
  · simp [single, Ranges.ascendFrom]
  · obtain rfl := covers_single.mp hn
    exact c.valid

theorem mem_single_iff {d : Char} : (single c).mem d = true ↔ d = c := by
  rw [(isProper_single c).mem_iff]
  exact covers_single.trans Char.toNat_inj

/-- A set of one code point is the set of its character. -/
theorem IsProper.eq_of_single? (h : s.IsProper) (hc : s.single? = some c) : s = single c := by
  obtain ⟨ranges⟩ := s
  unfold single? at hc
  split at hc
  · rename_i lo hi heq
    obtain rfl : ranges = [(lo, hi)] := heq
    split_ifs at hc with hsame
    subst hsame
    cases hc
    have hvalid := h.valid lo (covers_single.mpr rfl)
    have hlo : (Char.ofNat lo).toNat = lo := by
      unfold Char.ofNat
      rw [dif_pos hvalid]
      rfl
    rw [single, hlo]
  · cases hc

/-- Do all ranges of a table hold characters only? -/
def holdsCharacters (r : Ranges) : Bool :=
  r.all fun p => p.2 < 0xD800 || (0xDFFF < p.1 && p.2 < 0x110000)

theorem isProper_of_table {r : Ranges} (hascends : r.ascendFrom 0 = true)
    (hholds : holdsCharacters r = true) : IsProper ⟨r⟩ := by
  refine ⟨hascends, ?_⟩
  rintro n ⟨p, hp, hlo, hhi⟩
  have hchar := List.all_eq_true.mp hholds p hp
  simp only [Bool.or_eq_true, Bool.and_eq_true, decide_eq_true_eq] at hchar
  unfold Nat.isValidChar
  omega

/-! ### Operations -/

theorem union_spec (hs : s.IsProper) (ht : t.IsProper) :
    (s.union t).IsProper ∧ ∀ c, (s.union t).mem c = (s.mem c || t.mem c) := by
  obtain ⟨hset, hcovers⟩ := Ranges.union_spec hs.isSet ht.isSet
  have hproper : (s.union t).IsProper := by
    refine ⟨hset.ascends, fun n hn => ?_⟩
    rcases (hcovers n).mp hn with hn | hn
    · exact hs.valid n hn
    · exact ht.valid n hn
  refine ⟨hproper, fun c => Bool.eq_iff_iff.mpr ?_⟩
  rw [Bool.or_eq_true, hproper.mem_iff, hs.mem_iff, ht.mem_iff]
  exact hcovers _

/-- A complement is proper, even that of a set with surrogates in it. -/
theorem isProper_compl (h : Ranges.IsSet s.ranges) : s.compl.IsProper := by
  obtain ⟨hset, hcovers⟩ := Ranges.compl_spec h
  exact ⟨hset.ascends, fun n hn => ((hcovers n).mp hn).1⟩

theorem isProper_complIf (h : s.IsProper) (negated : Bool) : (s.complIf negated).IsProper := by
  cases negated with
  | true => exact isProper_compl h.isSet
  | false => exact h

theorem isProper_inter (hs : Ranges.IsSet s.ranges) (ht : Ranges.IsSet t.ranges) :
    (s.inter t).IsProper :=
  isProper_compl (s := (union s.compl t.compl))
    (union_spec (isProper_compl hs) (isProper_compl ht)).1.isSet

theorem isProper_diff (hs : Ranges.IsSet s.ranges) (ht : Ranges.IsSet t.ranges) :
    (s.diff t).IsProper :=
  isProper_inter (t := t.compl) hs (isProper_compl ht).isSet

theorem isProper_symmDiff (hs : s.IsProper) (ht : t.IsProper) : (s.symmDiff t).IsProper :=
  (union_spec (isProper_diff hs.isSet ht.isSet) (isProper_diff ht.isSet hs.isSet)).1

theorem isProper_range {lo hi : Char} (h : lo ≤ hi) : (range lo hi).IsProper := by
  have hle : lo.toNat ≤ hi.toNat := h
  have hset : Ranges.IsSet [(lo.toNat, hi.toNat)] := by
    refine ⟨Ranges.ascendFrom_cons_iff.mpr ⟨Nat.zero_le _, hle, rfl⟩, fun n hn => ?_⟩
    have hvalid := hi.valid
    simp only [Ranges.Covers, List.mem_singleton, exists_eq_left] at hn
    have : hi.toNat < 0x110000 := by
      rcases hvalid with h | h
      · exact Nat.lt_trans h (by decide)
      · exact h.2
    omega
  exact isProper_diff (s := ⟨_⟩) (t := ⟨Ranges.surrogates⟩) hset Ranges.isSet_surrogates

theorem unionAll_spec {sets : List CharSet} (h : ∀ s ∈ sets, s.IsProper) :
    (unionAll sets).IsProper ∧ ∀ c, (unionAll sets).mem c = sets.any (·.mem c) := by
  induction sets with
  | nil => exact ⟨isProper_nothing, fun _ => rfl⟩
  | cons s sets ih =>
    obtain ⟨hs, hsets⟩ := List.forall_mem_cons.mp h
    obtain ⟨hproper, hmem⟩ := ih hsets
    obtain ⟨hunion, hor⟩ := union_spec hs hproper
    exact ⟨hunion, fun c => (hor c).trans (congrArg (s.mem c || ·) (hmem c))⟩

theorem isProper_ofRanges {ranges : List (Char × Char)}
    (h : ranges.all (fun r => r.1 ≤ r.2) = true) : (ofRanges ranges).IsProper := by
  induction ranges with
  | nil => exact isProper_nothing
  | cons r ranges ih =>
    rw [List.all_cons, Bool.and_eq_true] at h
    exact (union_spec (isProper_range (of_decide_eq_true h.1)) (ih h.2)).1

end IsProper

/-! ### Properties -/

theorem isProper_digit : digit.IsProper := isProper_of_table (by decide +kernel) (by decide +kernel)

theorem isProper_space : space.IsProper := isProper_of_table (by decide +kernel) (by decide +kernel)

theorem isProper_word : word.IsProper := by
  have hletter : IsProper ⟨letterRanges⟩ :=
    isProper_of_table (by decide +kernel) (by decide +kernel)
  have hjoiner : IsProper ⟨joinerRanges⟩ :=
    isProper_of_table (by decide +kernel) (by decide +kernel)
  exact (union_spec (union_spec hletter isProper_digit).1 hjoiner).1

/-! ### Case variants -/

/-- Are the variants along a run characters? -/
def soundRun (r : VariantRun) : Bool :=
  r.first ≤ r.last && 0 ≤ r.first + r.distance &&
    (r.last + r.distance < 0xD800 ||
      (0xDFFF < r.first + r.distance && r.last + r.distance < 0x110000))

theorem isValidChar_of_mem_variantsOf {r : VariantRun} {s : Ranges} {n : Nat}
    (hr : soundRun r = true) (hn : n ∈ r.variantsOf s) : n.isValidChar := by
  obtain ⟨m, hm, rfl⟩ := List.mem_map.mp hn
  obtain ⟨i, hi, rfl⟩ := List.mem_range'.mp (List.mem_filter.mp hm).1
  simp only [soundRun, Bool.and_eq_true, Bool.or_eq_true, decide_eq_true_eq] at hr
  have hle : r.step * i ≤ r.last - r.first :=
    (Nat.mul_le_mul_left _ (Nat.le_of_lt_succ hi)).trans (Nat.mul_div_le _ _)
  unfold Nat.isValidChar
  omega

theorem isProper_folded {s : CharSet} (h : s.IsProper) : s.folded.IsProper := by
  have hruns : variantRuns.all soundRun = true := by decide +kernel
  obtain ⟨hascends, hcovers⟩ := Ranges.ofCodes_spec (variantRuns.flatMap (·.variantsOf s.ranges))
  refine (union_spec h (t := ⟨_⟩) ⟨hascends, fun n hn => ?_⟩).1
  obtain ⟨r, hr, hn⟩ := List.mem_flatMap.mp ((hcovers n).mp hn)
  exact isValidChar_of_mem_variantsOf (List.all_eq_true.mp hruns r hr) hn

theorem isProper_foldedIf {s : CharSet} (h : s.IsProper) (ignoreCase : Bool) :
    (s.foldedIf ignoreCase).IsProper := by
  cases ignoreCase with
  | true => exact isProper_folded h
  | false => exact h

end CharSet

/-! ### Sets of a tree -/

open CharSet

theorem isProper_dot (flags : Flags) : (dot flags).IsProper := by
  unfold dot
  split
  · exact isProper_compl isProper_nothing.isSet
  · exact isProper_compl (isProper_single _).isSet

theorem Property.isProper_set (p : Property) : p.set.IsProper := by
  cases p with
  | digit => exact isProper_digit
  | space => exact isProper_space
  | word => exact isProper_word

/-- **The set of a class is proper**, if no range ends in front of its start. -/
theorem ClassSet.isProper_set {s : ClassSet} (h : s.all isOrdered = true) (ignoreCase : Bool) :
    (s.set ignoreCase).IsProper := by
  induction s with
  | nothing => exact isProper_nothing
  | char c => exact isProper_single c
  | range lo hi => exact isProper_range (of_decide_eq_true h)
  | property p negated => exact isProper_complIf p.isProper_set negated
  | ascii ranges negated =>
    exact isProper_complIf (isProper_foldedIf (isProper_ofRanges h) ignoreCase) negated
  | union items last ih1 ih2 =>
    obtain ⟨h1, h2⟩ := Bool.and_eq_true_iff.mp h
    exact (union_spec (ih1 h1) (ih2 h2)).1
  | op o left right ih1 ih2 =>
    obtain ⟨h1, h2⟩ := Bool.and_eq_true_iff.mp h
    have hleft := isProper_foldedIf (ih1 h1) ignoreCase
    have hright := isProper_foldedIf (ih2 h2) ignoreCase
    cases o with
    | inter => exact isProper_inter hleft.isSet hright.isSet
    | diff => exact isProper_diff hleft.isSet hright.isSet
    | symmDiff => exact isProper_symmDiff hleft hright
  | bracket negated inner ih => exact isProper_complIf (isProper_foldedIf (ih h) ignoreCase) negated

end Regex

end UrlRouting

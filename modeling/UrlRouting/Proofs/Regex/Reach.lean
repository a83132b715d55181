import UrlRouting.Proofs.Regex.Ways

/-!
# Where ways lead

Of the ways of an expression it is often enough to know which places they lead to, their notes and
their order left aside (`UrlRouting.Regex.Reaches`). Then a row is the composition of its parts,
alternatives are a union, and a repetition is a number of rounds, no matter whether it is greedy.

A loop leaves out the rounds that read nothing. They make no difference, since such a round leads
back to where it began; so a loop leads wherever any number of rounds does
(`UrlRouting.Regex.reaches_atLeast_iff`).
-/

namespace UrlRouting

namespace Regex

open Ways

/-- **The ways lead from one place to another.** -/
def Reaches (ways : Position → List Way) (P Q : Position) : Prop := ∃ w ∈ ways P, w.stop = Q

/-- **So many rounds lead from one place to another.** -/
def Rounds (R : Position → Position → Prop) : Nat → Position → Position → Prop
  | 0, P, Q => P = Q
  | n + 1, P, Q => ∃ M, R P M ∧ Rounds R n M Q

section Reaches

variable {ways next round : Position → List Way} {P Q : Position} {greedy : Bool} {n : Nat}
  {R S : Position → Position → Prop}

theorem reaches_stay_iff : Reaches stay P Q ↔ P = Q := by
  constructor
  · rintro ⟨w, hw, rfl⟩
    obtain rfl := List.mem_singleton.mp hw
    rfl
  · rintro rfl
    exact ⟨_, List.mem_singleton_self _, rfl⟩

theorem reaches_extend_iff :
    Reaches (fun P => extend (ways P) next) P Q ↔ ∃ M, Reaches ways P M ∧ Reaches next M Q := by
  constructor
  · rintro ⟨w, hw, rfl⟩
    obtain ⟨v, hv, u, hu, rfl⟩ := mem_extend_iff.mp hw
    exact ⟨v.stop, ⟨v, hv, rfl⟩, u, hu, rfl⟩
  · rintro ⟨_, ⟨v, hv, rfl⟩, u, hu, rfl⟩
    exact ⟨behind v.trail u, mem_extend_iff.mpr ⟨v, hv, u, hu, rfl⟩, rfl⟩

theorem reaches_inOrder_iff : Reaches (fun P => inOrder greedy (ways P) (next P)) P Q ↔
    Reaches ways P Q ∨ Reaches next P Q := by
  simp only [Reaches, mem_inOrder_iff, or_and_right, exists_or]

theorem reaches_append_iff : Reaches (fun P => ways P ++ next P) P Q ↔
    Reaches ways P Q ∨ Reaches next P Q :=
  @reaches_inOrder_iff ways next P Q true

/-! ### Rounds -/

theorem rounds_congr (h : ∀ P Q, R P Q ↔ S P Q) (n : Nat) (P Q : Position) :
    Rounds R n P Q ↔ Rounds S n P Q := by
  obtain rfl : R = S := funext fun P => funext fun Q => propext (h P Q)
  rfl

theorem rounds_add_iff {m : Nat} :
    Rounds R (m + n) P Q ↔ ∃ M, Rounds R m P M ∧ Rounds R n M Q := by
  induction m generalizing P with
  | zero =>
    rw [Nat.zero_add]
    exact ⟨fun h => ⟨P, rfl, h⟩, fun ⟨_, hP, h⟩ => hP ▸ h⟩
  | succ m ih =>
    rw [Nat.succ_add]
    simp only [Rounds, ih]
    exact ⟨fun ⟨M, hM, N, hN, h⟩ => ⟨N, ⟨M, hM, hN⟩, h⟩,
      fun ⟨N, ⟨M, hM, hN⟩, h⟩ => ⟨M, hM, N, hN, h⟩⟩

theorem reaches_times_iff : Reaches (times round n) P Q ↔ Rounds (Reaches round) n P Q := by
  induction n generalizing P with
  | zero => exact reaches_stay_iff
  | succ n ih =>
    refine reaches_extend_iff.trans ?_
    simp only [ih]
    rfl

/-- At most so many rounds. -/
theorem reaches_upTo_iff :
    Reaches (upTo greedy round n) P Q ↔ ∃ k ≤ n, Rounds (Reaches round) k P Q := by
  induction n generalizing P with
  | zero =>
    refine reaches_stay_iff.trans ⟨fun h => ⟨0, Nat.le_refl 0, h⟩, ?_⟩
    rintro ⟨k, hk, h⟩
    obtain rfl := Nat.le_zero.mp hk
    exact h
  | succ n ih =>
    refine reaches_inOrder_iff.trans ?_
    rw [reaches_extend_iff, reaches_stay_iff]
    constructor
    · rintro (⟨M, hM, h⟩ | h)
      · obtain ⟨k, hk, h⟩ := ih.mp h
        exact ⟨k + 1, Nat.succ_le_succ hk, M, hM, h⟩
      · exact ⟨0, Nat.zero_le _, h⟩
    · rintro ⟨_ | k, hk, h⟩
      · exact Or.inr h
      · obtain ⟨M, hM, h⟩ := h
        exact Or.inl ⟨M, hM, ih.mpr ⟨k, Nat.le_of_succ_le_succ hk, h⟩⟩

/-! ### Loops -/

variable (hround : ∀ P, Leads P (round P))

include hround

/-- A way that reads nothing leads nowhere else. -/
theorem eq_of_not_advances {w : Way} (hw : w ∈ round P) (h : ¬advances P w = true) :
    w.stop = P := by
  obtain ⟨x, hx⟩ := hround P w hw
  rw [advances_iff, hx.1, List.length_append] at h
  obtain rfl : x = [] := List.length_eq_zero_iff.mp (by omega)
  exact Position.reads_nil_iff.mp hx

/-- Rounds that each read something lead wherever rounds lead. -/
theorem reaches_again_iff :
    Reaches (again greedy round) P Q ↔ ∃ k, Rounds (Reaches round) k P Q := by
  constructor
  · rintro ⟨w, hw, rfl⟩
    -- each round reads something, so that less and less is left
    induction hn : P.rest.length using Nat.strongRecOn generalizing P w with
    | _ n ih =>
      rw [again_eq] at hw
      rcases mem_inOrder_iff.mp hw with hw | hw
      · obtain ⟨v, hv, u, hu, rfl⟩ := mem_extend_iff.mp hw
        obtain ⟨hv, hlt⟩ := List.mem_filter.mp hv
        obtain ⟨k, hk⟩ := ih _ (hn ▸ advances_iff.mp hlt) u hu rfl
        exact ⟨k + 1, v.stop, ⟨v, hv, rfl⟩, hk⟩
      · obtain rfl := List.mem_singleton.mp hw
        exact ⟨0, rfl⟩
  · rintro ⟨k, h⟩
    induction k generalizing P with
    | zero =>
      obtain rfl : P = Q := h
      refine ⟨⟨[], P⟩, ?_, rfl⟩
      rw [again_eq]
      exact mem_inOrder_iff.mpr (Or.inr (List.mem_singleton_self _))
    | succ k ih =>
      obtain ⟨_, ⟨v, hv, rfl⟩, h⟩ := h
      by_cases hadvances : advances P v = true
      · obtain ⟨u, hu, rfl⟩ := ih h
        refine ⟨behind v.trail u, ?_, rfl⟩
        rw [again_eq]
        exact mem_inOrder_iff.mpr (Or.inl (mem_extend_iff.mpr
          ⟨v, List.mem_filter.mpr ⟨hv, hadvances⟩, u, hu, rfl⟩))
      · -- a round that reads nothing can be left out
        rw [eq_of_not_advances hround hv hadvances] at h
        exact ih h

/-- A loop that is entered leads wherever one round or more lead. -/
theorem reaches_enter_iff :
    Reaches (enter greedy round) P Q ↔ ∃ k, Rounds (Reaches round) (k + 1) P Q := by
  constructor
  · rintro ⟨w, hw, rfl⟩
    obtain ⟨v, hv, hw⟩ := List.mem_flatMap.mp hw
    split at hw
    · obtain ⟨u, hu, rfl⟩ := List.mem_map.mp hw
      obtain ⟨k, hk⟩ := (reaches_again_iff hround).mp ⟨u, hu, rfl⟩
      exact ⟨k, v.stop, ⟨v, hv, rfl⟩, hk⟩
    · obtain rfl := List.mem_singleton.mp hw
      exact ⟨0, w.stop, ⟨w, hv, rfl⟩, rfl⟩
  · have hfirst {k : Nat} {v : Way} (hv : v ∈ round P) (hadvances : advances P v = true)
        (h : Rounds (Reaches round) k v.stop Q) : Reaches (enter greedy round) P Q := by
      obtain ⟨u, hu, rfl⟩ : Reaches (again greedy round) v.stop Q :=
        (reaches_again_iff hround).mpr ⟨k, h⟩
      refine ⟨behind v.trail u, List.mem_flatMap.mpr ⟨v, hv, ?_⟩, rfl⟩
      rw [if_pos hadvances]
      exact List.mem_map_of_mem hu
    rintro ⟨k, h⟩
    -- a first round that reads nothing is the only one, or can be left out
    induction k with
    | zero =>
      obtain ⟨_, ⟨v, hv, rfl⟩, h⟩ := h
      by_cases hadvances : advances P v = true
      · exact hfirst hv hadvances h
      · refine ⟨v, List.mem_flatMap.mpr ⟨v, hv, ?_⟩, h⟩
        rw [if_neg hadvances]
        exact List.mem_singleton_self v
    | succ k ih =>
      obtain ⟨_, ⟨v, hv, rfl⟩, h⟩ := h
      by_cases hadvances : advances P v = true
      · exact hfirst hv hadvances h
      · rw [eq_of_not_advances hround hv hadvances] at h
        exact ih h

/-- **A loop leads wherever enough rounds lead.** -/
theorem reaches_atLeast_iff {least : Nat} : Reaches (Ways.atLeast greedy least round) P Q ↔
    ∃ k, Rounds (Reaches round) (least + k) P Q := by
  cases least with
  | zero =>
    refine reaches_inOrder_iff.trans ?_
    rw [reaches_enter_iff hround, reaches_stay_iff]
    constructor
    · rintro (⟨k, h⟩ | h)
      · exact ⟨k + 1, (Nat.zero_add _).symm ▸ h⟩
      · exact ⟨0, h⟩
    · rintro ⟨k, h⟩
      rw [Nat.zero_add] at h
      cases k with
      | zero => exact Or.inr h
      | succ k => exact Or.inl ⟨k, h⟩
  | succ n =>
    refine reaches_extend_iff.trans ?_
    simp only [reaches_times_iff, reaches_enter_iff hround]
    constructor
    · rintro ⟨M, hM, k, h⟩
      exact ⟨k, by rw [Nat.add_assoc, Nat.add_comm 1 k]; exact rounds_add_iff.mpr ⟨M, hM, h⟩⟩
    · rintro ⟨k, h⟩
      rw [Nat.add_assoc, Nat.add_comm 1 k] at h
      obtain ⟨M, hM, h⟩ := rounds_add_iff.mp h
      exact ⟨M, hM, k, h⟩

end Reaches

end Regex

end UrlRouting

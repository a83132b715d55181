import Mathlib.Algebra.BigOperators.Ring.Finset
import Mathlib.Computability.Language
import UrlRouting.Proofs.Regex.Reach
import UrlRouting.Proofs.Regex.Search

/-!
# The language of an expression

Which texts an expression reads can be said without places, notes and preferences: that is its
*language* (`UrlRouting.Regex.Expr.language`), put together from those of its parts by the union,
the product and the powers of languages. Conditions on places have no part in it.

The ways of an expression read exactly the texts of its language, wherever it stands
(`UrlRouting.Regex.Expr.spells_ways`), if it is *plain*: it puts no condition on a place
and captures nothing (`UrlRouting.Regex.Expr.isPlain`). A plain expression takes no notes either, so
that nothing is left of the order of its ways but which one comes first.
-/

namespace UrlRouting

namespace Regex

open Ways
open scoped Computability

/-! ### Ways that read a language -/

/-- **The ways read a language**: from each place exactly the texts of the language lead on. -/
def Spells (ways : Position → List Way) (L : Language Char) : Prop :=
  ∀ P Q, (∃ w ∈ ways P, w.stop = Q) ↔ ∃ x ∈ L, P.Reads x Q

section Spells

variable {ways next round : Position → List Way} {L M : Language Char} {P Q : Position}
  {x y : List Char}

theorem Position.reads_append_iff : P.Reads (x ++ y) Q ↔ ∃ R, P.Reads x R ∧ R.Reads y Q := by
  constructor
  · intro h
    have hpre : x <+: P.rest := ⟨y ++ Q.rest, by rw [h.1, List.append_assoc]⟩
    refine ⟨P.skip x, Position.reads_skip hpre, ?_, ?_⟩
    · rw [Position.skip, h.1, List.append_assoc, List.drop_left]
    · rw [h.2, Position.skip, List.getLast?_append]
      cases y.getLast? <;> rfl
  · rintro ⟨R, hx, hy⟩
    exact hx.trans hy

theorem spells_stay : Spells stay 1 := by
  intro P Q
  constructor
  · rintro ⟨w, hw, rfl⟩
    obtain rfl := List.mem_singleton.mp hw
    exact ⟨[], Language.nil_mem_one, Position.Reads.refl P⟩
  · rintro ⟨x, hx, h⟩
    obtain rfl := (Language.mem_one x).mp hx
    exact ⟨_, List.mem_singleton_self _, (Position.reads_nil_iff.mp h).symm⟩

theorem Spells.extend (h : Spells ways L) (hn : Spells next M) :
    Spells (fun P => extend (ways P) next) (L * M) := by
  intro P Q
  refine reaches_extend_iff.trans ?_
  constructor
  · rintro ⟨R, hR, hQ⟩
    obtain ⟨x, hx, hP⟩ := (h P R).mp hR
    obtain ⟨y, hy, hRQ⟩ := (hn R Q).mp hQ
    exact ⟨x ++ y, Language.append_mem_mul hx hy, hP.trans hRQ⟩
  · rintro ⟨z, hz, hP⟩
    obtain ⟨x, hx, y, hy, rfl⟩ := Language.mem_mul.mp hz
    obtain ⟨R, hxR, hyQ⟩ := Position.reads_append_iff.mp hP
    exact ⟨R, (h P R).mpr ⟨x, hx, hxR⟩, (hn R Q).mpr ⟨y, hy, hyQ⟩⟩

theorem Spells.inOrder (h : Spells ways L) (hn : Spells next M) (greedy : Bool) :
    Spells (fun P => inOrder greedy (ways P) (next P)) (L + M) := by
  intro P Q
  refine reaches_inOrder_iff.trans ((or_congr (h P Q) (hn P Q)).trans ?_)
  simp only [Language.mem_add, or_and_right, exists_or]

/-- Rounds read the texts of the powers of a language. -/
theorem rounds_iff (h : Spells round L) (n : Nat) (P Q : Position) :
    Rounds (Reaches round) n P Q ↔ ∃ x ∈ L ^ n, P.Reads x Q := by
  induction n generalizing P with
  | zero =>
    rw [pow_zero]
    exact reaches_stay_iff.symm.trans (spells_stay P Q)
  | succ n ih =>
    rw [pow_succ']
    constructor
    · rintro ⟨M, hM, hQ⟩
      obtain ⟨x, hx, hP⟩ := (h P M).mp hM
      obtain ⟨y, hy, hMQ⟩ := (ih M).mp hQ
      exact ⟨x ++ y, Language.append_mem_mul hx hy, hP.trans hMQ⟩
    · rintro ⟨z, hz, hP⟩
      obtain ⟨x, hx, y, hy, rfl⟩ := Language.mem_mul.mp hz
      obtain ⟨M, hxM, hyQ⟩ := Position.reads_append_iff.mp hP
      exact ⟨M, (h P M).mpr ⟨x, hx, hxM⟩, (ih M).mpr ⟨y, hy, hyQ⟩⟩

theorem spells_times (h : Spells round L) (n : Nat) : Spells (times round n) (L ^ n) :=
  fun P Q => reaches_times_iff.trans (rounds_iff h n P Q)

theorem mem_sum_pow_iff {n : Nat} :
    x ∈ ∑ k ∈ Finset.range (n + 1), L ^ k ↔ ∃ k ≤ n, x ∈ L ^ k := by
  induction n with
  | zero => simp
  | succ n ih =>
    rw [Finset.sum_range_succ, Language.mem_add, ih]
    constructor
    · rintro (⟨k, hk, hx⟩ | hx)
      · exact ⟨k, Nat.le_succ_of_le hk, hx⟩
      · exact ⟨n + 1, Nat.le_refl _, hx⟩
    · rintro ⟨k, hk, hx⟩
      rcases Nat.le_succ_iff.mp hk with hk | rfl
      · exact Or.inl ⟨k, hk, hx⟩
      · exact Or.inr hx

/-- At most so many rounds read the texts of as many factors or fewer. -/
theorem spells_upTo (h : Spells round L) (greedy : Bool) (n : Nat) :
    Spells (upTo greedy round n) (∑ k ∈ Finset.range (n + 1), L ^ k) := by
  intro P Q
  refine reaches_upTo_iff.trans ?_
  simp only [rounds_iff h, mem_sum_pow_iff]
  constructor
  · rintro ⟨k, hk, x, hx, hP⟩
    exact ⟨x, ⟨k, hk, hx⟩, hP⟩
  · rintro ⟨x, ⟨k, hk, hx⟩, hP⟩
    exact ⟨k, hk, x, hx, hP⟩

theorem Position.Reads.length_lt (h : P.Reads x Q) (hx : x ≠ []) :
    Q.rest.length < P.rest.length := by
  have := List.length_pos_iff.mpr hx
  rw [h.1, List.length_append]
  omega

/-- **A loop reads the texts of enough factors.** -/
theorem spells_atLeast (h : Spells round L) (hround : ∀ P, Leads P (round P)) (greedy : Bool)
    (least : Nat) : Spells (Ways.atLeast greedy least round) (L ^ least * L∗) := by
  have hpowers : L ^ least * L∗ = ⨆ k, L ^ (least + k) := by
    simp only [Language.kstar_eq_iSup_pow, Language.mul_iSup, pow_add]
  intro P Q
  refine (reaches_atLeast_iff hround).trans ?_
  simp only [rounds_iff h, hpowers, Language.mem_iSup]
  constructor
  · rintro ⟨k, x, hx, hP⟩
    exact ⟨x, ⟨k, hx⟩, hP⟩
  · rintro ⟨x, ⟨k, hx⟩, hP⟩
    exact ⟨k, x, hx, hP⟩

end Spells

/-! ### Expressions -/

namespace Expr

/-- **The language of an expression**, conditions on places left aside. -/
def language : Expr → Language Char
  | .empty => 1
  | .word text => {text}
  | .set s => {x | ∃ c, s.mem c = true ∧ x = [c]}
  | .look _ => 1
  | .capture _ body => body.language
  | .seq first second => first.language * second.language
  | .alt first second => first.language + second.language
  | .atLeast _ least body => body.language ^ least * body.language∗
  | .between _ least more body =>
    body.language ^ least * ∑ k ∈ Finset.range (more + 1), body.language ^ k

/-- Do all conditions and all captures in the expression pass a test? -/
def all (look : Look → Bool) (name : Option String → Bool) : Expr → Bool
  | .empty | .word _ | .set _ => true
  | .look l => look l
  | .capture n body => name n && body.all look name
  | .seq first second => first.all look name && second.all look name
  | .alt first second => first.all look name && second.all look name
  | .atLeast _ _ body => body.all look name
  | .between _ _ _ body => body.all look name

/-- Does the expression put no condition on a place and capture nothing? -/
def isPlain (e : Expr) : Bool := e.all (fun _ => false) (fun _ => false)

theorem spells_word (text : List Char) : Spells (word text).ways {text} := by
  intro P Q
  unfold ways
  constructor
  · rintro ⟨w, hw, rfl⟩
    split at hw
    · rename_i h
      obtain rfl := List.mem_singleton.mp hw
      exact ⟨text, rfl, Position.reads_skip (List.isPrefixOf_iff_prefix.mp h)⟩
    · exact absurd hw List.not_mem_nil
  · rintro ⟨x, rfl, h⟩
    rw [if_pos (List.isPrefixOf_iff_prefix.mpr ⟨Q.rest, h.1.symm⟩), h.skip_eq]
    exact ⟨_, List.mem_singleton_self _, rfl⟩

theorem spells_set (s : CharSet) : Spells (set s).ways (set s).language := by
  rintro ⟨b, rest⟩ Q
  constructor
  · rintro ⟨w, hw, rfl⟩
    cases rest with
    | nil => exact absurd hw List.not_mem_nil
    | cons c rest =>
      change w ∈ if s.mem c then stay ⟨some c, rest⟩ else [] at hw
      split at hw
      · rename_i hc
        obtain rfl := List.mem_singleton.mp hw
        exact ⟨[c], ⟨c, hc, rfl⟩, rfl, rfl⟩
      · exact absurd hw List.not_mem_nil
  · rintro ⟨_, ⟨c, hc, rfl⟩, h1, h2⟩
    obtain rfl : rest = c :: Q.rest := h1
    refine ⟨⟨[], ⟨some c, Q.rest⟩⟩, ?_, ?_⟩
    · change _ ∈ if s.mem c then stay ⟨some c, Q.rest⟩ else []
      rw [if_pos hc]
      exact List.mem_singleton_self _
    · exact congrArg (Position.mk · _) h2.symm

/-- **A plain expression reads its language**, wherever it stands. -/
theorem spells_ways {e : Expr} (h : e.isPlain = true) : Spells e.ways e.language := by
  unfold isPlain at h
  induction e with
  | empty => exact spells_stay
  | word text => exact spells_word text
  | set s => exact spells_set s
  | look l => exact absurd h Bool.false_ne_true
  | capture name body => exact absurd (Bool.and_eq_true_iff.mp h).1 Bool.false_ne_true
  | seq first second ih1 ih2 =>
    obtain ⟨h1, h2⟩ := Bool.and_eq_true_iff.mp h
    exact (ih1 h1).extend (ih2 h2)
  | alt first second ih1 ih2 =>
    obtain ⟨h1, h2⟩ := Bool.and_eq_true_iff.mp h
    exact (ih1 h1).inOrder (ih2 h2) true
  | atLeast greedy least body ih => exact spells_atLeast (ih h) body.leads_ways greedy least
  | between greedy least more body ih =>
    exact (spells_times (ih h) least).extend (spells_upTo (ih h) greedy more)

end Expr

end Regex

end UrlRouting

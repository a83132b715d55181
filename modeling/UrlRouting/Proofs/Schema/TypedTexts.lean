import Mathlib
import UrlRouting.Proofs.Schema.Builtin

/-!
# The texts of a type

A type reads more texts than it writes. The signed type reads `+7` and `007`, the unsigned one reads
`-5` as zero, and a truth value may be spelled out; but of all the texts that a value is read from,
one only is written for it. That text is its *canonical* one, and it is what the type accepts.

Reading, checking and writing are three functions that know nothing of each other. What brings them
together are the values of a type (`UrlRouting.Holds`): whatever is read is one of them
(`UrlRouting.ParamType.holds_of_coerce?`), and what is accepted is the text of one
(`UrlRouting.ParamType.accepts_iff`). So the accepted texts are those that come back unchanged
(`UrlRouting.ParamType.accepts_iff_canonical`).
-/

namespace UrlRouting

namespace ParamType

variable {type : ParamType} {text : String} {v : Value}

/-- **What is read is a value of the type.** -/
theorem holds_of_coerce? (h : type.coerce? text = some v) : Holds (some type) v := by
  cases type with
  | int =>
    obtain ⟨n, -, h⟩ := Option.bind_eq_some_iff.mp h
    split_ifs at h with hsigned
    obtain rfl := Option.some.inj h
    exact hsigned
  | uint =>
    obtain ⟨n, -, h⟩ := Option.bind_eq_some_iff.mp h
    split_ifs at h with hsigned hunsigned
    · -- a negative number in the signed range has become zero
      obtain rfl := Option.some.inj h
      simp only [Decimal.isSigned64, Bool.and_eq_true, decide_eq_true_eq] at hsigned
      simp only [Holds, Decimal.isUnsigned64, Bool.and_eq_true, decide_eq_true_eq]
      omega
    · obtain rfl := Option.some.inj h
      exact hunsigned
  | bool =>
    rw [coerce?] at h
    split_ifs at h <;> obtain rfl := Option.some.inj h <;> trivial

/-- An integer in some range whose text is the given one. -/
theorem any_readInt?_iff {range : Int → Bool} :
    (Decimal.readInt? text).any (fun n => range n && toString n == text) = true ↔
      ∃ n, range n = true ∧ toString n = text := by
  rw [Option.any_eq_true]
  constructor
  · rintro ⟨n, -, hn⟩
    obtain ⟨hrange, htext⟩ := Bool.and_eq_true_iff.mp hn
    exact ⟨n, hrange, beq_iff_eq.mp htext⟩
  · rintro ⟨n, hrange, rfl⟩
    exact ⟨n, Decimal.readInt?_toString n, Bool.and_eq_true_iff.mpr ⟨hrange, beq_self_eq_true _⟩⟩

/-- **What is accepted is the text of a value of the type.** -/
theorem accepts_iff : type.accepts text = true ↔ ∃ v, Holds (some type) v ∧ textOf v = text := by
  refine ⟨fun h => ?_, ?_⟩
  · cases type with
    | int =>
      obtain ⟨n, hrange, htext⟩ := any_readInt?_iff.mp h
      exact ⟨.int n, hrange, htext⟩
    | uint =>
      obtain ⟨n, hrange, htext⟩ := any_readInt?_iff.mp h
      exact ⟨.int n, hrange, htext⟩
    | bool =>
      rcases Bool.or_eq_true_iff.mp h with h | h
      · exact ⟨.bool false, trivial, (beq_iff_eq.mp h).symm⟩
      · exact ⟨.bool true, trivial, (beq_iff_eq.mp h).symm⟩
  · rintro ⟨v, hv, rfl⟩
    exact hv.accepts type rfl

/-- **A type accepts the texts that come back unchanged**: a text is accepted just if it is read as a
value whose text it is. The text of whatever is read is accepted, and read as the same value. And
what is read from some text or other are exactly the values of the type: the integers of the signed
range, those of the unsigned one, and the truth values. -/
theorem accepts_iff_canonical (type : ParamType) (name text : String) :
    (type.accepts text = true ↔
      ∃ v, type.coerce? text = some v ∧ v.urlText name = .ok text) ∧
    (∀ v, type.coerce? text = some v → ∃ canonical, v.urlText name = .ok canonical ∧
      type.accepts canonical = true ∧ type.coerce? canonical = some v) ∧
    ∀ v, (∃ other, type.coerce? other = some v) ↔ Holds (some type) v := by
  refine ⟨⟨fun h => ?_, ?_⟩, fun v h => ?_, fun v => ⟨?_, fun h => ⟨_, h.coerce?⟩⟩⟩
  · obtain ⟨v, hv, rfl⟩ := accepts_iff.mp h
    exact ⟨v, hv.coerce?, hv.urlText name⟩
  · rintro ⟨v, hread, htext⟩
    have hv := holds_of_coerce? hread
    have hsame : textOf v = text := Except.ok.inj ((hv.urlText name).symm.trans htext)
    exact accepts_iff.mpr ⟨v, hv, hsame⟩
  · have hv := holds_of_coerce? h
    exact ⟨textOf v, hv.urlText name, hv.accepts type rfl, hv.coerce?⟩
  · rintro ⟨other, hread⟩
    exact holds_of_coerce? hread

/-- A negative number is read as zero by the unsigned type, and zero has another text. -/
theorem accepts_iff_canonical_negative :
    uint.coerce? "-5" = some (.int 0) ∧ uint.accepts "-5" = false ∧
      ∃ canonical, (Value.int 0).urlText "n" = .ok canonical ∧ canonical ≠ "-5" ∧
        uint.accepts canonical = true ∧ uint.coerce? canonical = some (.int 0) := by
  have hread : uint.coerce? "-5" = some (.int 0) := by cbv
  have hrefused : uint.accepts "-5" = false := by cbv
  obtain ⟨-, hcanonical, -⟩ := accepts_iff_canonical uint "n" "-5"
  obtain ⟨canonical, htext, haccepts, hagain⟩ := hcanonical _ hread
  refine ⟨hread, hrefused, canonical, htext, ?_, haccepts, hagain⟩
  rintro rfl
  rw [hrefused] at haccepts
  cases haccepts

end ParamType

end UrlRouting

import Mathlib
import UrlRouting.Matching.Values
import UrlRouting.Proofs.Decimal.Integer
import UrlRouting.Proofs.Regex.Greedy
import UrlRouting.Proofs.Schema.Ways
import UrlRouting.Url.Fill

/-!
# Parameters without a validator

A parameter that has no validator is matched by the pattern of its type, and without a type by the
default pattern. Of these four patterns all is known: they are plain expressions, they compile, and
where the text of a value ends at a slash or with the path, their first way reads exactly that text
(`UrlRouting.Holds.goesFirst`).

The text of a value is what is written for it in a url, and from its text a value is read back
(`UrlRouting.Holds.clean?`).
-/

namespace UrlRouting

open Regex Regex.Ways

/-! ### Patterns -/

/-- The pattern of a parameter without a validator. -/
def patternOf (type : Option ParamType) : String := (type.map ParamType.pattern).getD Pattern.default

/-- The characters but the slash. -/
def notSlash : CharSet := ⟨[(0, 46), (48, 55295), (57344, 1114111)]⟩

/-- The ten digits. -/
def digits : CharSet := ⟨[(48, 57)]⟩

/-- The expression of the pattern of a parameter without a validator. -/
def patternExpr : Option ParamType → Expr
  | none => .atLeast true 1 (.set notSlash)
  | some .int => .seq (.between true 0 1 (.word ['-'])) (.atLeast true 1 (.set digits))
  | some .uint => .atLeast true 1 (.set digits)
  | some .bool => .set ⟨[(48, 49)]⟩

theorem exists_ofText?_patternOf (type : Option ParamType) :
    ∃ t, Syntax.ofText? (patternOf type) = some t ∧ t.isPlain = true ∧ t.expr = patternExpr type := by
  rcases type with _ | _ | _ | _
  · refine ⟨.repetition (.class_ (.bracket true (.char '/'))) ⟨1, none⟩ true, rfl, rfl, ?_⟩
    cbv
  · refine ⟨.seq (.repetition (.char '-') ⟨0, some 1⟩ true)
      (.repetition (.class_ (.bracket false (.range '0' '9'))) ⟨1, none⟩ true), rfl, rfl, ?_⟩
    cbv
  · refine ⟨.repetition (.class_ (.bracket false (.range '0' '9'))) ⟨1, none⟩ true, rfl, rfl, ?_⟩
    cbv
  · refine ⟨.alt (.char '0') (.char '1'), rfl, rfl, ?_⟩
    cbv

/-- The patterns of types compile when they are anchored. -/
theorem ParamType.ofSource?_isSome (type : ParamType) :
    (Validator.ofSource? type.pattern).isSome = true := by
  cases type <;> cbv

theorem mem_notSlash_iff {c : Char} : notSlash.mem c = true ↔ c ≠ '/' := by
  have hvalid : c.toNat < 0xd800 ∨ 0xdfff < c.toNat ∧ c.toNat < 0x110000 := c.valid
  have hslash : c = '/' ↔ c.toNat = 47 := Char.toNat_inj.symm
  rw [Ne, hslash]
  simp only [CharSet.mem, notSlash, Text.inRanges]
  split_ifs <;> simp <;> omega

theorem mem_digits_iff {c : Char} : digits.mem c = true ↔ c.isDigit = true := by
  have hdigit : c.isDigit = true ↔ 48 ≤ c.toNat ∧ c.toNat ≤ 57 := by
    simp only [Char.isDigit, Bool.and_eq_true, decide_eq_true_eq]
    exact Iff.rfl
  rw [hdigit]
  simp only [CharSet.mem, digits, Text.inRanges]
  split_ifs <;> simp <;> omega

/-! ### Values -/

/-- **A value of a parameter without a validator**: of the type if there is one, and else a text
that is not empty and has no slash in it. -/
def Holds : Option ParamType → Value → Prop
  | none, .str s => s ≠ "" ∧ '/' ∉ s.toList
  | some .int, .int n => Decimal.isSigned64 n = true
  | some .uint, .int n => Decimal.isUnsigned64 n = true
  | some .bool, .bool _ => True
  | _, _ => False

/-- The text of a value. -/
def textOf : Value → String
  | .str s => s
  | .int n => toString n
  | .bool b => if b then "1" else "0"
  | _ => ""

/-- A place where the text of a value ends: nothing or a slash follows. -/
def AtBreak (Q : Position) : Prop := ∀ c ∈ Q.rest.head?, c = '/'

section Values

variable {type : Option ParamType} {v : Value} {P Q : Position} {x : List Char}

/-- Digits are read up to the end of a text. -/
theorem goesFirst_digits (h : P.Reads x Q) (hx : ∀ c ∈ x, c.isDigit = true) (hne : x ≠ [])
    (hQ : AtBreak Q) : GoesFirst ((Expr.atLeast true 1 (.set digits)).ways P) [] Q := by
  refine goesFirst_run h (fun c hc => mem_digits_iff.mpr (hx c hc)) (fun c hc => ?_) hne
  obtain rfl := hQ c hc
  rfl

/-- An integer is read up to the end of its text. -/
theorem goesFirst_int {n : Int} (h : P.Reads (toString n).toList Q) (hQ : AtBreak Q) :
    GoesFirst ((patternExpr (some .int)).ways P) [] Q := by
  obtain ⟨ds, hne, hds, ⟨-, hn⟩ | ⟨-, hn⟩⟩ := Decimal.exists_digits n
  · -- there is no sign in front of a digit
    rw [hn] at h
    have hsign : (Expr.word ['-']).ways P = [] := by
      obtain ⟨d, ds, rfl⟩ := List.exists_cons_of_ne_nil hne
      have hd : '-' ≠ d := by
        rintro rfl
        exact absurd (hds '-' List.mem_cons_self) (by decide)
      rw [Expr.ways, h.1]
      simp [hd]
    have hfirst : GoesFirst ((Expr.between true 0 1 (.word ['-'])).ways P) [] P := by
      rw [Expr.ways_once, hsign]
      exact goesFirst_stay P
    exact hfirst.extend (goesFirst_digits h hds hne hQ)
  · rw [hn] at h
    obtain ⟨R, hR, hrest⟩ := Position.reads_cons_iff.mp h
    have hfirst : GoesFirst ((Expr.between true 0 1 (.word ['-'])).ways P) [] R := by
      rw [Expr.ways_once]
      exact (goesFirst_word hR).append _
    exact hfirst.extend (goesFirst_digits hrest hds hne hQ)

/-- An integer that is not negative has no sign. -/
theorem goesFirst_uint {n : Int} (hn : 0 ≤ n) (h : P.Reads (toString n).toList Q)
    (hQ : AtBreak Q) : GoesFirst ((patternExpr (some .uint)).ways P) [] Q := by
  obtain ⟨ds, hne, hds, ⟨-, htext⟩ | ⟨hneg, -⟩⟩ := Decimal.exists_digits n
  · rw [htext] at h
    exact goesFirst_digits h hds hne hQ
  · omega

theorem goesFirst_bool {b : Bool} (h : P.Reads (textOf (.bool b)).toList Q) :
    GoesFirst ((patternExpr (some .bool)).ways P) [] Q := by
  cases b with
  | true => exact goesFirst_set (c := '1') h rfl
  | false => exact goesFirst_set (c := '0') h rfl

/-- **Where the text of a value ends, the pattern reads exactly it.** -/
theorem Holds.goesFirst (h : Holds type v) (hP : P.Reads (textOf v).toList Q) (hQ : AtBreak Q) :
    GoesFirst ((patternExpr type).ways P) [] Q := by
  cases type with
  | none =>
    cases v with
    | str s =>
      obtain ⟨hne, hslash⟩ := h
      refine goesFirst_run hP (fun c hc => mem_notSlash_iff.mpr fun heq => hslash (heq ▸ hc))
        (fun c hc => ?_) (fun hnil => hne (String.toList_eq_nil_iff.mp hnil))
      obtain rfl := hQ c hc
      rfl
    | _ => exact h.elim
  | some type =>
    cases type with
    | int =>
      cases v with
      | int n => exact goesFirst_int hP hQ
      | _ => exact h.elim
    | uint =>
      cases v with
      | int n => exact goesFirst_uint (Decimal.nonneg_of_isUnsigned64 h) hP hQ
      | _ => exact h.elim
    | bool =>
      cases v with
      | bool b => exact goesFirst_bool hP
      | _ => exact h.elim

theorem Holds.urlText (h : Holds type v) (name : String) : v.urlText name = .ok (textOf v) := by
  rcases type with _ | _ | _ | _ <;> cases v <;> first | rfl | exact h.elim

/-- A value counts as given. -/
theorem Holds.isVoid_eq_false (h : Holds type v) : v.isVoid = false := by
  rcases type with _ | _ | _ | _ <;> cases v <;> try first | rfl | exact h.elim
  exact Bool.eq_false_iff.mpr fun hempty => h.1 (String.isEmpty_iff.mp hempty)

theorem Holds.textOf_ne_empty (h : Holds type v) : textOf v ≠ "" := by
  rcases type with _ | _ | _ | _ <;> cases v <;> try exact h.elim
  · exact h.1
  · exact Decimal.toString_ne_empty _
  · exact Decimal.toString_ne_empty _
  · rename_i b
    cases b <;> decide

/-- The type accepts the text of a value. -/
theorem Holds.accepts (h : Holds type v) : ∀ t ∈ type, t.accepts (textOf v) = true := by
  rintro t ht
  obtain rfl : type = some t := ht
  cases t <;> cases v <;> try exact h.elim
  · rename_i n
    have hsigned : Decimal.isSigned64 n = true := h
    rw [ParamType.accepts, textOf, Decimal.readInt?_toString]
    simp [hsigned]
  · rename_i n
    have hunsigned : Decimal.isUnsigned64 n = true := h
    rw [ParamType.accepts, textOf, Decimal.readInt?_toString]
    simp [hunsigned]
  · rename_i b
    cases b <;> rfl

/-- A value of a type is read back from its text. -/
theorem Holds.coerce? {type : ParamType} (h : Holds (some type) v) :
    type.coerce? (textOf v) = some v := by
  cases type <;> cases v <;> try exact h.elim
  · rename_i n
    have hsigned : Decimal.isSigned64 n = true := h
    rw [ParamType.coerce?, textOf, Decimal.readInt?_toString, Option.bind_some]
    exact if_pos hsigned
  · rename_i n
    have hunsigned : Decimal.isUnsigned64 n = true := h
    rw [ParamType.coerce?, textOf, Decimal.readInt?_toString, Option.bind_some,
      max_eq_left (Decimal.nonneg_of_isUnsigned64 hunsigned), if_pos hunsigned]
    exact ite_self _
  · rename_i b
    cases b <;> rfl

/-- The value is read back from its text. -/
theorem Holds.clean? (h : Holds type v) {spec : ParamSpec} (ht : spec.type = type) :
    spec.clean? (some (textOf v)) = some v := by
  unfold ParamSpec.clean?
  rw [ht]
  cases type with
  | some type => exact h.coerce?
  | none =>
    cases v with
    | str s => rfl
    | _ => exact h.elim

/-- The pattern matches the text of a value as a whole. -/
theorem Holds.mem_wholeTexts (h : Holds type v) :
    (textOf v).toList ∈ wholeTexts (patternOf type) := by
  obtain ⟨t, ht, hplain, hexpr⟩ := exists_ofText?_patternOf type
  have hread := (Option.filter_eq_some_iff.mp ht).1
  have hfirst := h.goesFirst (Position.reads_all (textOf v).toList) (fun c hc => nomatch hc)
  rw [wholeTexts_eq hread hplain]
  rw [← hexpr] at hfirst
  obtain ⟨x, hx, hreads⟩ := (Expr.spells_ways (Syntax.isPlain_expr hplain) _ _).mp
    ⟨_, List.mem_of_head? hfirst, rfl⟩
  exact (Position.reads_all _).unique hreads ▸ hx

end Values

/-! ### Parameters -/

/-- A validator accepts the texts that its expression matches as a whole. -/
theorem Validator.accepts_iff {source : String} {v : Validator} (h : ofSource? source = some v)
    {text : String} : v.accepts text = true ↔ text.toList ∈ wholeTexts source := by
  obtain ⟨r, hr, rfl⟩ := Option.map_eq_some_iff.mp h
  obtain ⟨s, hs, hif⟩ := Option.bind_eq_some_iff.mp hr
  split_ifs at hif
  cases hif
  have hread := (Option.filter_eq_some_iff.mp hs).1
  constructor
  · intro haccepts
    refine ⟨s, hread, ?_⟩
    rwa [String.ofList_toList]
  · rintro ⟨s', hs', hsome⟩
    obtain rfl := Option.some.inj (hread.symm.trans hs')
    rwa [String.ofList_toList] at hsome

/-- **A text passes the check of a parameter** if its type and its validator accept it. -/
theorem ParamSpec.check_eq_ok_iff {spec : ParamSpec} {text : String} :
    spec.check text = .ok () ↔ (∀ t ∈ spec.type, t.accepts text = true) ∧
      ∀ v ∈ spec.validator, v.accepts text = true := by
  have hfilter {α : Type} (o : Option α) (accepts : α → Bool) :
      o.filter (!accepts ·) = none ↔ ∀ a ∈ o, accepts a = true := by
    simp [Option.filter_eq_none_iff]
  rw [← hfilter, ← hfilter, check]
  cases spec.type.filter (!·.accepts text) with
  | some t => simp
  | none => cases spec.validator.filter (!·.accepts text) <;> simp

/-- A parameter without a validator, a default and a question mark, the name of a type perhaps. -/
def Parameter.bare (name : String) (typeName : Option String) : Parameter :=
  ⟨name, none, typeName, none, false⟩

namespace Parameter

variable {name : String} {typeName : Option String}

/-- The type with the name, if there is one. -/
def typeOf (typeName : Option String) : Option ParamType := typeName.bind ParamType.ofName?

theorem source?_bare (name : String) (typeName : Option String) :
    (bare name typeName).source? {} = (typeOf typeName).map ParamType.pattern := by
  cases typeName <;> rfl

theorem type?_bare (name : String) (typeName : Option String) :
    (bare name typeName).type? {} = typeOf typeName := by
  cases typeName <;> rfl

theorem pattern_bare (name : String) (typeName : Option String) :
    (bare name typeName).pattern {} = patternOf (typeOf typeName) := by
  rw [pattern, source?_bare]
  rfl

theorem isPlain_bare (name : String) (typeName : Option String) :
    (bare name typeName).IsPlain {} := by
  obtain ⟨t, ht, hplain, -⟩ := exists_ofText?_patternOf (typeOf typeName)
  exact ⟨t, (pattern_bare name typeName).symm ▸ ht, hplain⟩

theorem expr_bare (name : String) (typeName : Option String) :
    (bare name typeName).expr {} = patternExpr (typeOf typeName) := by
  obtain ⟨t, ht, -, hexpr⟩ := exists_ofText?_patternOf (typeOf typeName)
  have hread := (Option.filter_eq_some_iff.mp ht).1
  rw [expr, pattern_bare, hread]
  exact hexpr

/-- A bare parameter can be resolved if its type exists. -/
theorem resolves_bare (h : ∀ n ∈ typeName, (ParamType.ofName? n).isSome = true) :
    (bare name typeName).Resolves {} := by
  refine ⟨fun n hn => ?_, fun source hsource => ?_⟩
  · refine h n ?_
    cases typeName <;> exact hn
  · rw [source?_bare] at hsource
    obtain ⟨type, -, rfl⟩ := Option.map_eq_some_iff.mp hsource
    exact type.ofSource?_isSome

/-- The specification of a bare parameter passes the texts of its values. -/
theorem check_bare {v : Value} (h : Holds (typeOf typeName) v) :
    ((bare name typeName).spec {}).check (textOf v) = .ok () := by
  refine ParamSpec.check_eq_ok_iff.mpr ⟨fun t ht => ?_, fun val hval => ?_⟩
  · exact h.accepts t (type?_bare name typeName ▸ ht)
  · obtain ⟨source, hsource, hof⟩ := Option.bind_eq_some_iff.mp hval
    rw [source?_bare] at hsource
    have hpattern : patternOf (typeOf typeName) = source := by
      rw [patternOf, hsource]
      rfl
    exact (Validator.accepts_iff hof).mpr (hpattern ▸ h.mem_wholeTexts)

end Parameter

end UrlRouting

import Mathlib
import UrlRouting.Proofs.Regex.Space
import UrlRouting.Proofs.Schema.FirstFault
import UrlRouting.Proofs.Schema.Ways

/-!
# Validators stay inside their captures

The text of a validator is put into the capture of its parameter, and before that it is tried by
itself, between `^(?:` and `)$`. If it is an expression there, it almost always is one by itself, and
then its capture is one group with the tree of the validator in it. The exception are texts that
close the group that they are tried in (`UrlRouting.CompiledSchema.validator_closes_group`).

A schema is rejected for the first of its parameters that cannot be resolved
(`UrlRouting.Schema.compile_eq_error_iff`). So a validator that is no expression and does not
close its group is reported, unless something else in front of it is
(`UrlRouting.CompiledSchema.validators_inside`).
-/

namespace UrlRouting

open Regex

/-! ### Validators -/

namespace CompiledSchema

/-- The text of the capture with a number around a pattern. -/
def captureOf (i : Nat) (pattern : String) : String :=
  "(?P<" ++ captureName i ++ ">" ++ pattern ++ ")"

/-- The capture around an expression is one group. -/
theorem read?_captureOf {pattern : String} {s : Syntax} (h : Syntax.read? pattern = some s) (i : Nat) :
    Syntax.read? (captureOf i pattern) = some (.group (.capture (some (captureName i))) s) := by
  have hcloses : Syntax.Closes pattern.toList s :=
    Syntax.closes_of_read? (by rwa [String.ofList_toList])
  have hopens := Syntax.opens_capture (isName_captureName i)
  rw [String.ofList_toList] at hopens
  have hgroup := hcloses.stands hopens (Syntax.means_capture _ s)
  have htext : String.ofList ("(?P<".toList ++ (captureName i).toList ++ ['>'] ++ pattern.toList ++
      [')']) = captureOf i pattern := by
    refine String.toList_injective ?_
    simp [captureOf, String.toList_append]
  rw [← htext]
  exact hgroup.read?_eq

/-- A text that does not close its group is no validator if it is no expression. -/
theorem ofSource?_eq_none {source : String} (hnone : Regex.compile? source = none)
    (hcloses : ¬ClosesGroup source) : Validator.ofSource? source = none := by
  refine Option.map_eq_none_iff.mpr (Option.not_isSome_iff_eq_none.mp fun hsome => ?_)
  have halone := (compile?_isSome_iff_of_anchored hsome).mpr hcloses
  rw [hnone] at halone
  cases halone

/-- **Validators stay inside their captures**, unless their text closes the group it is put into.
The text of a validator of a schema that compiles is an expression by itself exactly if it does not
close its group, and then the capture of its parameter is one group around its tree. A schema with a
validator that is no expression and does not close its group is rejected, and this is what it is
rejected for if nothing is wrong with the parameters in front, nor with the name and the type. -/
theorem validators_inside (text : String) (ctx : CompileContext) :
    (∀ c, ofText text ctx = .ok c → ∀ spec ∈ c.params, ∀ v ∈ spec.validator,
      ((Regex.compile? v.source).isSome ↔ ¬ClosesGroup v.source) ∧
      (¬ClosesGroup v.source → ∃ s, Syntax.read? v.source = some s ∧
        ∀ i, Syntax.read? (captureOf i v.source) =
          some (.group (.capture (some (captureName i))) s))) ∧
    ∀ s before p behind source, Schema.ofText text = .ok s → s.params = before ++ p :: behind →
      p.source? ctx = some source → Regex.compile? source = none → ¬ClosesGroup source →
      ∃ fault, ofText text ctx = .error ⟨text, fault⟩ ∧
        (Parameter.AllResolve before ctx [] → p.name ∉ before.map (·.name) →
          (∀ name ∈ p.typeName? ctx, (ParamType.ofName? name).isSome) →
          fault = .invalidPattern p.name) := by
  constructor
  · intro c hc spec hspec v hv
    obtain ⟨s, -, -, rfl⟩ := ofText_eq_ok_iff.mp hc
    obtain ⟨p, -, rfl⟩ := List.mem_map.mp hspec
    obtain ⟨r, hr, -⟩ := Option.map_eq_some_iff.mp (Parameter.source_of_validator hv)
    have hiff : (Regex.compile? v.source).isSome ↔ ¬ClosesGroup v.source :=
      compile?_isSome_iff_of_anchored (hr ▸ rfl)
    refine ⟨hiff, fun hcloses => ?_⟩
    obtain ⟨r', hr'⟩ := Option.isSome_iff_exists.mp (hiff.mpr hcloses)
    obtain ⟨s, hs, -⟩ := Option.bind_eq_some_iff.mp hr'
    have hread := (Option.filter_eq_some_iff.mp hs).1
    exact ⟨s, hread, read?_captureOf hread⟩
  · intro s before p behind source hs hparams hsource hnone hcloses
    have hinvalid := ofSource?_eq_none hnone hcloses
    have hof := Schema.ofText_compile hs ctx
    cases hcompile : s.compile ctx with
    | ok c =>
      -- it does not compile, for the validator would be one that does
      have hp := (Schema.compile_eq_ok_iff.mp hcompile).1.each p (hparams ▸ by simp)
      have hsome := hp.validator source hsource
      rw [hinvalid] at hsome
      cases hsome
    | error fault =>
      refine ⟨fault, by rw [hof, hcompile]; rfl, fun hbefore hname htype => ?_⟩
      have hfirst : Parameter.FirstFault s.params ctx [] (.invalidPattern p.name) :=
        ⟨before, p, behind, hparams, hbefore,
          (Parameter.Fails.invalidPattern hname htype hsource hinvalid).resolve_eq⟩
      rw [Schema.compile_eq_error hfirst] at hcompile
      exact (Except.error.inj hcompile).symm

/-- A number, as its validator has it. -/
def digitsOnly : CompiledSchema where
  fragment := "/(?P<p0>[0-9]+?)"
  params := [⟨"id", none, none, Validator.ofSource? "[0-9]+?", "[0-9]+?"⟩]
  template := .literal "/" (.param 0 false .done)

/-- A class of digits is inside its capture, and a schema with a class that is not closed is
rejected. -/
theorem validators_inside_digits :
    ofText "/\x7bid|[0-9]+\x7d" {} = .ok digitsOnly ∧ (Regex.compile? "[0-9]+?").isSome ∧
      (∃ s, Syntax.read? "[0-9]+?" = some s ∧ ∀ i, Syntax.read? (captureOf i "[0-9]+?") =
        some (.group (.capture (some (captureName i))) s)) ∧
      ofText "/\x7bid|[0-9\x7d" {} = .error ⟨"/\x7bid|[0-9\x7d", .invalidPattern "id"⟩ := by
  have hc : ofText "/\x7bid|[0-9]+\x7d" {} = .ok digitsOnly := by cbv
  have hsome : (Validator.ofSource? "[0-9]+?").isSome := by cbv
  obtain ⟨v, hv⟩ := Option.isSome_iff_exists.mp hsome
  have hvsource : v.source = "[0-9]+?" := by
    obtain ⟨r, -, rfl⟩ := Option.map_eq_some_iff.mp hv
    rfl
  obtain ⟨hiff, hgroup⟩ := (validators_inside _ _).1 _ hc _ List.mem_cons_self v hv
  rw [hvsource] at hiff hgroup
  have hplain : ¬ClosesGroup "[0-9]+?" := not_closesGroup (by decide)
  have hs : Schema.ofText "/\x7bid|[0-9\x7d" =
      .ok (.literal "/" (.param ⟨"id", none, none, some "[0-9", false⟩ .done)) := by cbv
  obtain ⟨fault, herror, hfault⟩ := (validators_inside _ {}).2 _ [] _ [] "[0-9" hs rfl (by cbv)
    (by cbv) (not_closesGroup (by decide))
  obtain rfl := hfault (Parameter.allResolve_nil _ _) List.not_mem_nil fun name hname => by
    cases hname
  exact ⟨hc, hiff.mpr hplain, hgroup hplain, herror⟩

/-- A parameter whose validator closes its group. -/
def leaking : Parameter := ⟨"x", none, none, some "a)|(b", false⟩

theorem source?_leaking : leaking.source? {} = some "a)|(?:b" := by
  have huncapture : Pattern.uncapture "a)|(b" = "a)|(?:b" := by cbv
  have hlast : Pattern.endsGreedy "a)|(?:b".toList = false := by decide
  have hvalidator : Pattern.ofValidator "a)|(b" = "a)|(?:b" := by
    rw [Pattern.ofValidator, if_neg (by decide), huncapture]
    exact if_neg (Bool.eq_false_iff.mp hlast)
  exact congrArg some hvalidator

/-- A schema may compile with a validator that closes its group: `a)|(?:b` is no expression by
itself, and it adds an alternative to the expression of the schema. -/
theorem validator_closes_group :
    (∃ c v, ofText "/\x7bx|a)|(b\x7d" {} = .ok c ∧ c.fragment = "/(?P<p0>a)|(?:b)" ∧
      c.params.map (·.validator) = [some v] ∧ v.source = "a)|(?:b") ∧
    ClosesGroup "a)|(?:b" ∧ Regex.compile? "a)|(?:b" = none := by
  have hs : Schema.ofText "/\x7bx|a)|(b\x7d" = .ok (.literal "/" (.param leaking .done)) := by cbv
  have hsome : (Validator.ofSource? "a)|(?:b").isSome := by cbv
  obtain ⟨v, hv⟩ := Option.isSome_iff_exists.mp hsome
  have hresolves : leaking.Resolves {} := by
    refine ⟨fun name hname => ?_, fun source hsource => ?_⟩
    · cases hname
    · rw [source?_leaking] at hsource
      obtain rfl := Option.mem_some.mp hsource
      exact hsome
  have hall : Parameter.AllResolve [leaking] {} [] :=
    Parameter.allResolve_cons_iff.mpr
      ⟨⟨List.not_mem_nil, hresolves⟩, Parameter.allResolve_nil _ _⟩
  have hvalidator : (leaking.spec {}).validator = some v := by
    rw [Parameter.spec, source?_leaking]
    exact hv
  refine ⟨⟨_, v, ofText_eq_ok_iff.mpr ⟨_, hs, hall, rfl⟩, ?_, ?_, ?_⟩,
    ⟨['a'], "|(?:b".toList, rfl, by cbv⟩, by cbv⟩
  · have hpattern : leaking.pattern {} = "a)|(?:b" := by
      rw [Parameter.pattern, source?_leaking]
      rfl
    simp only [Schema.compiled, Schema.fragment, ParamSpec.fragment, Parameter.spec, hpattern]
    cbv
  · exact congrArg (fun o => [o]) hvalidator
  · obtain ⟨r, -, rfl⟩ := Option.map_eq_some_iff.mp hv
    rfl

end CompiledSchema

end UrlRouting

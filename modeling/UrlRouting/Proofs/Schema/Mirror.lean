import Mathlib
import UrlRouting.Proofs.Matching.Layers
import UrlRouting.Proofs.Schema.Ways
import UrlRouting.Proofs.Url.Rows

/-!
# A compiled schema mirrors its schema

A compiled schema says where its parameters stand by numbers alone, and the numbers are used in three
places that never meet: the template is written with the parameter that has the number, the text of
the expression has a capture named after the number, and the values of a match are read capture by
capture along the list of the parameters. If one of the three counted differently, each parameter
behind that place would get what belongs to another one.

The number of a parameter is how many stand in front of it, those in segments included. So the
numbers of a part depend on what is in front of it, and everything about numbers is said of parts
behind so many others (`UrlRouting.Schema.numbers_template`). For a whole schema they are the places of its parameters in
the list, and each use of a number goes to the parameter that the schema has there
(`UrlRouting.Schema.compile_mirrors`).
-/

namespace UrlRouting

/-! ### Templates and their numbers -/

namespace Template

variable {t : Template} {ctx : FillContext} {specs : List ParamSpec}

/-- **A template with the shape of a schema**: the same parts, nested in the same way, whatever the
numbers of its parameters. -/
inductive HasShape : Template → Schema → Prop
  /-- No more parts. -/
  | done : HasShape .done .done
  /-- The same text. -/
  | literal {text : String} {t : Template} {s : Schema} (behind : HasShape t s) :
      HasShape (.literal text t) (.literal text s)
  /-- A parameter that is optional if that of the schema is. -/
  | param {index : Nat} {p : Parameter} {t : Template} {s : Schema} (behind : HasShape t s) :
      HasShape (.param index p.optional t) (.param p s)
  /-- A segment with the shape of the segment. -/
  | segment {t t' : Template} {s s' : Schema} (within : HasShape t s) (behind : HasShape t' s') :
      HasShape (.segment t t') (.segment s s')

/-- The numbers of the parameters, from left to right, those of segments included. -/
def numbers : Template → List Nat
  | .done => []
  | .literal _ rest => rest.numbers
  | .param index _ rest => index :: rest.numbers
  | .segment inner rest => inner.numbers ++ rest.numbers

/-- **The text of an expression for a template**: for each part what stands for it, a parameter being
the one with its number, in the capture with its number. There is none if a number has no
parameter. -/
def fragment? (specs : List ParamSpec) : Template → Option String
  | .done => some ""
  | .literal text rest => (rest.fragment? specs).map (Regex.escape text ++ ·)
  | .param index optional rest =>
    (specs[index]?).bind fun spec => (rest.fragment? specs).map (spec.fragment index optional ++ ·)
  | .segment inner rest =>
    (inner.fragment? specs).bind fun inside =>
      (rest.fragment? specs).map ("(?:" ++ inside ++ ")?" ++ ·)

/-- **Only the parameters whose numbers a template has are looked at** when it is written. -/
theorem fill_congr (h : ∀ i ∈ t.numbers, ctx.specs[i]? = specs[i]?) (required : Bool)
    (params : Params) :
    t.fill ctx required params = t.fill { ctx with specs := specs } required params := by
  induction t generalizing required params with
  | done => rfl
  | literal text rest ih => rw [fill, fill, ih h]
  | param index optional rest ih =>
    obtain ⟨hindex, hrest⟩ := List.forall_mem_cons.mp h
    rw [fill, fill, ih hrest, hindex]
  | segment inner rest ih1 ih2 =>
    obtain ⟨hinner, hrest⟩ := List.forall_mem_append.mp h
    rw [fill, fill, ih2 hrest]
    congr 1
    funext row
    rw [ih1 hinner]

end Template

/-! ### The template of a schema -/

namespace Schema

variable {ctx : CompileContext} {specs : List ParamSpec}

theorem hasShape_template (s : Schema) (k : Nat) : (s.template k).HasShape s := by
  induction s generalizing k with
  | done => exact .done
  | literal text rest ih => exact .literal (ih k)
  | param p rest ih => exact .param (ih (k + 1))
  | segment inner rest ih1 ih2 => exact .segment (ih1 k) (ih2 _)

/-- **The numbers of the parts of a schema** go on from those in front of it, one by one. -/
theorem numbers_template (s : Schema) (k : Nat) :
    (s.template k).numbers = List.range' k s.params.length := by
  induction s generalizing k with
  | done => rfl
  | literal text rest ih => exact ih k
  | param p rest ih =>
    change k :: (rest.template (k + 1)).numbers = List.range' k (rest.params.length + 1)
    rw [ih, List.range'_succ]
  | segment inner rest ih1 ih2 =>
    change (inner.template k).numbers ++ (rest.template _).numbers =
      List.range' k (inner.params ++ rest.params).length
    rw [ih1, ih2, List.length_append, ← List.range'_append_1]

/-- **The captures of the parts of a schema** are those of its own parameters, if these stand in the
list from their first number on. -/
theorem fragment?_template (s : Schema) (k : Nat) (h : s.specs ctx <+: specs.drop k) :
    (s.template k).fragment? specs = some (s.fragment ctx k) := by
  induction s generalizing k with
  | done => rfl
  | literal text rest ih =>
    rw [template, Template.fragment?, ih k h]
    rfl
  | param p rest ih =>
    obtain ⟨hspec, hrest⟩ := getElem?_of_prefix h
    rw [template, Template.fragment?, hspec, Option.bind_some, ih (k + 1) hrest]
    rfl
  | segment inner rest ih1 ih2 =>
    rw [Schema.specs, params, List.map_append] at h
    obtain ⟨hinner, hrest⟩ := prefix_append h
    rw [List.length_map] at hrest
    rw [template, Template.fragment?, ih1 k hinner, Option.bind_some, ih2 _ hrest]
    rfl

end Schema

/-! ### Whole schemas -/

/-- **A compiled schema that mirrors a schema**: it has the parts of the schema, numbered from the
left to the right, and wherever a number is used it stands for the parameter in that place. -/
structure CompiledSchema.Mirrors (c : CompiledSchema) (s : Schema) : Prop where
  /-- The parts are those of the schema. -/
  shape : c.template.HasShape s
  /-- The numbers of the parameters are their places in the list. -/
  numbers : c.template.numbers = List.range c.params.length
  /-- The list has the names and the defaults of the schema, in order. -/
  declared : c.params.map (fun spec => (spec.name, spec.default)) =
    s.params.map fun p => (p.name, p.default)
  /-- The names are distinct. -/
  distinct : (c.params.map (·.name)).Nodup
  /-- Each number has a parameter. -/
  inBounds : ∀ i ∈ c.template.numbers, ∃ spec, c.params[i]? = some spec
  /-- What would stand behind the parameters is not looked at when the schema is written. -/
  enough : ∀ output route required params more,
    c.template.fill ⟨output, route, c.params ++ more⟩ required params =
      c.template.fill ⟨output, route, c.params⟩ required params
  /-- The capture with a number goes around the pattern of the parameter with that number. -/
  captured : c.template.fragment? c.params = some c.fragment
  /-- The captures have distinct names. -/
  captures : (c.template.numbers.map captureName).Nodup
  /-- A match gives each parameter the value of the text in the capture with its number. -/
  clean : ∀ trail values, c.clean? trail = some values →
    values.names = c.params.map (·.name) ∧
      ∀ (i : Nat) (spec : ParamSpec), c.params[i]? = some spec →
        ∃ v, spec.clean? (spec.textOf? i trail) = some v ∧ values.get? spec.name = some v

namespace Schema

variable {ctx : CompileContext} {s : Schema} {c : CompiledSchema}

/-- **A schema that compiles is mirrored by what it is compiled to**, with whatever it is compiled. -/
theorem compile_mirrors (h : s.compile ctx = .ok c) : c.Mirrors s := by
  obtain ⟨hresolve, rfl⟩ := compile_eq_ok_iff.mp h
  have hlength : (s.specs ctx).length = s.params.length := List.length_map _
  have hnumbers : (s.template 0).numbers = List.range (s.specs ctx).length := by
    rw [numbers_template, hlength, List.range_eq_range']
  have hdistinct : ((s.specs ctx).map (·.name)).Nodup := by
    rw [names_specs]
    exact hresolve.nodup
  have hbound : ∀ i ∈ (s.template 0).numbers, i < (s.specs ctx).length := by
    rw [hnumbers]
    exact fun i hi => List.mem_range.mp hi
  exact {
    shape := hasShape_template s 0
    numbers := hnumbers
    declared := by
      change (s.specs ctx).map _ = _
      rw [specs, List.map_map]
      rfl
    distinct := hdistinct
    inBounds := fun i hi => ⟨_, List.getElem?_eq_getElem (hbound i hi)⟩
    enough := fun output route required params more =>
      Template.fill_congr (fun i hi => List.getElem?_append_left (hbound i hi)) required params
    captured := fragment?_template s 0 (List.prefix_refl _)
    captures := by
      change ((s.template 0).numbers.map captureName).Nodup
      rw [hnumbers]
      exact List.nodup_range.map fun _ _ => captureName_injective
    clean := fun trail values hvalues => by
      obtain ⟨hnames, -, hread⟩ := cleanFrom?_values hvalues hdistinct fun _ _ => List.not_mem_nil
      refine ⟨hnames, fun i spec hspec => ?_⟩
      rw [← Nat.zero_add i]
      exact hread i spec hspec }

/-- A schema with a segment in a segment, and a parameter in front of, within and behind them. -/
def fourNested : Schema :=
  .literal "/" (.param ⟨"a", some "1", some "int", none, true⟩
    (.segment (.literal "/" (.param ⟨"b", none, none, none, false⟩
        (.segment (.literal "-" (.param ⟨"c", none, none, some "[xy]+", false⟩ .done)) .done)))
      (.literal "." (.param ⟨"d", some "html", none, none, false⟩ .done))))

/-- The parameter behind the segments has the last number. -/
theorem compile_mirrors_nested : ∃ c, fourNested.compile {} = .ok c ∧ c.Mirrors fourNested ∧
    c.params.map (·.name) = ["a", "b", "c", "d"] ∧ c.template.numbers = [0, 1, 2, 3] ∧
    c.fragment = "/(?P<p0>-?[0-9]+)?(?:/(?P<p1>[^/]+)(?:\\-(?P<p2>[xy]+?))?)?\\.(?P<p3>[^/]+)" := by
  have h : fourNested.compile {} = .ok (fourNested.compiled {}) := by cbv
  exact ⟨_, h, compile_mirrors h, by decide, by decide, by cbv⟩

end Schema

end UrlRouting

import UrlRouting.Proofs.Params
import UrlRouting.Proofs.Schema.Components

/-!
# Writing rows of components

A schema is written from right to left, so that what a row of components becomes depends on what has
become of the parts behind it. If nothing is missing there and each parameter has a value, the row
is written as the text of its components (`UrlRouting.Schema.fill_row`). If no parameter has a
value, the row is missing, unless it is without parameters (`UrlRouting.Schema.fill_row_absent`).
Either way the row uses up the names of its parameters, in addition to those behind it.
-/

namespace UrlRouting

/-- What is sent through a binder towards urls; without a binder, it is sent as it is. -/
def Sends (output : Option Transform) (d c : Value) : Prop :=
  match output with
  | none => d = c
  | some f => f d = .ok c

section Parameters

variable {ctx : FillContext} {spec : ParamSpec} {params : Params} {d c : Value} {text : String}

/-- The text of a parameter is that of the value it is sent as. -/
theorem ParamSpec.resolve_eq_ok {output : Option Transform} (hd : params.get? spec.name = some d)
    (hsends : Sends output d c) (htext : c.urlText spec.name = .ok text) :
    spec.resolve output params = .ok text := by
  unfold resolve
  rw [hd]
  cases output with
  | none =>
    obtain rfl : d = c := hsends
    exact htext
  | some f =>
    have hf : f d = .ok c := hsends
    change ((f d).mapError _ >>= _) = _
    rw [hf]
    exact htext

/-- A text that passes its check is written. -/
theorem ParamSpec.emit_eq_text {route : String} {required behind : Bool} (hne : text ≠ "")
    (hcheck : spec.check text = .ok ()) :
    spec.emit route text false required behind = .ok (.text text) := by
  have hempty : text.isEmpty = false := by
    rw [Bool.eq_false_iff, Ne, String.isEmpty_iff]
    exact hne
  rw [emit, hempty, hcheck]
  rfl

end Parameters

/-! ### Parts of a template -/

section Template

variable {ctx : FillContext} {spec : ParamSpec} {params : Params} {rest inner : Template}
  {row inside : Filled} {text : String} {k : Nat} {optional required : Bool}

theorem Template.fill_literal (h : rest.fill ctx required params = .ok row) :
    (literal text rest).fill ctx required params = .ok { row with text := text ++ row.text } := by
  rw [fill, h]
  rfl

/-- A parameter with a text is written. -/
theorem Template.fill_param (h : rest.fill ctx required params = .ok row)
    (hspec : ctx.specs[k]? = some spec) (hmissing : row.missing = false)
    (hresolve : spec.resolve (ctx.output spec.name) row.params = .ok text)
    (hemit : spec.emit ctx.route text optional required (!row.text.isEmpty) = .ok (.text text)) :
    (param k optional rest).fill ctx required params =
      .ok { row with text := text ++ row.text, used := row.used ++ [spec.name] } := by
  rw [fill, h]
  dsimp only [bind, Except.bind]
  rw [hspec]
  dsimp only
  rw [hmissing, hresolve]
  dsimp only
  rw [hemit]
  rfl

/-- A parameter without a text is missing in a row that is not required. -/
theorem Template.fill_param_missing (h : rest.fill ctx false params = .ok row)
    (hspec : ctx.specs[k]? = some spec)
    (hresolve : spec.resolve (ctx.output spec.name) row.params = .ok "") :
    (param k false rest).fill ctx false params =
      .ok { row with used := row.used ++ [spec.name], missing := true } := by
  rw [fill, h]
  dsimp only [bind, Except.bind]
  rw [hspec]
  dsimp only
  cases hmissing : row.missing with
  | true => rfl
  | false =>
    rw [hresolve]
    rfl

/-- A segment is written unless something is missing in it. -/
theorem Template.fill_segment (h : rest.fill ctx required params = .ok row)
    (hinner : inner.fill ctx false row.params = .ok inside) :
    (segment inner rest).fill ctx required params =
      .ok { row with text := (if inside.missing then "" else inside.text) ++ row.text,
                     params := inside.left } := by
  rw [fill, h]
  change (inner.fill ctx false row.params >>= _) = _
  rw [hinner]
  rfl

end Template

namespace Schema

open Component

variable {ctx : FillContext} {front : String} {comps : List Component} {tail : Schema}
  {value : String → Value} {k : Nat} {required : Bool} {params : Params} {r : Filled}

theorem getElem?_of_prefix {spec : ParamSpec} {specs all : List ParamSpec}
    (h : spec :: specs <+: all.drop k) :
    all[k]? = some spec ∧ specs <+: all.drop (k + 1) := by
  obtain ⟨more, hmore⟩ := h
  have hdrop : all.drop (k + 1) = specs ++ more := by
    rw [← List.tail_drop, ← hmore]
    rfl
  refine ⟨?_, more, hdrop.symm⟩
  rw [← List.head?_drop, ← hmore]
  rfl

theorem prefix_append {specs specs' all : List ParamSpec} (h : specs ++ specs' <+: all.drop k) :
    specs <+: all.drop k ∧ specs' <+: all.drop (k + specs.length) := by
  obtain ⟨more, hmore⟩ := h
  rw [List.append_assoc] at hmore
  refine ⟨⟨_, hmore⟩, more, ?_⟩
  rw [← List.drop_drop, ← hmore, List.drop_left]

/-- The parameters of a segment come first, then those behind it. -/
theorem specs_segment_prefix {cctx : CompileContext} {inner rest : Schema} {all : List ParamSpec}
    (h : (segment inner rest).specs cctx <+: all.drop k) :
    inner.specs cctx <+: all.drop k ∧ rest.specs cctx <+: all.drop (k + inner.params.length) := by
  rw [specs, Schema.params, List.map_append] at h
  obtain ⟨hinner, hrest⟩ := prefix_append h
  rw [List.length_map] at hrest
  exact ⟨hinner, hrest⟩

/-- A row without components is written as what is in front of it. -/
theorem fill_row_nil (htail : (tail.template k).fill ctx required params = .ok r) :
    ((row front [] tail).template k).fill ctx required params =
      .ok ⟨front ++ r.text, r.params, r.used ++ (names []).reverse, r.missing⟩ := by
  have hused : r.used ++ (names []).reverse = r.used := List.append_nil r.used
  rw [row, hused]
  split
  · rename_i hfront
    rw [hfront, String.empty_append]
    exact htail
  · exact Template.fill_literal htail

/-- The name of a parameter is used behind those of the rest of its row. -/
theorem used_param (used : List String) (name : String) (typeName : Option String)
    (rest : List Component) :
    used ++ (names (.param name typeName :: rest)).reverse =
      used ++ (names rest).reverse ++ [name] := by
  rw [List.append_assoc, ← List.reverse_cons]
  rfl

theorem length_names_param (name : String) (typeName : Option String) (rest : List Component) :
    k + (names (.param name typeName :: rest)).length = k + 1 + (names rest).length := by
  rw [Nat.add_assoc]
  exact congrArg (k + ·) (Nat.add_comm _ 1)

/-- **A row with values is written** as the text of its components. -/
theorem fill_row (hspecs : (Component.params comps).map (·.spec {}) <+: ctx.specs.drop k)
    (hvalues : ∀ p ∈ Component.params comps,
      Holds (Parameter.typeOf p.typeName) (value p.name) ∧
        ∃ d, r.params.get? p.name = some d ∧ Sends (ctx.output p.name) d (value p.name))
    (htail : (tail.template (k + (names comps).length)).fill ctx required params = .ok r)
    (hmissing : r.missing = false) :
    ((row front comps tail).template k).fill ctx required params =
      .ok ⟨front ++ pathText value comps ++ r.text, r.params, r.used ++ (names comps).reverse,
        false⟩ := by
  induction comps generalizing front k with
  | nil =>
    rw [fill_row_nil (k := k) htail, hmissing, pathText, String.append_empty]
  | cons comp rest ih =>
    cases comp with
    | literal text =>
      rw [row, ih hspecs hvalues htail]
      simp only [pathText, String.append_assoc]
      rfl
    | param name typeName =>
      rw [length_names_param] at htail
      obtain ⟨hspec, hspecs⟩ := getElem?_of_prefix hspecs
      obtain ⟨hholds, d, hd, hsends⟩ := hvalues (.bare name typeName) List.mem_cons_self
      have hrest := @ih "" _ hspecs
        (fun p hp => hvalues p (List.mem_cons_of_mem _ hp)) htail
      have hresolve : ((Parameter.bare name typeName).spec {}).resolve (ctx.output name) r.params =
          .ok (textOf (value name)) := ParamSpec.resolve_eq_ok hd hsends (hholds.urlText name)
      have hcheck : ((Parameter.bare name typeName).spec {}).check (textOf (value name)) = .ok () :=
        Parameter.check_bare hholds
      refine (Template.fill_literal (Template.fill_param hrest hspec rfl hresolve
        (ParamSpec.emit_eq_text hholds.textOf_ne_empty hcheck))).trans ?_
      rw [used_param]
      change Except.ok (Filled.mk _ _ (r.used ++ (names rest).reverse ++ [name]) _) = _
      simp only [pathText, String.append_assoc, String.empty_append]

/-- **A row without values is missing** if it has a parameter. -/
theorem fill_row_absent (hspecs : (Component.params comps).map (·.spec {}) <+: ctx.specs.drop k)
    (hvalues : ∀ p ∈ Component.params comps,
      r.params.get? p.name = none ∧ ctx.output p.name = none)
    (htail : (tail.template (k + (names comps).length)).fill ctx false params = .ok r)
    (hmissing : r.missing = false) :
    ∃ text, ((row front comps tail).template k).fill ctx false params =
      .ok ⟨text, r.params, r.used ++ (names comps).reverse, !(names comps).isEmpty⟩ := by
  induction comps generalizing front k with
  | nil =>
    refine ⟨front ++ r.text, ?_⟩
    rw [fill_row_nil (k := k) htail, hmissing]
    rfl
  | cons comp rest ih =>
    cases comp with
    | literal text => exact ih hspecs hvalues htail
    | param name typeName =>
      rw [length_names_param] at htail
      obtain ⟨hspec, hspecs⟩ := getElem?_of_prefix hspecs
      obtain ⟨hnone, houtput⟩ := hvalues (.bare name typeName) List.mem_cons_self
      obtain ⟨text, hrest⟩ := @ih "" _ hspecs
        (fun p hp => hvalues p (List.mem_cons_of_mem _ hp)) htail
      have hresolve : ((Parameter.bare name typeName).spec {}).resolve (ctx.output name) r.params =
          .ok "" := by
        have hname : r.params.get? ((Parameter.bare name typeName).spec {}).name = none := hnone
        unfold ParamSpec.resolve
        rw [hname, show ctx.output name = none from houtput]
        rfl
      rw [used_param]
      exact ⟨_, Template.fill_literal (Template.fill_param_missing hrest hspec hresolve)⟩

end Schema

/-- Where the schema of a node is written. -/
def Tree.fillContext (t : Tree) (id : NodeId) (route : String) (s : Schema) : FillContext :=
  ⟨t.binderOut? id, route, s.specs {}⟩

/-- The schema of a node is written as its template is. -/
theorem Tree.fillSchema_eq {t : Tree} {id : NodeId} {route : String} {s : Schema} {params : Params}
    {r : Filled}
    (h : (s.template 0).fill (t.fillContext id route s) true params.given = .ok r) :
    t.fillSchema id route (s.compiled {}) params = .ok (r.text, r.left) := by
  change ((s.template 0).fill (t.fillContext id route s) true params.given >>= _) = _
  rw [h]
  rfl

end UrlRouting

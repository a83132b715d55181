import UrlRouting.Matching.Values
import UrlRouting.Proofs.Params
import UrlRouting.Proofs.Schema.Components

/-!
# Values of captured texts

Of a match only the texts matter that it gives the parameters. Their clean values are found one by
one, and are put behind each other in the order of the parameters
(`UrlRouting.cleanFrom?_eq_some`); binders then work on each value by itself
(`UrlRouting.Tree.bindEntries_eq_ok`).
-/

namespace UrlRouting

open Regex

section Clean

variable {trail trail' : Trail} {specs : List ParamSpec} {params : Params} {k k' : Nat}

theorem texts_succ (trail : Trail) (k n : Nat) :
    trail.texts k (n + 1) = trail.text? (captureName k) :: trail.texts (k + 1) n := rfl

/-- The clean value of a parameter with a captured text. -/
def ParamSpec.cleanText? (spec : ParamSpec) (text : Option String) : Option Value :=
  spec.clean? ((text.filter (!·.isEmpty)).or spec.default)

/-- **The clean values of parameters** are those of their texts, in the order of the parameters. -/
theorem cleanFrom?_eq_some (value : String → Value)
    (h : List.Forall₂ (fun spec text => spec.cleanText? text = some (value spec.name)) specs
      (trail.texts k specs.length))
    (hnodup : (specs.map (·.name)).Nodup) (hnew : ∀ n ∈ specs.map (·.name), n ∉ params.names) :
    cleanFrom? trail specs k params =
      some ⟨params.entries ++ specs.map fun spec => (spec.name, value spec.name)⟩ := by
  induction specs generalizing k params with
  | nil =>
    rw [cleanFrom?, List.map_nil, List.append_nil]
  | cons spec specs ih =>
    rw [List.length_cons, texts_succ] at h
    obtain ⟨hspec, hrest⟩ := List.forall₂_cons.mp h
    obtain ⟨hfirst, hnodup⟩ := List.nodup_cons.mp hnodup
    have hvalue : spec.clean? (spec.textOf? k trail) = some (value spec.name) := hspec
    have hfresh : spec.name ∉ params.names := hnew spec.name List.mem_cons_self
    rw [cleanFrom?, hvalue]
    dsimp only
    rw [ih hrest hnodup, Params.insert_eq hfresh, List.map_cons, List.append_assoc]
    · rfl
    · exact fun n hn => Params.not_mem_names_insert hfresh (hnew n (List.mem_cons_of_mem _ hn))
        (ne_of_mem_of_not_mem hn hfirst)

/-- The clean value of a bare parameter with the text of a value is that value. -/
theorem Parameter.cleanText?_bare {name : String} {typeName : Option String} {v : Value}
    (h : Holds (typeOf typeName) v) :
    ((bare name typeName).spec {}).cleanText? (some (textOf v)) = some v := by
  have hfilter : (some (textOf v)).filter (!·.isEmpty) = some (textOf v) := by
    refine Option.filter_eq_some_iff.mpr ⟨rfl, ?_⟩
    rw [Bool.not_eq_true', Bool.eq_false_iff, Ne, String.isEmpty_iff]
    exact h.textOf_ne_empty
  rw [ParamSpec.cleanText?, hfilter]
  exact h.clean? (type?_bare name typeName)

/-- **The texts of values are cleaned** to these values. -/
theorem clean_components {comps : List Component} {value : String → Value}
    (h : ∀ p ∈ Component.params comps, Holds (Parameter.typeOf p.typeName) (value p.name)) :
    List.Forall₂ (fun spec text => ParamSpec.cleanText? spec text = some (value spec.name))
      ((Component.params comps).map (·.spec {}))
      ((Component.names comps).map fun n => some (textOf (value n))) := by
  rw [Component.names, List.map_map, List.forall₂_map_left_iff, List.forall₂_map_right_iff,
    List.forall₂_same]
  intro p hp
  have hbare := Component.eq_bare_of_mem_params hp
  have hclean : ((Parameter.bare p.name p.typeName).spec {}).cleanText? _ = _ :=
    Parameter.cleanText?_bare (h p hp)
  rw [← hbare] at hclean
  exact hclean

/-- Without a text, a bare parameter is null. -/
theorem clean_absent {comps : List Component} {value : String → Value}
    (h : ∀ n ∈ Component.names comps, value n = .null) :
    List.Forall₂ (fun spec text => ParamSpec.cleanText? spec text = some (value spec.name))
      ((Component.params comps).map (·.spec {}))
      (List.replicate (Component.names comps).length none) := by
  rw [← List.map_const', Component.names, List.map_map, List.forall₂_map_left_iff,
    List.forall₂_map_right_iff, List.forall₂_same]
  intro p hp
  rw [Component.eq_bare_of_mem_params hp]
  exact congrArg some (h p.name (List.mem_map_of_mem hp)).symm

end Clean

/-- **The bound values of clean ones** are those of each by itself, in the same order. -/
theorem Tree.bindEntries_eq_ok {t : Tree} {id : NodeId} {entries : List (String × Value)}
    {bound : Params} (value : String → Value)
    (h : ∀ e ∈ entries, t.bindValue id e.1 e.2 = .ok (value e.1))
    (hnodup : (entries.map (·.1)).Nodup) (hnew : ∀ n ∈ entries.map (·.1), n ∉ bound.names) :
    t.bindEntries id entries bound =
      .ok ⟨bound.entries ++ entries.map fun e => (e.1, value e.1)⟩ := by
  induction entries generalizing bound with
  | nil => rw [bindEntries, List.map_nil, List.append_nil]
  | cons e entries ih =>
    obtain ⟨name, v⟩ := e
    obtain ⟨hfirst, hnodup⟩ := List.nodup_cons.mp hnodup
    have hvalue : t.bindValue id name v = .ok (value name) := h _ List.mem_cons_self
    have hfresh : name ∉ bound.names := hnew name List.mem_cons_self
    rw [bindEntries, hvalue]
    change t.bindEntries id entries (bound.insert name (value name)) = _
    rw [ih (fun e he => h e (List.mem_cons_of_mem _ he)) hnodup, Params.insert_eq hfresh,
      List.map_cons, List.append_assoc]
    · rfl
    · exact fun n hn => Params.not_mem_names_insert hfresh (hnew n (List.mem_cons_of_mem _ hn))
        (ne_of_mem_of_not_mem hn hfirst)

end UrlRouting

import UrlRouting.Proofs.Schema.Builtin
import UrlRouting.Proofs.Schema.Language

/-!
# Rows of components

Most schemas are rows of components, each of them a slash and behind it literal text or a parameter
without a validator. Read as a schema, what is literal in components next to each other is one
literal (`UrlRouting.Schema.row`).

Such a row is unambiguous. Where the text of its components with some values ends at a slash or with
the path, the first way of the row reads exactly that text, and captures the texts of the values
(`UrlRouting.Schema.goesFirst_row`). It goes first whatever follows, so that nothing that comes
later in a path can take it back.
-/

namespace UrlRouting

open Regex Regex.Ways

/-! ### Components -/

/-- A component: a slash, and what stands behind it. -/
inductive Component where
  /-- Literal text. -/
  | literal (text : String)
  /-- A parameter, the name of a type perhaps. -/
  | param (name : String) (typeName : Option String)
  deriving DecidableEq, Repr

namespace Component

/-- The parameter of a component, if it has one. -/
def param? : Component → Option Parameter
  | .literal _ => none
  | .param name typeName => some (.bare name typeName)

/-- The parameters of components, from left to right. -/
def params (comps : List Component) : List Parameter := comps.filterMap param?

/-- The names of the parameters of components. -/
def names (comps : List Component) : List String := (params comps).map (·.name)

/-- The text of components with the given values. -/
def pathText (value : String → Value) : List Component → String
  | [] => ""
  | .literal text :: rest => "/" ++ text ++ pathText value rest
  | .param name _ :: rest => "/" ++ textOf (value name) ++ pathText value rest

variable {comps : List Component} {value : String → Value} {p : Parameter}

/-- The parameters of components are bare ones. -/
theorem eq_bare_of_mem_params (h : p ∈ params comps) : p = .bare p.name p.typeName := by
  obtain ⟨c, -, hc⟩ := List.mem_filterMap.mp h
  cases c with
  | literal _ => cases hc
  | param name typeName =>
    obtain rfl := Option.some.inj hc
    rfl

theorem params_append (xs ys : List Component) : params (xs ++ ys) = params xs ++ params ys :=
  List.filterMap_append

theorem names_append (xs ys : List Component) : names (xs ++ ys) = names xs ++ names ys := by
  rw [names, params_append, List.map_append, names, names]

theorem length_names (comps : List Component) : (names comps).length = (params comps).length :=
  List.length_map ..

theorem pathText_append (value : String → Value) (xs ys : List Component) :
    pathText value (xs ++ ys) = pathText value xs ++ pathText value ys := by
  induction xs with
  | nil => exact (String.empty_append ..).symm
  | cons comp xs ih =>
    cases comp <;> simp only [List.cons_append, pathText, ih, String.append_assoc]

/-- The text of components begins with a slash, if there are any. -/
theorem head?_pathText (value : String → Value) (comps : List Component) :
    ∀ c ∈ (pathText value comps).toList.head?, c = '/' := by
  intro c hc
  cases comps with
  | nil => cases hc
  | cons comp rest =>
    cases comp <;>
    · rw [pathText, String.append_assoc, String.toList_append] at hc
      exact (Option.some.inj hc).symm

/-- Between components, a slash follows. -/
theorem atBreak_of_reads {P Q : Position} (h : P.Reads (pathText value comps).toList Q)
    (hQ : AtBreak Q) : AtBreak P := by
  intro c hc
  rw [h.1] at hc
  cases hx : (pathText value comps).toList with
  | nil =>
    rw [hx] at hc
    exact hQ c hc
  | cons d x =>
    rw [hx] at hc
    refine head?_pathText value comps c ?_
    rw [hx]
    exact hc

/-- **Components that can be compiled**: the types of their parameters exist, and the names are
distinct. -/
structure Fair (comps : List Component) : Prop where
  /-- The types exist. -/
  types : ∀ p ∈ params comps, ∀ n ∈ p.typeName, (ParamType.ofName? n).isSome = true
  /-- The names are distinct. -/
  nodup : (names comps).Nodup

theorem Fair.allResolve (h : Fair comps) : Parameter.AllResolve (params comps) {} [] := by
  refine ⟨fun p hp => ?_, h.nodup, fun _ _ => List.not_mem_nil⟩
  rw [eq_bare_of_mem_params hp]
  exact Parameter.resolves_bare (h.types p hp)

end Component

/-! ### Rows -/

namespace Schema

open Component

/-- The row of components behind some literal text, and more behind them. -/
def row (front : String) : List Component → Schema → Schema
  | [], tail => if front = "" then tail else .literal front tail
  | .literal text :: rest, tail => row (front ++ ("/" ++ text)) rest tail
  | .param name typeName :: rest, tail =>
    .literal (front ++ "/") (.param (.bare name typeName) (row "" rest tail))

variable {front : String} {comps : List Component} {tail : Schema} {value : String → Value}
  {k : Nat} {P Q R : Position} {u : Trail}

theorem params_row (front : String) (comps : List Component) (tail : Schema) :
    (row front comps tail).params = Component.params comps ++ tail.params := by
  induction comps generalizing front with
  | nil =>
    rw [row]
    split <;> rfl
  | cons comp rest ih =>
    cases comp with
    | literal text => exact ih _
    | param name typeName => exact congrArg (Parameter.bare name typeName :: ·) (ih "")

/-- All parameters of a row are plain if those behind it are. -/
theorem isPlain_row (h : ∀ p ∈ tail.params, p.IsPlain {}) :
    ∀ p ∈ (row front comps tail).params, p.IsPlain {} := by
  intro p hp
  rw [params_row] at hp
  rcases List.mem_append.mp hp with hp | hp
  · rw [eq_bare_of_mem_params hp]
    exact Parameter.isPlain_bare p.name p.typeName
  · exact h p hp

/-- At the end of a text there is no way through a row with components. -/
theorem ways_row_eq_nil (hne : comps ≠ []) (hP : P.rest = []) :
    (row front comps tail).ways {} k P = [] := by
  have hword {text : String} (htext : text ≠ "") (rest : Schema) :
      (literal text rest).ways {} k P = [] := by
    have hnil : text.toList.isPrefixOf P.rest = false := by
      rw [hP]
      cases hx : text.toList with
      | nil => exact absurd (String.toList_eq_nil_iff.mp hx) htext
      | cons c x => rfl
    rw [ways, Expr.ways, hnil]
    rfl
  have hslash (front text : String) : front ++ ("/" ++ text) ≠ "" := by
    intro heq
    have hlength := congrArg String.length heq
    simp only [String.length_append] at hlength
    have hone : "/".length = 1 := rfl
    have hzero : "".length = 0 := rfl
    omega
  -- the row begins with literal text, and that begins with a slash
  induction comps generalizing front with
  | nil => exact absurd rfl hne
  | cons comp rest ih =>
    cases comp with
    | literal text =>
      cases rest with
      | nil =>
        rw [row, row, if_neg (hslash front text)]
        exact hword (hslash front text) tail
      | cons comp rest => exact ih (List.cons_ne_nil comp rest)
    | param name typeName =>
      have hne : front ++ "/" ≠ "" := hslash front ""
      exact hword hne _

/-- The capture of a bare parameter goes first to the end of the text of its value. -/
theorem goesFirst_bare {name : String} {typeName : Option String} {v : Value}
    (h : Holds (Parameter.typeOf typeName) v) (hP : P.Reads (textOf v).toList Q)
    (hQ : AtBreak Q) : GoesFirst ((Parameter.bare name typeName).ways {} k P)
      [.opened (captureName k) P.rest, .closed (captureName k) Q.rest] Q := by
  have hfirst := (h.goesFirst hP hQ).capture (captureName k)
  rw [← Parameter.expr_bare name typeName] at hfirst
  exact hfirst

/-- **A row captures** the texts of the values of its parameters, and nothing else. -/
structure Captures (value : String → Value) (comps : List Component) (k : Nat) (t : Trail) :
    Prop where
  /-- The captures are the texts of the values. -/
  texts : t.texts k (names comps).length = (names comps).map fun n => some (textOf (value n))
  /-- There are no other captures. -/
  omits : ∀ i, i < k ∨ k + (names comps).length ≤ i → t.Omits (captureName i)

/-- The capture of a parameter stands in front of those of the row behind it. -/
theorem Captures.cons_param {name : String} {typeName : Option String} {t : Trail}
    (h : Captures value comps (k + 1) t) (hvalue : P.Reads (textOf (value name)).toList Q)
    (hsingle : ∀ i, i ≠ k → Trail.Omits (captureName i)
      [.opened (captureName k) P.rest, .closed (captureName k) Q.rest]) :
    Captures value (.param name typeName :: comps) k
      ([.opened (captureName k) P.rest, .closed (captureName k) Q.rest] ++ t) := by
  have hlength : (names (.param name typeName :: comps)).length = 1 + (names comps).length :=
    Nat.add_comm _ 1
  refine ⟨?_, fun i hi => ?_⟩
  · rw [hlength]
    refine (texts_trails (fun i hi _ => hsingle i (by omega))
      (fun i _ hi => h.omits i (Or.inl hi))).trans ?_
    rw [texts_capture hvalue, h.texts, String.ofList_toList]
    rfl
  · rw [hlength] at hi
    exact (hsingle i (by omega)).append (h.omits i (by omega))

/-- The text of a row that begins with a parameter. -/
theorem toList_pathText_param (front : String) (value : String → Value) (name : String)
    (typeName : Option String) (rest : List Component) :
    (front ++ pathText value (.param name typeName :: rest)).toList =
      (front ++ "/").toList ++ ((textOf (value name)).toList ++ (pathText value rest).toList) := by
  simp only [pathText, String.toList_append, List.append_assoc]

/-- **A row goes first to the end of its text**, and captures the texts of the values. -/
theorem goesFirst_row (hP : P.Reads (front ++ pathText value comps).toList R)
    (hvalues : ∀ p ∈ Component.params comps, Holds (Parameter.typeOf p.typeName) (value p.name))
    (hR : AtBreak R) (htail : GoesFirst (tail.ways {} (k + (names comps).length) R) u Q) :
    ∃ t, GoesFirst ((row front comps tail).ways {} k P) (t ++ u) Q ∧ Captures value comps k t := by
  induction comps generalizing front k P with
  | nil =>
    refine ⟨[], ?_, rfl, fun i _ => Trail.omits_nil _⟩
    rw [pathText, String.append_empty] at hP
    rw [row]
    split
    · rename_i hfront
      subst hfront
      obtain rfl := Position.reads_nil_iff.mp hP
      exact htail
    · exact (goesFirst_word hP).extend htail
  | cons comp rest ih =>
    cases comp with
    | literal text =>
      have htext : front ++ pathText value (.literal text :: rest) =
          front ++ ("/" ++ text) ++ pathText value rest := by
        simp only [pathText, String.append_assoc]
      rw [htext] at hP
      obtain ⟨t, hfirst, htexts, homits⟩ := ih hP hvalues htail
      exact ⟨t, hfirst, htexts, homits⟩
    | param name typeName =>
      rw [toList_pathText_param] at hP
      obtain ⟨P₁, hslash, hP⟩ := Position.reads_append_iff.mp hP
      obtain ⟨P₂, hvalue, hrest⟩ := Position.reads_append_iff.mp hP
      have hlength : (names (.param name typeName :: rest)).length = 1 + (names rest).length :=
        Nat.add_comm _ 1
      rw [hlength, ← Nat.add_assoc] at htail
      obtain ⟨t, hfirst, hcaptures⟩ := ih (by rwa [String.empty_append])
        (fun p hp => hvalues p (List.mem_cons_of_mem _ hp)) htail
      -- the value ends where the row behind it begins, and that is at a break
      have hcapture : GoesFirst ((Parameter.bare name typeName).ways {} k P₁) _ P₂ :=
        goesFirst_bare (hvalues (.bare name typeName) List.mem_cons_self) hvalue
          (atBreak_of_reads hrest hR)
      refine ⟨_, ?_, hcaptures.cons_param hvalue fun i hi =>
        (Parameter.isPlain_bare name typeName).trail_omits (List.mem_of_head? hcapture) hi⟩
      rw [List.append_assoc]
      exact (goesFirst_word hslash).extend (hcapture.extend hfirst)

end Schema

end UrlRouting

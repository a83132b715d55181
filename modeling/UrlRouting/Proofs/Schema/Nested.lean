import UrlRouting.Proofs.Matching.Values
import UrlRouting.Proofs.Url.Rows

/-!
# Segments inside of each other

A schema may be cut short at its end: rows of components, each but the first one an optional segment
at the end of the row in front (`UrlRouting.Schema.nest`). If each segment has a parameter, values
for the parameters of the first few rows determine how much of the schema is written.

Writing and matching decide about the segments in opposite orders. Writing begins with the innermost
segment and leaves out what misses a value (`UrlRouting.Schema.fill_nestTail`); matching begins with
the outermost one and enters it if it can (`UrlRouting.Schema.goesFirst_nestTail`). They agree: at
the end of what was written no segment can be entered, since each begins with a slash, and in front
of that each segment that was written is entered first. So the values come back, and the parameters
of the other rows are null (`UrlRouting.Schema.match_of_fill_nest`).
-/

namespace UrlRouting

open Regex Regex.Ways

namespace Schema

open Component

/-- Segments inside of each other, each at the end of the one around it. -/
def nestTail : List (List Component) → Schema
  | [] => .done
  | level :: rest => .segment (row "" level (nestTail rest)) .done

/-- Rows of components, each but the first one a segment at the end of the one in front. -/
def nest : List (List Component) → Schema
  | [] => .done
  | level :: rest => row "" level (nestTail rest)

theorem params_nestTail (levels : List (List Component)) :
    (nestTail levels).params = Component.params levels.flatten := by
  induction levels with
  | nil => rfl
  | cons level rest ih =>
    rw [nestTail, params, params_row, ih, List.flatten_cons, Component.params_append]
    exact List.append_nil _

theorem params_nest (levels : List (List Component)) :
    (nest levels).params = Component.params levels.flatten := by
  cases levels with
  | nil => rfl
  | cons level rest =>
    rw [nest, params_row, params_nestTail, List.flatten_cons, Component.params_append]

section Nest

variable {level : List Component} {levels present absent : List (List Component)}
  {value : String → Value} {k : Nat} {P Q : Position}

theorem isPlain_nestTail (levels : List (List Component)) :
    ∀ p ∈ (nestTail levels).params, p.IsPlain {} := by
  intro p hp
  rw [params_nestTail] at hp
  rw [eq_bare_of_mem_params hp]
  exact Parameter.isPlain_bare p.name p.typeName

/-! ### Matching -/

/-- At the end of a text, segments are left out. -/
theorem goesFirst_absent (hlevels : ∀ level ∈ levels, level ≠ []) (hP : P.rest = []) :
    GoesFirst ((nestTail levels).ways {} k P) [] P := by
  cases levels with
  | nil => exact goesFirst_stay P
  | cons level rest =>
    rw [nestTail, ways, ways_row_eq_nil (hlevels level List.mem_cons_self) hP]
    exact (goesFirst_stay P).extend (goesFirst_stay P)

/-- **A row goes first to the end of a text** if what is behind it does. -/
theorem goesFirst_level {tail : Schema} {rest : String} {texts : List (Option String)}
    (htail : ∀ p ∈ tail.params, p.IsPlain {})
    (hvalues : ∀ p ∈ Component.params level, Holds (Parameter.typeOf p.typeName) (value p.name))
    (hrest : ∀ R : Position, R.Reads rest.toList Q → AtBreak R ∧
      ∃ u, GoesFirst (tail.ways {} (k + (names level).length) R) u Q ∧
        u.texts (k + (names level).length) tail.params.length = texts)
    (hP : P.Reads (pathText value level ++ rest).toList Q) :
    ∃ t, GoesFirst ((row "" level tail).ways {} k P) t Q ∧
      t.texts k (row "" level tail).params.length =
        (names level).map (fun n => some (textOf (value n))) ++ texts := by
  rw [String.toList_append] at hP
  obtain ⟨R, hlevel, hR⟩ := Position.reads_append_iff.mp hP
  obtain ⟨hbreak, u, hfirst, htexts⟩ := hrest R hR
  have hlevel : P.Reads ("" ++ pathText value level).toList R := by rwa [String.empty_append]
  obtain ⟨t, hrow, htexts', homits⟩ := goesFirst_row hlevel hvalues hbreak hfirst
  refine ⟨t ++ u, hrow, ?_⟩
  have hu : ∀ i, i < k + (names level).length → u.Omits (captureName i) :=
    fun i hi => trail_omits htail (List.mem_of_head? hfirst) (Or.inl hi)
  rw [params_row, List.length_append, ← length_names,
    texts_trails (fun i hi _ => homits i (Or.inr hi)) (fun i _ hi => hu i hi), htexts', htexts]

/-- **Segments that were written are entered**, and those that were not are left out. -/
theorem goesFirst_nest (hP : P.Reads (pathText value (level :: present).flatten).toList Q)
    (hQ : Q.rest = [])
    (hvalues : ∀ p ∈ Component.params (level :: present).flatten,
      Holds (Parameter.typeOf p.typeName) (value p.name))
    (habsent : ∀ level ∈ absent, level ≠ []) :
    ∃ t, GoesFirst ((nest (level :: (present ++ absent))).ways {} k P) t Q ∧
      t.texts k (nest (level :: (present ++ absent))).params.length =
        (names (level :: present).flatten).map (fun n => some (textOf (value n))) ++
          List.replicate (names absent.flatten).length none := by
  have hend : AtBreak Q := fun c hc => by
    rw [hQ] at hc
    cases hc
  induction present generalizing level k P with
  | nil =>
    rw [List.flatten_cons, pathText_append] at hP
    rw [List.flatten_cons, Component.params_append] at hvalues
    rw [List.flatten_cons, names_append, List.map_append, List.append_assoc]
    refine goesFirst_level (isPlain_nestTail _) (fun p hp => hvalues p (List.mem_append_left _ hp))
      (fun R hR => ?_) hP
    obtain rfl := Position.reads_nil_iff.mp hR
    refine ⟨hend, [], goesFirst_absent habsent hQ, ?_⟩
    rw [texts_nil, List.nil_append, params_nestTail, length_names]
    rfl
  | cons next present ih =>
    rw [List.flatten_cons, pathText_append] at hP
    rw [List.flatten_cons, Component.params_append] at hvalues
    rw [List.flatten_cons, names_append, List.map_append, List.append_assoc]
    refine goesFirst_level (isPlain_nestTail _) (fun p hp => hvalues p (List.mem_append_left _ hp))
      (fun R hR => ⟨atBreak_of_reads hR hend, ?_⟩) hP
    -- the segment of the next level is entered first, and left out only if that fails
    obtain ⟨t, hnext, htexts⟩ := ih hR fun p hp => hvalues p (List.mem_append_right _ hp)
    refine ⟨t, ?_, ?_⟩
    · have hsegment := (hnext.append (stay R)).extend (goesFirst_stay Q)
      rw [List.append_nil] at hsegment
      exact hsegment
    · rw [← htexts, params_nestTail, params_nest]
      rfl

/-! ### Writing -/

variable {ctx : FillContext} {required : Bool} {params : Params}

theorem prefix_level {tail : List (List Component)}
    (h : (Component.params (level :: tail).flatten).map (·.spec {}) <+: ctx.specs.drop k) :
    (Component.params level).map (·.spec {}) <+: ctx.specs.drop k ∧
      (Component.params tail.flatten).map (·.spec {}) <+:
        ctx.specs.drop (k + (names level).length) := by
  rw [List.flatten_cons, Component.params_append, List.map_append] at h
  have hsplit := prefix_append h
  rwa [List.length_map, ← length_names] at hsplit

/-- The names of a row and of the segments behind it are different ones. -/
theorem names_level {tail : List (List Component)} (h : (names (level :: tail).flatten).Nodup) :
    (names tail.flatten).Nodup ∧ ∀ n ∈ names level, n ∉ names tail.flatten := by
  rw [List.flatten_cons, names_append] at h
  obtain ⟨-, hrest, hdisjoint⟩ := List.nodup_append.mp h
  exact ⟨hrest, fun n hn hmem => hdisjoint n hn n hmem rfl⟩

/-- A segment takes the names of its row and of the segments behind it. -/
theorem get?_left {tail : List (List Component)} {left : Params}
    (hframe : ∀ n ∉ names tail.flatten, left.get? n = params.get? n) :
    ∀ n ∉ names (level :: tail).flatten,
      (left.eraseAll (names level).reverse).get? n = params.get? n := by
  intro n hn
  rw [List.flatten_cons, names_append] at hn
  rw [Params.get?_eraseAll fun hmem => hn (List.mem_append_left _ (List.mem_reverse.mp hmem))]
  exact hframe n fun hmem => hn (List.mem_append_right _ hmem)

/-- A segment at the end is written unless something is missing in it. -/
theorem fill_last {inner : Template} {text : String} {left : Params} {used : List String}
    {missing : Bool} (h : inner.fill ctx false params = .ok ⟨text, left, used, missing⟩) :
    (Template.segment inner .done).fill ctx required params =
      .ok ⟨if missing then "" else text, left.eraseAll used, [], false⟩ := by
  refine (Template.fill_segment rfl h).trans ?_
  rw [String.append_empty]
  rfl

/-- **Segments without values are left out**, and the values of other names are kept. -/
theorem fill_absent (hspecs : (Component.params levels.flatten).map (·.spec {}) <+: ctx.specs.drop k)
    (hlevels : ∀ level ∈ levels, names level ≠ []) (hnodup : (names levels.flatten).Nodup)
    (hvalues : ∀ n ∈ names levels.flatten, params.get? n = none ∧ ctx.output n = none) :
    ∃ left, ((nestTail levels).template k).fill ctx required params = .ok ⟨"", left, [], false⟩ ∧
      ∀ n ∉ names levels.flatten, left.get? n = params.get? n := by
  induction levels generalizing k required with
  | nil => exact ⟨params, rfl, fun _ _ => rfl⟩
  | cons level rest ih =>
    obtain ⟨hlevel, hrest⟩ := prefix_level hspecs
    obtain ⟨hnodup, hdisjoint⟩ := names_level hnodup
    rw [List.flatten_cons, names_append] at hvalues
    obtain ⟨left, hfill, hframe⟩ := @ih _ false hrest
      (fun l hl => hlevels l (List.mem_cons_of_mem _ hl)) hnodup
      fun n hn => hvalues n (List.mem_append_right _ hn)
    have hnone : ∀ p ∈ Component.params level,
        left.get? p.name = none ∧ ctx.output p.name = none := by
      intro p hp
      have hname : p.name ∈ names level := List.mem_map_of_mem hp
      obtain ⟨hget, houtput⟩ := hvalues p.name (List.mem_append_left _ hname)
      exact ⟨(hframe p.name (hdisjoint p.name hname)).trans hget, houtput⟩
    obtain ⟨text, hrow⟩ : ∃ text, ((row "" level (nestTail rest)).template k).fill ctx false params =
        .ok ⟨text, left, [] ++ (names level).reverse, !(names level).isEmpty⟩ :=
      fill_row_absent hlevel hnone hfill rfl
    have hmissing : (!(names level).isEmpty) = true := by
      rw [List.isEmpty_eq_false_iff.mpr (hlevels level List.mem_cons_self)]
      rfl
    rw [hmissing] at hrow
    exact ⟨_, fill_last hrow, get?_left hframe⟩

/-- **A row with values is written** in front of what is behind it. -/
theorem fill_level {tail : List (List Component)} {text : String} {left : Params}
    (hspecs : (Component.params (level :: tail).flatten).map (·.spec {}) <+: ctx.specs.drop k)
    (hnodup : (names (level :: tail).flatten).Nodup)
    (hvalues : ∀ p ∈ Component.params level,
      Holds (Parameter.typeOf p.typeName) (value p.name) ∧
        ∃ d, params.get? p.name = some d ∧ Sends (ctx.output p.name) d (value p.name))
    (htail : ((nestTail tail).template (k + (names level).length)).fill ctx required params =
      .ok ⟨text, left, [], false⟩)
    (hframe : ∀ n ∉ names tail.flatten, left.get? n = params.get? n) :
    ((nest (level :: tail)).template k).fill ctx required params =
      .ok ⟨pathText value level ++ text, left, (names level).reverse, false⟩ := by
  obtain ⟨hlevel, -⟩ := prefix_level hspecs
  obtain ⟨-, hdisjoint⟩ := names_level hnodup
  have hsome : ∀ p ∈ Component.params level,
      Holds (Parameter.typeOf p.typeName) (value p.name) ∧
        ∃ d, left.get? p.name = some d ∧ Sends (ctx.output p.name) d (value p.name) := by
    intro p hp
    obtain ⟨hholds, d, hd, hsends⟩ := hvalues p hp
    have hname : p.name ∈ names level := List.mem_map_of_mem hp
    exact ⟨hholds, d, (hframe p.name (hdisjoint p.name hname)).trans hd, hsends⟩
  have hrow : ((row "" level (nestTail tail)).template k).fill ctx required params =
      .ok ⟨"" ++ pathText value level ++ text, left, [] ++ (names level).reverse, false⟩ :=
    fill_row hlevel hsome htail rfl
  rwa [String.empty_append] at hrow

/-- **Rows with values are written**, segments without values are left out, and the values of other
names are kept. -/
theorem fill_nest
    (hspecs : (Component.params (level :: (present ++ absent)).flatten).map (·.spec {}) <+:
      ctx.specs.drop k)
    (hlevels : ∀ level ∈ absent, names level ≠ [])
    (hnodup : (names (level :: (present ++ absent)).flatten).Nodup)
    (hvalues : ∀ p ∈ Component.params (level :: present).flatten,
      Holds (Parameter.typeOf p.typeName) (value p.name) ∧
        ∃ d, params.get? p.name = some d ∧ Sends (ctx.output p.name) d (value p.name))
    (habsent : ∀ n ∈ names absent.flatten, params.get? n = none ∧ ctx.output n = none) :
    ∃ left, ((nest (level :: (present ++ absent))).template k).fill ctx required params =
        .ok ⟨pathText value (level :: present).flatten, left, (names level).reverse, false⟩ ∧
      ∀ n ∉ names (present ++ absent).flatten, left.get? n = params.get? n := by
  induction present generalizing level k required with
  | nil =>
    rw [List.flatten_cons, Component.params_append] at hvalues
    rw [List.flatten_cons, pathText_append]
    obtain ⟨left, hfill, hframe⟩ := fill_absent (prefix_level hspecs).2 hlevels
      (names_level hnodup).1 habsent
    exact ⟨left, fill_level hspecs hnodup
      (fun p hp => hvalues p (List.mem_append_left _ hp)) hfill hframe, hframe⟩
  | cons next present ih =>
    rw [List.flatten_cons, Component.params_append] at hvalues
    rw [List.flatten_cons, pathText_append]
    obtain ⟨left, hfill, hframe⟩ := @ih next _ false (prefix_level hspecs).2
      (names_level hnodup).1 fun p hp => hvalues p (List.mem_append_right _ hp)
    have hframe : ∀ n ∉ names (next :: (present ++ absent)).flatten, _ = _ := get?_left hframe
    exact ⟨_, fill_level hspecs hnodup (fun p hp => hvalues p (List.mem_append_left _ hp))
      (fill_last hfill) hframe, hframe⟩

end Nest

end Schema

/-! ### Round trips -/

open Component Schema

section RoundTrip

variable {first : List Component} {present absent : List (List Component)} {supplied : Params}
  {value : String → Value} {t : Tree} {id : NodeId}

/-- Without binders, the text of the rows with values is what is written at a node. -/
theorem Tree.fillSchema_nest (route : String)
    (hnodup : (names (first :: (present ++ absent)).flatten).Nodup)
    (hlevels : ∀ level ∈ absent, names level ≠ [])
    (hbinders : ∀ n ∈ names (first :: (present ++ absent)).flatten, t.binderOut? id n = none)
    (hsupplied : ∀ p ∈ Component.params (first :: present).flatten,
      supplied.get? p.name = some (value p.name) ∧
        Holds (Parameter.typeOf p.typeName) (value p.name))
    (habsent : ∀ n ∈ names absent.flatten, supplied.get? n = none) :
    ∃ left, t.fillSchema id route ((nest (first :: (present ++ absent))).compiled {}) supplied =
      .ok (pathText value (first :: present).flatten, left) := by
  have hall : names (first :: (present ++ absent)).flatten =
      names (first :: present).flatten ++ names absent.flatten := by
    rw [← List.cons_append, List.flatten_append, names_append]
  rw [hall] at hbinders
  -- each value is sent as it is, and is not dropped in front of that
  have hvalues : ∀ p ∈ Component.params (first :: present).flatten,
      Holds (Parameter.typeOf p.typeName) (value p.name) ∧
        ∃ d, supplied.given.get? p.name = some d ∧
          Sends (t.binderOut? id p.name) d (value p.name) := by
    intro p hp
    obtain ⟨hv, hholds⟩ := hsupplied p hp
    refine ⟨hholds, _, Params.get?_given hv hholds.isVoid_eq_false, ?_⟩
    rw [hbinders p.name (List.mem_append_left _ (List.mem_map_of_mem hp))]
    rfl
  have hnone : ∀ n ∈ names absent.flatten,
      supplied.given.get? n = none ∧ t.binderOut? id n = none := fun n hn =>
    ⟨Params.get?_given_eq_none (habsent n hn), hbinders n (List.mem_append_right _ hn)⟩
  have hspecs : (Component.params (first :: (present ++ absent)).flatten).map (·.spec {}) <+:
      (t.fillContext id route (nest (first :: (present ++ absent)))).specs.drop 0 := by
    rw [Tree.fillContext, specs, params_nest]
    exact List.prefix_refl _
  obtain ⟨left, hfill, -⟩ := fill_nest hspecs hlevels hnodup hvalues hnone
  exact ⟨_, Tree.fillSchema_eq hfill⟩

/-- **The match of what was written** gives the values back. -/
theorem clean?_nest (hnodup : (names (first :: (present ++ absent)).flatten).Nodup)
    (hlevels : ∀ level ∈ absent, names level ≠ [])
    (hvalues : ∀ p ∈ Component.params (first :: present).flatten,
      Holds (Parameter.typeOf p.typeName) (value p.name))
    (habsent : ∀ n ∈ names absent.flatten, value n = .null) :
    ∃ w, ((nest (first :: (present ++ absent))).ways {} 0
        (.start (pathText value (first :: present).flatten).toList)).find? Way.isWhole = some w ∧
      ((nest (first :: (present ++ absent))).compiled {}).clean? w.trail =
        some ⟨(names (first :: (present ++ absent)).flatten).map fun n => (n, value n)⟩ := by
  have hne : ∀ level ∈ absent, level ≠ [] := fun level hl hnil => hlevels level hl (hnil ▸ rfl)
  obtain ⟨u, hfirst, htexts⟩ := goesFirst_nest (k := 0)
    (Position.reads_all (pathText value (first :: present).flatten).toList) rfl hvalues hne
  refine ⟨_, hfirst.find?_isWhole rfl, ?_⟩
  have hall : (first :: (present ++ absent)).flatten = (first :: present).flatten ++ absent.flatten := by
    rw [← List.cons_append, List.flatten_append]
  have hspecs : ((nest (first :: (present ++ absent))).compiled {}).params =
      (Component.params (first :: (present ++ absent)).flatten).map (·.spec {}) := by
    rw [compiled, specs, params_nest]
  have hnames : ((Component.params (first :: (present ++ absent)).flatten).map (·.spec {})).map
      (·.name) = names (first :: (present ++ absent)).flatten := List.map_map ..
  rw [CompiledSchema.clean?, hspecs, cleanFrom?_eq_some value]
  · rw [List.map_map, names, List.map_map]
    rfl
  · rw [List.length_map, ← params_nest, htexts, params_nest, hall, Component.params_append,
      List.map_append]
    exact List.rel_append (clean_components hvalues) (clean_absent habsent)
  · rwa [hnames]
  · exact fun _ _ => List.not_mem_nil

end RoundTrip

/-- **A path written for the first rows of a schema is matched, and gives the values back.** The
values are any ones of the types of the parameters of these rows; what the other rows declare is
null. -/
theorem CompiledSchema.match_of_fill_nest {text route : String} {first : List Component}
    {present absent : List (List Component)} {supplied : Params} {t : Tree} {id : NodeId}
    (hs : Schema.ofText text = .ok (nest (first :: (present ++ absent))))
    (hfair : Fair (first :: (present ++ absent)).flatten)
    (hlevels : ∀ level ∈ present ++ absent, names level ≠ [])
    (hbinders : ∀ n ∈ names (first :: (present ++ absent)).flatten, t.binderOut? id n = none)
    (hsupplied : ∀ p ∈ Component.params (first :: present).flatten,
      ∃ v, supplied.get? p.name = some v ∧ Holds (Parameter.typeOf p.typeName) v)
    (habsent : ∀ n ∈ names absent.flatten, supplied.get? n = none) :
    ∃ c e path left, ofText text {} = .ok c ∧ t.fillSchema id route c supplied = .ok (path, left) ∧
      Syntax.read? c.whole = some e ∧
      Regex.compile? c.whole =
        (if e.depth ≤ Syntax.depthLimit ∧ e.expr.fits then some ⟨c.whole, e.expr⟩ else none) ∧
      ∃ trail, Regex.captures? ⟨c.whole, e.expr⟩ path = some trail ∧
        c.clean? trail = some
          ⟨(names (first :: (present ++ absent)).flatten).map fun n => (n, supplied.orNull n)⟩ := by
  have hparams := params_nest (first :: (present ++ absent))
  have hc := ofText_eq_ok_iff.mpr ⟨_, hs, hparams ▸ hfair.allResolve, rfl⟩
  have hplain : ∀ p ∈ (nest (first :: (present ++ absent))).params, p.IsPlain {} := by
    rw [hparams]
    intro p hp
    rw [eq_bare_of_mem_params hp]
    exact Parameter.isPlain_bare p.name p.typeName
  obtain ⟨e, hread, hcompile, hfind⟩ := whole_read? hplain
  have habove : ∀ level ∈ absent, names level ≠ [] :=
    fun level hl => hlevels level (List.mem_append_right _ hl)
  have hvalues : ∀ p ∈ Component.params (first :: present).flatten,
      supplied.get? p.name = some (supplied.orNull p.name) ∧
        Holds (Parameter.typeOf p.typeName) (supplied.orNull p.name) := by
    intro p hp
    obtain ⟨v, hv, hholds⟩ := hsupplied p hp
    rw [Params.orNull_of_get? hv]
    exact ⟨hv, hholds⟩
  obtain ⟨left, hfill⟩ := Tree.fillSchema_nest route hfair.nodup habove hbinders hvalues habsent
  obtain ⟨w, hw, hclean⟩ := clean?_nest hfair.nodup habove (fun p hp => (hvalues p hp).2)
    fun n hn => Params.orNull_eq_null (habsent n hn)
  refine ⟨_, e, _, left, hc, hfill, hread, hcompile, w.trail, ?_, hclean⟩
  rw [Regex.captures?, hfind, hw, Option.map_some]

/-- A page that is not given is left out of the path, and comes back as null. -/
theorem CompiledSchema.match_of_fill_nest_page :
    ∃ c e path left, ofText "/u/\x7bid#int\x7d[/\x7bpage\x7d]" {} = .ok c ∧
      Tree.empty.fillSchema Tree.root "user" c ⟨[("id", .int 5)]⟩ = .ok (path, left) ∧
      Syntax.read? c.whole = some e ∧
      Regex.compile? c.whole =
        (if e.depth ≤ Syntax.depthLimit ∧ e.expr.fits then some ⟨c.whole, e.expr⟩ else none) ∧
      ∃ trail, Regex.captures? ⟨c.whole, e.expr⟩ path = some trail ∧
        c.clean? trail = some ⟨[("id", .int 5), ("page", .null)]⟩ := by
  have hs : Schema.ofText "/u/\x7bid#int\x7d[/\x7bpage\x7d]" = .ok (nest
      ([.literal "u", .param "id" (some "int")] :: ([] ++ [[.param "page" none]]))) := rfl
  have hfair : Fair ([.literal "u", .param "id" (some "int")] ::
      ([] ++ [[.param "page" none]])).flatten := by
    refine ⟨fun p hp n hn => ?_, by decide⟩
    rcases List.mem_pair.mp hp with rfl | rfl
    · obtain rfl := Option.some.inj hn
      decide
    · cases hn
  refine match_of_fill_nest hs hfair (by decide) (fun _ _ => rfl) (fun p hp => ?_) (by decide)
  obtain rfl := List.mem_singleton.mp hp
  exact ⟨.int 5, rfl, show Decimal.isSigned64 5 = true by decide⟩

/-! ### Too many segments -/

theorem Schema.nesting_row (front : String) (comps : List Component) (tail : Schema) :
    (row front comps tail).nesting = tail.nesting := by
  induction comps generalizing front with
  | nil =>
    rw [row]
    split <;> rfl
  | cons comp rest ih =>
    cases comp with
    | literal text => exact ih _
    | param name typeName => exact ih _

theorem Schema.nesting_nestTail (levels : List (List Component)) :
    (nestTail levels).nesting = levels.length := by
  induction levels with
  | nil => rfl
  | cons level rest ih =>
    rw [nestTail, nesting, nesting_row, ih, List.length_cons]
    exact Nat.max_eq_left (Nat.zero_le _)

theorem Schema.nesting_nest (first : List Component) (levels : List (List Component)) :
    (nest (first :: levels)).nesting = levels.length := by
  rw [nest, nesting_row, nesting_nestTail]

/-- So many optional pages, each behind the one in front, as rows of components. -/
def pages (n : Nat) : List (List Component) :=
  (List.range n).map fun i => [.param (toString i) none]

theorem params_pages (n : Nat) :
    Component.params (pages n).flatten = (List.range n).map fun i => .bare (toString i) none := by
  rw [pages, ← List.flatMap_def, Component.params, List.filterMap_flatMap]
  exact List.flatMap_pure_eq_map ..

theorem fair_pages (n : Nat) : Fair ([.literal "x"] :: pages n).flatten := by
  have hparams : Component.params ([.literal "x"] :: pages n).flatten =
      (List.range n).map fun i => .bare (toString i) none := params_pages n
  refine ⟨fun p hp type htype => ?_, ?_⟩
  · rw [hparams] at hp
    obtain ⟨i, -, rfl⟩ := List.mem_map.mp hp
    cases htype
  · rw [names, hparams, List.map_map]
    exact List.nodup_range.map fun i j h => Nat.repr_injective h

/-- The text of a schema with so many optional pages. -/
def pagesText (n : Nat) : String :=
  String.ofList ("/x".toList ++
    (List.range n).flatMap (fun i => "[/\x7b".toList ++ (toString i).toList ++ ['\x7d']) ++
    List.replicate n ']')

/-- The limits are met: 126 segments with a parameter each, one inside of the other, are read and
compiled, but no path is matched with them, not even one that leaves them all out. -/
theorem CompiledSchema.nest_has_no_expression : ∃ c,
    Schema.ofText (pagesText 126) = .ok (nest ([.literal "x"] :: pages 126)) ∧
      Fair ([.literal "x"] :: pages 126).flatten ∧ (∀ level ∈ pages 126, names level ≠ []) ∧
      ofText (pagesText 126) {} = .ok c ∧ Regex.compile? c.whole = none := by
  have hs : Schema.ofText (pagesText 126) = .ok (nest ([.literal "x"] :: pages 126)) := by
    have hread : Schema.Reading.start.readAll (pagesText 126).toList =
        .ok (nest ([.literal "x"] :: pages 126)) := by
      rw [pagesText, String.toList_ofList]
      decide +kernel
    rw [Schema.ofText, hread]
  have hfair := fair_pages 126
  have hparams := params_nest ([.literal "x"] :: pages 126)
  refine ⟨_, hs, hfair, fun level hlevel => ?_,
    ofText_eq_ok_iff.mpr ⟨_, hs, hparams ▸ hfair.allResolve, rfl⟩, ?_⟩
  · obtain ⟨i, -, rfl⟩ := List.mem_map.mp hlevel
    exact List.cons_ne_nil _ _
  · refine Schema.compile?_of_nesting (fun p hp => ?_) ?_
    · rw [hparams] at hp
      rw [eq_bare_of_mem_params hp]
      exact (Parameter.isPlain_bare p.name p.typeName).standsAlone
    · rw [nesting_nest, pages, List.length_map, List.length_range]
      decide

end UrlRouting

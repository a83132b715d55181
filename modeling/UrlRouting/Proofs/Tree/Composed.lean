import Mathlib
import UrlRouting.Proofs.Matching.Groups
import UrlRouting.Proofs.Regex.Space
import UrlRouting.Proofs.Router.Reachable

/-!
# The expression of a node

A node that can be matched has one expression, put together from the patterns of all its parameters.
Each pattern has been tried by itself: validators when the schema was compiled, and the default
pattern with the options. So the expression of the node is well formed, unless a pattern closes its
group, and then the only thing that can go wrong, the limits of the engine aside, is that two of its
groups have one name (`UrlRouting.Tree.compileNode_composed`).

The captures of the node have names of their own, so this takes a pattern that names a group. The
default pattern may do so, and then a schema with two parameters does not compile
(`UrlRouting.Tree.composed_twice_named`).
-/

namespace UrlRouting

open Regex

/-! ### The names of groups -/

/-- The names of the groups in a pattern. -/
def Pattern.names (pattern : String) : List String :=
  match Syntax.read? pattern with
  | some s => s.names
  | none => []

/-- The names of the groups in the expression of a schema: its captures, and behind each of them the
groups in its pattern. -/
def CompiledSchema.groupNames (c : CompiledSchema) : List String :=
  c.params.zipIdx.flatMap fun e => captureName e.2 :: Pattern.names e.1.pattern

/-- The names of the groups in the expression of a node: those of its schema, and that of the rest of
the path if the node is a group. -/
def Node.groupNames (n : Node) (c : CompiledSchema) : List String :=
  c.groupNames ++ if n.isGroup then [restName] else []

theorem Schema.allNames_eq_flatMap (s : Schema) (ctx : CompileContext) (k : Nat) :
    s.allNames ctx k =
      ((s.specs ctx).zipIdx k).flatMap fun e => captureName e.2 :: Pattern.names e.1.pattern := by
  induction s generalizing k with
  | done => rfl
  | literal text rest ih => exact ih k
  | param p rest ih =>
    rw [allNames, ih]
    rfl
  | segment inner rest ih1 ih2 =>
    have hspecs : (segment inner rest).specs ctx = inner.specs ctx ++ rest.specs ctx :=
      List.map_append
    have hlength : (inner.specs ctx).length = inner.params.length := List.length_map ..
    rw [allNames, ih1, ih2, hspecs, List.zipIdx_append, List.flatMap_append, hlength]

/-- With patterns that name no group, all names are those of the captures. -/
theorem CompiledSchema.groupNames_eq {c : CompiledSchema}
    (h : ∀ spec ∈ c.params, Pattern.names spec.pattern = []) :
    c.groupNames = Schema.captureNames 0 c.params.length := by
  have hall (specs : List ParamSpec) (k : Nat)
      (h : ∀ spec ∈ specs, Pattern.names spec.pattern = []) :
      (specs.zipIdx k).flatMap (fun e => captureName e.2 :: Pattern.names e.1.pattern) =
        Schema.captureNames k specs.length := by
    induction specs generalizing k with
    | nil => rfl
    | cons spec specs ih =>
      obtain ⟨hspec, hspecs⟩ := List.forall_mem_cons.mp h
      rw [List.zipIdx_cons, List.flatMap_cons, hspec, ih (k + 1) hspecs]
      exact (Schema.captureNames_append k 1 _).trans
        (congrArg (Schema.captureNames k) (Nat.add_comm 1 _))
  exact hall c.params 0 h

/-- No capture of a parameter has the name of the rest of a path. -/
theorem captureName_ne_restName (i : Nat) : captureName i ≠ restName := by
  intro h
  have htoList := congrArg String.toList h
  rw [captureName, String.toList_append] at htoList
  cases htoList

/-- **The names of groups are distinct** if no pattern names a group. -/
theorem Node.nodup_groupNames {n : Node} {c : CompiledSchema}
    (h : ∀ spec ∈ c.params, Pattern.names spec.pattern = []) : (n.groupNames c).Nodup := by
  rw [groupNames, CompiledSchema.groupNames_eq h]
  refine List.nodup_append.mpr ⟨Schema.nodup_captureNames 0 _, by split <;> simp, ?_⟩
  intro name hname other hother
  obtain ⟨i, -, rfl⟩ := List.mem_map.mp hname
  split at hother
  · rw [List.mem_singleton.mp hother]
    exact captureName_ne_restName i
  · cases hother

/-! ### Patterns that stand alone -/

/-- The default pattern of options that make sense compiles when it is anchored. -/
theorem Options.compile?_defaultPattern {o : Options} (h : o.invalid? = none) :
    (Regex.compile? (anchored o.defaultPattern)).isSome := by
  unfold invalid? at h
  split_ifs at h with hempty hnone
  exact Option.isSome_iff_ne_none.mpr (mt Option.isNone_iff_eq_none.mpr hnone)

/-- Options with a default pattern that compiles make sense. -/
theorem Options.invalid?_of_compile? {pattern : String} (hne : pattern.isEmpty = false)
    (h : (Regex.compile? (anchored pattern)).isSome) :
    ({ defaultPattern := pattern } : Options).invalid? = none := by
  have hsome : (Regex.compile? (anchored pattern)).isNone = false := by
    rw [← Option.not_isSome, h]
    rfl
  have hseparator : ".".isEmpty = false := by decide
  simp [invalid?, hne, hsome, hseparator]

/-- **A pattern that was tried and does not close its group** is an expression by itself. -/
theorem Parameter.standsAlone_of_inside {p : Parameter} {ctx : CompileContext}
    (hresolves : p.Resolves ctx)
    (hdefault : (Regex.compile? (anchored ctx.defaultPattern)).isSome)
    (hinside : ¬ClosesGroup (p.pattern ctx)) : p.StandsAlone ctx := by
  have htried : (Regex.compile? (anchored (p.pattern ctx))).isSome := by
    rw [pattern]
    cases hsource : p.source? ctx with
    | none => exact hdefault
    | some source =>
      have hvalidator := hresolves.validator source hsource
      rwa [Validator.ofSource?, Option.isSome_map] at hvalidator
  obtain ⟨r, hr⟩ := Option.isSome_iff_exists.mp htried
  obtain ⟨s, hs, -⟩ := Option.bind_eq_some_iff.mp hr
  refine (read?_isSome_iff_of_anchored ?_).mpr hinside
  rw [(Option.filter_eq_some_iff.mp hs).1]
  rfl

/-! ### Nodes -/

/-- **The expression of a node is well formed** if the patterns of its parameters are expressions by
themselves. -/
theorem Node.read?_matcherSource {n : Node} {s : Schema} {ctx : CompileContext} {source : String}
    (h : ∀ p ∈ s.params, p.StandsAlone ctx)
    (hsource : n.matcherSource? (s.compiled ctx).fragment = some source) :
    ∃ e, Syntax.read? source = some e ∧ e.names = n.groupNames (s.compiled ctx) := by
  have hnames : (s.compiled ctx).groupNames = s.allNames ctx 0 := (s.allNames_eq_flatMap ctx 0).symm
  unfold matcherSource? at hsource
  rw [groupNames, isGroup, hnames]
  split at hsource
  · rename_i hkind
    obtain rfl := Option.some.inj hsource
    obtain ⟨e, hread, hall, -⟩ := Schema.whole_traces h
    refine ⟨e, hread, ?_⟩
    rw [hkind, hall]
    exact (List.append_nil _).symm
  · rename_i hkind
    obtain rfl := Option.some.inj hsource
    obtain ⟨e, hread, hall, -⟩ := Schema.group_read? h
    refine ⟨e, hread, ?_⟩
    rw [hkind, hall]
    rfl
  · cases hsource

namespace Tree

/-- **The expression of a node compiles** whenever its schema does, if no pattern closes its group:
it is well formed, its groups are the captures of the parameters, those in their patterns and the
rest of the path, and it is refused only if two of them have one name or it goes beyond a limit of
the engine. The names are distinct if no pattern names a group. -/
theorem compileNode_composed {t : Tree} {options : Options} {id : NodeId} {n : Node}
    {c : CompiledSchema} (hoptions : options.invalid? = none) (hn : t.get? id = some n)
    (hc : CompiledSchema.ofText n.schema (t.compileContext id options.defaultPattern) = .ok c)
    (hinside : ∀ spec ∈ c.params, ¬ClosesGroup spec.pattern) :
    (n.matcherSource? c.fragment = none →
      t.compileNode options.defaultPattern id = .ok ⟨c, none⟩) ∧
    (∀ source, n.matcherSource? c.fragment = some source →
      ∃ s, Syntax.read? source = some s ∧ s.names = n.groupNames c ∧
        t.compileNode options.defaultPattern id =
          if (n.groupNames c).Nodup ∧ s.depth ≤ Syntax.depthLimit ∧ s.expr.fits then
            .ok ⟨c, some ⟨source, s.expr⟩⟩
          else .error ⟨n.schema, .invalidPattern ""⟩) ∧
    ((∀ spec ∈ c.params, Pattern.names spec.pattern = []) → (n.groupNames c).Nodup) := by
  have hcompile : t.compileNode options.defaultPattern id =
      n.compile (t.compileContext id options.defaultPattern) := by
    rw [compileNode, hn]
  refine ⟨fun hnone => ?_, fun source hsource => ?_, Node.nodup_groupNames⟩
  · rw [hcompile, Node.compile, hc]
    dsimp only
    rw [hnone]
  · obtain ⟨s, -, hresolve, rfl⟩ := CompiledSchema.ofText_eq_ok_iff.mp hc
    have halone : ∀ p ∈ s.params, p.StandsAlone (t.compileContext id options.defaultPattern) :=
      fun p hp => Parameter.standsAlone_of_inside (hresolve.each p hp)
        (Options.compile?_defaultPattern hoptions)
        (hinside (p.spec _) (List.mem_map_of_mem hp))
    obtain ⟨e, hread, hnames⟩ := Node.read?_matcherSource halone hsource
    refine ⟨e, hread, hnames, ?_⟩
    rw [hcompile, Node.compile, hc]
    dsimp only
    rw [hsource]
    dsimp only
    rw [compile?_eq_ite hread, hnames]
    split_ifs <;> rfl

/-- The text of a schema with two parameters. -/
def pairText : String := "/\x7ba\x7d/\x7bb\x7d"

/-- The schema with two parameters, of which nothing is said. -/
def pairSchema (pattern : String) : CompiledSchema where
  fragment := "/(?P<p0>" ++ pattern ++ ")/(?P<p1>" ++ pattern ++ ")"
  params := [⟨"a", none, none, none, pattern⟩, ⟨"b", none, none, none, pattern⟩]
  template := .literal "/" (.param 0 false (.literal "/" (.param 1 false .done)))

/-- The tree of a router with a route that has two parameters. -/
def pairTree (options : Options) : Tree :=
  (Router.ofRoute options pairText (.identifier "")).tree

set_option maxRecDepth 4000 in
/-- With the usual default pattern, two parameters have an expression together. -/
theorem compileNode_composed_pair : ∃ r,
    CompiledSchema.ofText pairText ((pairTree {}).compileContext 1 "[^/]+") =
      .ok (pairSchema "[^/]+") ∧
    (pairTree {}).compileNode "[^/]+" 1 = .ok ⟨pairSchema "[^/]+", some r⟩ := by
  have hvalid : ({ defaultPattern := "[^/]+" } : Options).invalid? = none :=
    Options.invalid?_of_compile? (by decide) (by cbv)
  have hc : CompiledSchema.ofText pairText ((pairTree {}).compileContext 1 "[^/]+") =
      .ok (pairSchema "[^/]+") := by cbv
  have hpatterns : ∀ spec ∈ (pairSchema "[^/]+").params, spec.pattern = "[^/]+" := by
    simp [pairSchema]
  have hinside : ∀ spec ∈ (pairSchema "[^/]+").params, ¬ClosesGroup spec.pattern :=
    fun spec hspec => hpatterns spec hspec ▸ not_closesGroup (by decide)
  have hn : (pairTree {}).get? 1 =
      some ⟨1, some root, pairText, none, .route none (.identifier ""), {}⟩ := rfl
  obtain ⟨-, hmatchable, hnodup⟩ := compileNode_composed hvalid hn hc hinside
  obtain ⟨s, hread, hnames, hcompile⟩ := hmatchable _ rfl
  have hfits : (Regex.compile? ("^" ++ (pairSchema "[^/]+").fragment ++ "$")).isSome := by cbv
  rw [compile?_eq_ite hread, hnames] at hfits
  split_ifs at hfits with hall
  · exact ⟨_, hc, hcompile.trans (if_pos hall)⟩
  · cases hfits

set_option maxRecDepth 4000 in
/-- A default pattern that names a group makes sense by itself, and a schema with two parameters has
that name twice. The schema compiles, and the expression of the node does not. -/
theorem composed_twice_named :
    let o : Options := { defaultPattern := "(?P<x>[^/]+)" }
    o.invalid? = none ∧
      CompiledSchema.ofText pairText ((pairTree o).compileContext 1 o.defaultPattern) =
        .ok (pairSchema "(?P<x>[^/]+)") ∧
      (pairTree o).compileNode o.defaultPattern 1 = .error ⟨pairText, .invalidPattern ""⟩ := by
  refine ⟨Options.invalid?_of_compile? (by decide) (by cbv), ?_, ?_⟩
  · cbv
  · cbv

end Tree

end UrlRouting

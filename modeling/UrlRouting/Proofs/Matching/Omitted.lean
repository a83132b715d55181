import Mathlib
import UrlRouting.Proofs.Matching.Nesting
import UrlRouting.Proofs.Matching.Order
import UrlRouting.Proofs.Url.Omission

/-!
# Schemas of which nothing is written

A schema of which nothing is written consists of optional parameters and segments
(`UrlRouting.Schema.Writes.isOmissible`), and so there is a way through it that reads nothing
(`UrlRouting.Schema.stay_mem_ways`), wherever it begins. On this way no parameter has captured
anything, so that the values are the defaults.

That there is such a way does not make it the preferred one. On the empty path it is, for nothing
else can be read. On a slash, a group may prefer to take it and hand on nothing, or leave it to what
stands in the group; a route has to take it. So a row of such nodes matches the empty path
(`UrlRouting.Tree.Leads.matches_empty`), but it matches a slash only if some node on it takes the
slash, and does so with values that fit (`UrlRouting.Tree.Leads.matches_slash_iff`).
-/

namespace UrlRouting

open Regex Regex.Ways

/-! ### Optional rows -/

/-- **May everything in a row be left out?** -/
def Schema.isOmissible : Schema → Bool
  | .done => true
  | .literal text rest => text.isEmpty && rest.isOmissible
  | .param p rest => p.optional && rest.isOmissible
  | .segment _ rest => rest.isOmissible

/-- **A row of which nothing is written** consists of what may be left out. -/
theorem Schema.Writes.isOmissible {s : Schema} {ctx : FillContext} {cctx : CompileContext}
    {params : Params} {row : Filled} {a : Account} (h : s.Writes ctx cctx true params row a)
    (hempty : row.text = "") : s.isOmissible = true := by
  obtain ⟨required, hr⟩ : ∃ required, true = required := ⟨true, rfl⟩
  rw [hr] at h
  induction h with
  | done => rfl
  | literal _ ih =>
    obtain ⟨rfl, hrest⟩ := String.append_eq_empty_iff.mp hempty
    exact ih hrest hr
  | @param p rest _ _ row _ emission behind becomes ih =>
    subst hr
    rw [Filled.text_put] at hempty
    obtain ⟨hwritten, hrest⟩ := String.append_eq_empty_iff.mp hempty
    refine Bool.and_eq_true_iff.mpr ⟨?_, ih hrest rfl⟩
    cases becomes with
    | passed missing => exact absurd (behind.missing_eq_false.symm.trans missing) Bool.false_ne_true
    | @resolved text _ _ _ emit =>
      obtain ⟨hmissing, htext⟩ := ParamSpec.emit_eq_ok emit
      by_contra hoptional
      -- what is not optional is written with its text, and without a text nothing can be written
      have hoptional : p.optional = false := Bool.eq_false_iff.mpr hoptional
      rw [if_neg fun h => absurd (hoptional.symm.trans h.1) Bool.false_ne_true, hwritten] at htext
      obtain rfl := hmissing.mpr ⟨hoptional, htext.symm⟩
      exact ParamSpec.emit_required emit
  | segment _ _ ih _ => exact ih (String.append_eq_empty_iff.mp hempty).2 hr

namespace Schema

variable {ctx : CompileContext} {s : Schema}

/-- **What may be left out can be passed** without reading anything. -/
theorem stay_mem_ways (h : s.isOmissible = true) (ctx : CompileContext) (k : Nat) (P : Position) :
    ⟨[], P⟩ ∈ s.ways ctx k P := by
  have hbehind {ws : List Way} {next : Position → List Way} (hws : ⟨[], P⟩ ∈ ws)
      (hnext : ⟨[], P⟩ ∈ next P) : ⟨[], P⟩ ∈ extend ws next :=
    mem_extend_iff.mpr ⟨_, hws, _, hnext, rfl⟩
  induction s generalizing k with
  | done => exact List.mem_singleton_self _
  | literal text rest ih =>
    obtain ⟨htext, hrest⟩ := Bool.and_eq_true_iff.mp h
    obtain rfl := String.isEmpty_iff.mp htext
    exact hbehind (List.mem_of_head? (goesFirst_word (Position.Reads.refl P))) (ih hrest k)
  | param p rest ih =>
    obtain ⟨hoptional, hrest⟩ := Bool.and_eq_true_iff.mp h
    exact hbehind (Parameter.mem_ways_iff.mpr (.inr ⟨hoptional, rfl⟩)) (ih hrest (k + 1))
  | segment inner rest _ ih =>
    exact hbehind (List.mem_append_right _ (List.mem_singleton_self _)) (ih h _)

/-- Ways of a schema take their notes between their ends. -/
theorem staysWithin_ways (s : Schema) (ctx : CompileContext) (k : Nat) (P : Position) :
    ∀ w ∈ s.ways ctx k P, w.StaysWithin P := by
  induction s generalizing k P with
  | done => exact List.forall_mem_singleton.mpr (composes_staysWithin.stay P)
  | literal text rest ih => exact composes_staysWithin.extend (Expr.staysWithin_ways _ P) (ih k)
  | param p rest ih =>
    refine composes_staysWithin.extend (fun w hw => ?_) (ih (k + 1))
    rcases Parameter.mem_ways_iff.mp hw with hw | ⟨-, rfl⟩
    · exact Expr.staysWithin_ways _ P w hw
    · exact composes_staysWithin.stay P
  | segment inner rest ih1 ih2 =>
    refine composes_staysWithin.extend (List.forall_mem_append.mpr ⟨ih1 k P, ?_⟩) (ih2 _)
    exact List.forall_mem_singleton.mpr (composes_staysWithin.stay P)

/-- A way from the start of a path leaves an end of it. -/
theorem rest_isSuffix {path : List Char} {v : Way} (hv : v ∈ s.ways ctx 0 (.start path)) :
    v.stop.rest <:+ path := by
  obtain ⟨x, hreads⟩ := s.leads_ways ctx 0 _ v hv
  exact ⟨x, hreads.1.symm⟩

end Schema

/-! ### Defaults -/

/-- **The defaults of a schema fit their types.** -/
def CompiledSchema.DefaultsFit (c : CompiledSchema) : Prop :=
  ∀ spec ∈ c.params, ∀ type text, spec.type = some type → spec.default = some text →
    (type.coerce? text).isSome

/-- **Where nothing is captured, the values are the defaults**, and fit if these do. -/
theorem CompiledSchema.DefaultsFit.fits {c : CompiledSchema} {trail : Trail} (h : c.DefaultsFit)
    (hempty : ∀ i text, trail.text? (captureName i) = some text → text = "") : c.Fits trail := by
  intro i spec hspec type text htype htext
  refine h spec (List.mem_of_getElem? hspec) type text htype ?_
  rw [← htext, ParamSpec.textOf?]
  cases hcaptured : trail.text? (captureName i) with
  | none => rfl
  | some captured =>
    obtain rfl := hempty i captured hcaptured
    rfl

/-! ### Nodes -/

/-- **A node that lets paths through**: it matches the empty path, and if it is a group, then it
matches a slash as well, and takes it or leaves it to what stands in the group. -/
structure View.LetsThrough (view : View) (n : Node) : Prop where
  /-- It matches the empty path, and hands on nothing. -/
  empty : ∃ hit : Hit, hit.node = n ∧ hit.text = "" ∧ hit.IsValid view ∧
    (n.isGroup = true → hit.handed = "")
  /-- A group matches a slash, and if it leaves it, then its values fit. -/
  slash : n.isGroup = true → ∃ compiled trail, view n.id = .ok compiled ∧
    compiled.matcher.bind (·.captures? "/") = some trail ∧
      (trail.text? restName = some "" ∨
        trail.text? restName = some "/" ∧ compiled.schema.Fits trail)

namespace Node

variable {view : View} {n : Node} {ctx : CompileContext} {c : CompiledNode} {s : Schema}

/-- The text of a parameter does not depend on what a group leaves. -/
theorem text?_restNotes (t : Trail) (rest : List Char) (i : Nat) :
    Trail.text? (captureName i) (t ++ restNotes rest) = t.text? (captureName i) :=
  (List.cons.inj (texts_restNotes t rest i 1)).1

theorem not_isGroup_of_isRoute (h : n.isRoute = true) : n.isGroup = false := by
  rw [isRoute] at h
  rw [isGroup]
  split at h
  · next hk => rw [hk]
  · cases h

section Omissible

variable (hc : n.compile ctx = .ok c) (hs : Schema.ofText n.schema = .ok s)
  (halone : ∀ spec ∈ c.schema.params, (Syntax.read? spec.pattern).isSome)

include hc hs halone

theorem standsAlone : ∀ p ∈ s.params, p.StandsAlone ctx := fun p hp =>
  halone (p.spec ctx) (schema_of_compile hs hc ▸ List.mem_map_of_mem hp)

variable (homissible : s.isOmissible = true)

include homissible

/-- A group of which nothing is written matches every path of one line. -/
theorem exists_captures?_group (hgroup : n.isGroup = true) (path : String)
    (hline : '\n' ∉ path.toList) : ∃ v ∈ s.ways ctx 0 (.start path.toList),
      c.matcher.bind (·.captures? path) = some (v.trail ++ restNotes v.stop.rest) := by
  have hfirst : ((s.ways ctx 0 (.start path.toList)).find? (·.LeavesLine)).isSome :=
    List.find?_isSome.mpr ⟨_, Schema.stay_mem_ways homissible ctx 0 _, decide_eq_true hline⟩
  obtain ⟨v, hv⟩ := Option.isSome_iff_exists.mp hfirst
  refine ⟨v, List.mem_of_find?_eq_some hv, ?_⟩
  rw [captures?_group hgroup hc hs (standsAlone hc hs halone), hv, Option.map_some]

/-- A route of which nothing is written matches the empty path. -/
theorem exists_captures?_route (hroute : n.isRoute = true) :
    ∃ v ∈ s.ways ctx 0 (.start []), c.matcher.bind (·.captures? "") = some v.trail := by
  obtain ⟨-, hcaptures⟩ := captures?_route hroute hc hs (standsAlone hc hs halone)
  have hfirst : ((s.ways ctx 0 (.start [])).find? Way.isWhole).isSome :=
    List.find?_isSome.mpr ⟨_, Schema.stay_mem_ways homissible ctx 0 _, rfl⟩
  obtain ⟨v, hv⟩ := Option.isSome_iff_exists.mp hfirst
  refine ⟨v, List.mem_of_find?_eq_some hv, (hcaptures "").trans ?_⟩
  rw [String.toList_empty, hv, Option.map_some]

/-- **A group or route of which nothing is written lets paths through**, if its patterns are
expressions by themselves and its defaults fit. -/
theorem letsThrough (hkind : n.isGroup = true ∨ n.isRoute = true) (hview : view n.id = n.compile ctx)
    (hdefaults : c.schema.DefaultsFit) : view.LetsThrough n := by
  have hcompiled := hview.trans hc
  -- on a way that reads nothing, the values are the defaults
  have hempty {P : Position} {v : Way} (hv : v ∈ s.ways ctx 0 P) (hstays : v.stop.rest = P.rest)
      (i : Nat) (text : String) (htext : v.trail.text? (captureName i) = some text) : text = "" :=
    (s.staysWithin_ways ctx 0 P v hv).eq_empty hstays htext
  have hfits {P : Position} {v : Way} (hv : v ∈ s.ways ctx 0 P) (hstays : v.stop.rest = P.rest) :
      c.schema.Fits (v.trail ++ restNotes v.stop.rest) :=
    hdefaults.fits fun i text htext => hempty hv hstays i text (by rwa [text?_restNotes] at htext)
  refine ⟨?_, fun hgroup => ?_⟩
  · rcases hkind with hgroup | hroute
    · obtain ⟨v, hv, hcaptures⟩ :=
        exists_captures?_group hc hs halone homissible hgroup "" List.not_mem_nil
      have hrest : v.stop.rest = [] := List.suffix_nil.mp (Schema.rest_isSuffix hv)
      refine ⟨⟨n, c, "", _⟩, rfl, rfl, ⟨hcompiled, hcaptures, hfits hv hrest⟩, fun _ => ?_⟩
      rw [Hit.handed, text?_restName, hrest]
      rfl
    · obtain ⟨v, hv, hcaptures⟩ := exists_captures?_route hc hs halone homissible hroute
      have hrest : v.stop.rest = [] := List.suffix_nil.mp (Schema.rest_isSuffix hv)
      refine ⟨⟨n, c, "", v.trail⟩, rfl, rfl,
        ⟨hcompiled, hcaptures, hdefaults.fits (hempty hv hrest)⟩, fun hgroup => ?_⟩
      rw [not_isGroup_of_isRoute hroute] at hgroup
      cases hgroup
  · obtain ⟨v, hv, hcaptures⟩ :=
      exists_captures?_group hc hs halone homissible hgroup "/" (by decide)
    refine ⟨c, _, hcompiled, hcaptures, ?_⟩
    rw [text?_restName]
    rcases List.suffix_cons_iff.mp (Schema.rest_isSuffix hv) with hrest | hrest
    · exact .inr ⟨by rw [hrest]; rfl, hfits hv hrest⟩
    · rw [List.suffix_nil.mp hrest]
      exact .inl rfl

end Omissible

end Node

/-! ### Rows of nodes -/

/-- **A node takes a slash**: it matches it, with values that fit, and if it is a group, then it
leaves nothing. -/
def View.TakesSlash (view : View) (n : Node) : Prop :=
  ∃ hit : Hit, hit.node = n ∧ hit.text = "/" ∧ hit.IsValid view ∧
    (n.isGroup = true → hit.handed = "")

/-- **A group leaves a slash** to what stands in it. -/
def View.LeavesSlash (view : View) (g : Node) : Prop :=
  ∃ compiled trail, view g.id = .ok compiled ∧
    compiled.matcher.bind (·.captures? "/") = some trail ∧ trail.text? restName = some "/"

namespace View

variable {view : View} {g : Node} {nodes : List Node} {compiled : CompiledNode} {trail : Trail}

theorem leavesSlash_iff (hcompiled : view g.id = .ok compiled)
    (htrail : compiled.matcher.bind (·.captures? "/") = some trail) :
    view.LeavesSlash g ↔ trail.text? restName = some "/" := by
  constructor
  · rintro ⟨compiled', trail', hcompiled', htrail', hslash⟩
    obtain rfl : compiled' = compiled := Except.ok.inj (hcompiled'.symm.trans hcompiled)
    obtain rfl : trail' = trail := Option.some.inj (htrail'.symm.trans htrail)
    exact hslash
  · exact fun h => ⟨compiled, trail, hcompiled, htrail, h⟩

theorem takesSlash_iff (isGroup : g.isGroup = true) (hcompiled : view g.id = .ok compiled)
    (htrail : compiled.matcher.bind (·.captures? "/") = some trail) :
    view.TakesSlash g ↔
      compiled.schema.Fits trail ∧ (trail.text? restName).getD "" = "" := by
  constructor
  · rintro ⟨hit, rfl, htext, hvalid, hhanded⟩
    obtain ⟨rfl, rfl⟩ := hvalid.eq hcompiled (htext ▸ htrail)
    exact ⟨hvalid.fits, hhanded isGroup⟩
  · rintro ⟨hfits, hrest⟩
    exact ⟨⟨g, compiled, "/", trail⟩, rfl, rfl, ⟨hcompiled, htrail, hfits⟩, fun _ => hrest⟩

/-- **A group that lets paths through takes a slash or leaves it**, and never both: it has read the
slash, or else nothing. -/
theorem matches_slash_cons (hg : view.LetsThrough g) (isGroup : g.isGroup = true)
    (hne : nodes ≠ []) (hempty : view.Matches nodes "") :
    view.Matches (g :: nodes) "/" ↔
      view.TakesSlash g ∨ view.LeavesSlash g ∧ view.Matches nodes "/" := by
  obtain ⟨compiled, trail, hcompiled, htrail, hrest⟩ := hg.slash isGroup
  rw [Tree.matches_behind hcompiled htrail hne, takesSlash_iff isGroup hcompiled htrail,
    leavesSlash_iff hcompiled htrail]
  rcases hrest with hrest | ⟨hrest, hfits⟩
  · simp [hrest, hempty]
  · simp [hrest, hfits]

/-- The first of some groups takes a slash, or leaves it to the others. -/
theorem exists_takesSlash_cons :
    (∃ outer n inner, g :: nodes = outer ++ n :: inner ∧ (∀ g' ∈ outer, view.LeavesSlash g') ∧
        view.TakesSlash n) ↔
      view.TakesSlash g ∨ view.LeavesSlash g ∧
        ∃ outer n inner, nodes = outer ++ n :: inner ∧ (∀ g' ∈ outer, view.LeavesSlash g') ∧
          view.TakesSlash n := by
  constructor
  · rintro ⟨outer, n, inner, heq, houter, hn⟩
    cases outer with
    | nil =>
      obtain rfl := (List.cons.inj heq).1
      exact .inl hn
    | cons g' outer =>
      obtain ⟨rfl, rfl⟩ := List.cons.inj heq
      obtain ⟨hg, houter⟩ := List.forall_mem_cons.mp houter
      exact .inr ⟨hg, outer, n, inner, rfl, houter, hn⟩
  · rintro (hg | ⟨hg, outer, n, inner, rfl, houter, hn⟩)
    · exact ⟨[], g, nodes, rfl, List.forall_mem_nil _, hg⟩
    · exact ⟨g :: outer, n, inner, rfl, List.forall_mem_cons.mpr ⟨hg, houter⟩, hn⟩

end View

namespace Tree

variable {t : Tree} {view : View} {method : Option Method} {place : NodeId} {nodes : List Node}

/-- **Nodes that let paths through match the empty path.** -/
theorem Leads.matches_empty (h : t.Leads method place nodes)
    (hnodes : ∀ n ∈ nodes, view.LetsThrough n) : view.Matches nodes "" := by
  induction h with
  | route mem isIn kind answers =>
    obtain ⟨hit, hnode, htext, hvalid, -⟩ := (hnodes _ List.mem_cons_self).empty
    exact View.matches_singleton.mpr ⟨hit, hnode, htext, hvalid⟩
  | group mem isIn isGroup inside ih =>
    obtain ⟨hg, hnodes⟩ := List.forall_mem_cons.mp hnodes
    obtain ⟨hit, hnode, htext, hvalid, hhanded⟩ := hg.empty
    refine (View.matches_cons inside.ne_nil).mpr ⟨hit, hnode, htext, hvalid, ?_⟩
    rw [hhanded isGroup]
    exact ih hnodes

/-- **Nodes that let paths through match a slash** just if one of them takes it, and the groups
around that one leave it. -/
theorem Leads.matches_slash_iff (h : t.Leads method place nodes)
    (hnodes : ∀ n ∈ nodes, view.LetsThrough n) : view.Matches nodes "/" ↔
      ∃ outer n inner, nodes = outer ++ n :: inner ∧ (∀ g ∈ outer, view.LeavesSlash g) ∧
        view.TakesSlash n := by
  induction h with
  | @route place n own action mem isIn kind answers =>
    -- a route leaves nothing, so that to match a slash is to take it
    have hgroup : n.isGroup = true → False := by
      rw [Node.isGroup, kind]
      exact Bool.false_ne_true
    rw [View.matches_singleton, View.exists_takesSlash_cons]
    constructor
    · rintro ⟨hit, hnode, htext, hvalid⟩
      exact .inl ⟨hit, hnode, htext, hvalid, fun h => (hgroup h).elim⟩
    · rintro (⟨hit, hnode, htext, hvalid, -⟩ | ⟨-, outer, m, inner, heq, -⟩)
      · exact ⟨hit, hnode, htext, hvalid⟩
      · exact absurd heq.symm (List.append_ne_nil_of_right_ne_nil _ (List.cons_ne_nil _ _))
  | @group place g nodes mem isIn isGroup inside ih =>
    obtain ⟨hg, hinside⟩ := List.forall_mem_cons.mp hnodes
    rw [View.matches_slash_cons hg isGroup inside.ne_nil (inside.matches_empty hinside),
      ih hinside, View.exists_takesSlash_cons]

end Tree

end UrlRouting

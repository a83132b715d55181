import UrlRouting.Proofs.Matching.Groups
import UrlRouting.Proofs.Matching.Layers
import UrlRouting.Proofs.Schema.Joining
import UrlRouting.Proofs.Schema.Renumbering

/-!
# A route in a group, and the two schemas in one

A group commits itself: of the ways of its schema it takes the first one that leaves one line, and
what stands in the group has to make do with that line. An expression for both schemas commits
itself to nothing, and tries the other ways of the group as well, as long as the route does not
match.

So the two can differ, but only by this. If the route matches what the group leaves of a path of one
line, then the first way of both schemas goes through the first way of the group, and the parameters
have the same texts (`UrlRouting.Schema.find?_isWhole_joined`), and with them the same values
(`UrlRouting.clean?_joined`).
-/

namespace UrlRouting

open Regex Regex.Ways

/-! ### Ways -/

namespace Schema

variable {ctx : CompileContext} {g c s : Schema} {path : List Char} {v u : Way}

/-- In a path of one line, every way leaves one line. -/
theorem leavesLine_of_mem_ways (hline : '\n' ∉ path) (hv : v ∈ g.ways ctx 0 (.start path)) :
    v.LeavesLine := by
  obtain ⟨x, hreads⟩ := leads_ways g ctx 0 _ v hv
  have hpath : path = x ++ v.stop.rest := hreads.1
  exact fun hmem => hline (hpath ▸ List.mem_append_right x hmem)

/-- **The first way of two schemas in one**, if the second one matches what the first way of the
first one leaves: it goes on from there, and it says of the parameters of both what they say by
themselves. -/
theorem find?_isWhole_joined (hnodup : (g.allNames ctx 0 ++ c.allNames ctx g.params.length).Nodup)
    (hown : (c.allNames ctx 0).Nodup) (hhead : ∃ head rest, head ≠ "" ∧ c = .literal head rest)
    (hways : ∀ k P, s.ways ctx k P = extend (g.ways ctx k P) (c.ways ctx (k + g.params.length)))
    (hv : (g.ways ctx 0 (.start path)).head? = some v)
    (hu : (c.ways ctx 0 (.start v.stop.rest)).find? Way.isWhole = some u) :
    ∃ w, (s.ways ctx 0 (.start path)).find? Way.isWhole = some w ∧
      w.trail.texts 0 g.params.length = v.trail.texts 0 g.params.length ∧
      w.trail.texts g.params.length c.params.length = u.trail.texts 0 c.params.length := by
  obtain ⟨head, rest, hne, rfl⟩ := hhead
  have hplace : (Position.start v.stop.rest).rest = v.stop.rest := rfl
  rw [ways_literal_congr hne hplace rest 0] at hu
  have hroute : ((literal head rest).allNames ctx (0 + g.params.length)).Nodup := by
    rw [Nat.zero_add]
    exact (List.nodup_append.mp hnodup).2.1
  -- the same way, under the numbers that the parameters have behind those of the first schema
  obtain ⟨-, hnone⟩ | ⟨t, u', ht, hu', halike⟩ :=
    find?_isWhole_of_saysAlike (ways_renumber hroute hown v.stop)
  · rw [hu] at hnone
    cases hnone
  · obtain rfl := Option.some.inj (hu.symm.trans hu')
    obtain ⟨vs, hvs⟩ : ∃ vs, g.ways ctx 0 (.start path) = v :: vs := List.head?_eq_some_iff.mp hv
    have hbehind : Trail.texts (v.trail ++ t.trail) 0 (g.params.length + rest.params.length) = _ :=
      (owns_ways g ctx 0 _).texts_behind (owns_ways (literal head rest) ctx _ v.stop)
        (by rwa [Nat.zero_add]) (List.mem_of_head? hv) (List.mem_of_find?_eq_some ht)
    rw [texts_append, Nat.zero_add] at hbehind
    obtain ⟨hgroup, hown⟩ := List.append_inj hbehind (by simp [Trail.texts])
    refine ⟨behind v.trail t, ?_, hgroup, ?_⟩
    · rw [hways, find?_isWhole_extend, hvs, List.findSome?_cons, ht]
      rfl
    · rw [Nat.zero_add] at halike
      exact hown.trans halike.texts

end Schema

/-! ### Values -/

section Clean

variable {trail trail' : Trail} {specs more : List ParamSpec} {k l : Nat} {params : Params}

/-- **Only the texts matter** for the clean values of parameters. -/
theorem cleanFrom?_congr (h : trail.texts k specs.length = trail'.texts l specs.length)
    (params : Params) : cleanFrom? trail specs k params = cleanFrom? trail' specs l params := by
  induction specs generalizing k l params with
  | nil => rfl
  | cons spec specs ih =>
    rw [List.length_cons, texts_succ, texts_succ] at h
    obtain ⟨hfirst, hrest⟩ := List.cons.inj h
    have htext : spec.textOf? k trail = spec.textOf? l trail' := by
      rw [ParamSpec.textOf?, ParamSpec.textOf?, hfirst]
    rw [cleanFrom?, cleanFrom?, htext]
    split
    · exact ih hrest _
    · rfl

theorem cleanFrom?_append (trail : Trail) (specs more : List ParamSpec) (k : Nat) (params : Params) :
    cleanFrom? trail (specs ++ more) k params =
      (cleanFrom? trail specs k params).bind (cleanFrom? trail more (k + specs.length)) := by
  induction specs generalizing k params with
  | nil => rfl
  | cons spec specs ih =>
    rw [List.cons_append, cleanFrom?, cleanFrom?]
    cases spec.clean? (spec.textOf? k trail) with
    | none => rfl
    | some v =>
      dsimp only
      rw [ih, List.length_cons, Nat.add_assoc, Nat.add_comm 1]

end Clean

/-- **The clean values of two schemas in one** are those of both, as a map: there are some just if
both have some, and then each name has the value that it has by itself. -/
theorem clean?_joined {g c s : CompiledSchema} {group route joined : Trail}
    (hparams : s.params = g.params ++ c.params) (hnodup : (s.params.map (·.name)).Nodup)
    (hgroup : joined.texts 0 g.params.length = group.texts 0 g.params.length)
    (hroute : joined.texts g.params.length c.params.length = route.texts 0 c.params.length) :
    ((s.clean? joined).isSome ↔ (g.clean? group).isSome ∧ (c.clean? route).isSome) ∧
      ∀ outer inner all, g.clean? group = some outer → c.clean? route = some inner →
        s.clean? joined = some all → ∀ name, (inner.underlay outer).get? name = all.get? name := by
  have hjoined : s.clean? joined = (g.clean? group).bind (cleanFrom? route c.params 0) := by
    rw [CompiledSchema.clean?, hparams, cleanFrom?_append, cleanFrom?_congr hgroup]
    refine congrArg _ (funext fun params => ?_)
    rw [Nat.zero_add]
    exact cleanFrom?_congr hroute params
  rw [hparams, List.map_append] at hnodup
  obtain ⟨hg, hc, hdisjoint⟩ := List.nodup_append.mp hnodup
  constructor
  · rw [hjoined]
    cases g.clean? group with
    | none => simp
    | some outer =>
      -- whether there are values does not depend on those that are there already
      have hsome : (cleanFrom? route c.params 0 outer).isSome ↔ (c.clean? route).isSome := by
        rw [CompiledSchema.clean?, cleanFrom?_isSome_iff, cleanFrom?_isSome_iff]
      simpa using hsome
  · intro outer inner all houter hinner hall name
    rw [hjoined, houter, Option.bind_some] at hall
    obtain ⟨hnames, -, -⟩ := cleanFrom?_values houter hg fun _ _ => List.not_mem_nil
    obtain ⟨-, hothers, hvalues⟩ := cleanFrom?_values hall hc fun n hn hmem =>
      hdisjoint n (by rwa [hnames] at hmem) n hn rfl
    obtain ⟨hnames', -, hvalues'⟩ := cleanFrom?_values hinner hc fun _ _ => List.not_mem_nil
    rw [Params.get?_underlay]
    by_cases hname : name ∈ c.params.map (·.name)
    · obtain ⟨spec, hspec, rfl⟩ := List.mem_map.mp hname
      obtain ⟨i, hi⟩ := List.mem_iff_getElem?.mp hspec
      obtain ⟨x, hx, hget⟩ := hvalues i spec hi
      obtain ⟨y, hy, hget'⟩ := hvalues' i spec hi
      obtain rfl : x = y := Option.some.inj (hx.symm.trans hy)
      rw [hget, hget', Option.some_or]
    · have hnone : inner.get? name = none :=
        Params.get?_eq_none_iff.mpr fun hmem => hname (by rwa [hnames'] at hmem)
      rw [hothers name hname, hnone, Option.none_or]

/-! ### Nodes that are routes -/

namespace Node

variable {n : Node} {ctx : CompileContext} {c : CompiledNode}

/-- A route that compiles has an expression, that of its schema between anchors. -/
theorem compile_route_eq_ok (hroute : n.isRoute = true) (h : n.compile ctx = .ok c) :
    ∃ s, Schema.ofText n.schema = .ok s ∧ Parameter.AllResolve s.params ctx [] ∧
      c.schema = s.compiled ctx ∧
      ∃ r, c.matcher = some r ∧ Regex.compile? (s.compiled ctx).whole = some r := by
  refine compile_eq_ok_of_source (fun fragment => "^" ++ fragment ++ "$") (fun fragment => ?_) h
  rw [isRoute] at hroute
  rw [matcherSource?]
  split at hroute
  · next hk => rw [hk]
  · cases hroute

/-- **What a route captures**: the first way of its schema to the end of the path. No name is given
twice. -/
theorem captures?_route (hroute : n.isRoute = true) (h : n.compile ctx = .ok c) {s : Schema}
    (hs : Schema.ofText n.schema = .ok s) (halone : ∀ p ∈ s.params, p.StandsAlone ctx) :
    (s.allNames ctx 0).Nodup ∧ ∀ path : String, c.matcher.bind (·.captures? path) =
      ((s.ways ctx 0 (.start path.toList)).find? Way.isWhole).map (·.trail) := by
  obtain ⟨s', hs', -, -, r, hr, hcompile⟩ := compile_route_eq_ok hroute h
  obtain rfl : s = s' := Except.ok.inj (hs.symm.trans hs')
  obtain ⟨t, ht, hnames, hfind⟩ := Schema.whole_traces halone
  obtain ⟨rfl, hnodup⟩ := of_compile?_eq_some ht hcompile
  refine ⟨hnames ▸ hnodup, fun path => ?_⟩
  rw [hr, Option.bind_some, Regex.captures?, hfind]

/-- The texts of parameters do not depend on what a group leaves. -/
theorem texts_restNotes (t : Trail) (rest : List Char) (k n : Nat) :
    Trail.texts (t ++ restNotes rest) k n = t.texts k n := by
  refine Schema.texts_congr fun i _ _ => Trail.text?_append_left fun note hnote hname => ?_
  have hrest : note.name = restName := by
    rcases List.mem_pair.mp hnote with rfl | rfl <;> rfl
  have hlist : (captureName i).toList.head? = restName.toList.head? := by rw [← hname, hrest]
  rw [captureName, String.toList_append] at hlist
  cases hlist

section Joined

variable {outer inner joined : Node} {o i j : CompiledNode} (houter : outer.isGroup = true)
  (hinner : inner.isRoute = true) (hjoined : joined.isRoute = true)
  (hschema : joined.schema = outer.schema ++ inner.schema)
  (hslash : inner.schema.toList.head? = some '/') (ho : outer.compile ctx = .ok o)
  (hi : inner.compile ctx = .ok i) (hj : joined.compile ctx = .ok j)

include houter hinner hjoined hschema hslash ho hi hj

/-- A route with the schemas of a group and of a route in it has the parameters of both. -/
theorem params_joined : j.schema.params = o.schema.params ++ i.schema.params := by
  obtain ⟨g, hg, -, hgo, -⟩ := compile_group_eq_ok houter ho
  obtain ⟨c, hc, -, hci, -⟩ := compile_route_eq_ok hinner hi
  obtain ⟨s, hs, -, hsj, -⟩ := compile_route_eq_ok hjoined hj
  obtain ⟨s', hs', hparams, -⟩ := Schema.ofText_append_ways ctx hg hc hslash
  obtain rfl : s' = s := Except.ok.inj (hs'.symm.trans (hschema ▸ hs))
  rw [hsj, hgo, hci]
  exact (congrArg (List.map _) hparams).trans List.map_append

/-- **A group and a route in it, and a route with both schemas.** Where the route matches what the
group leaves of a path of one line, the route with both schemas matches the path. There are clean
values for it if there are some for both, and they are the same. -/
theorem captures?_joined {path : String} {group route : Trail}
    (halone : ∀ spec ∈ j.schema.params, (Syntax.read? spec.pattern).isSome)
    (hline : '\n' ∉ path.toList) (hgroup : o.matcher.bind (·.captures? path) = some group)
    (hroute : i.matcher.bind (·.captures? ((group.text? restName).getD "")) = some route) :
    ∃ both, j.matcher.bind (·.captures? path) = some both ∧
      ((j.schema.clean? both).isSome ↔
        (o.schema.clean? group).isSome ∧ (i.schema.clean? route).isSome) ∧
      ∀ outer inner all, o.schema.clean? group = some outer → i.schema.clean? route = some inner →
        j.schema.clean? both = some all → ∀ name, (inner.underlay outer).get? name = all.get? name := by
  have hspecs := params_joined houter hinner hjoined hschema hslash ho hi hj
  obtain ⟨g, hg, -, hgo, -⟩ := compile_group_eq_ok houter ho
  obtain ⟨c, hc, -, hci, -⟩ := compile_route_eq_ok hinner hi
  obtain ⟨s, hs, hresolve, hsj, -⟩ := compile_route_eq_ok hjoined hj
  obtain ⟨s', hs', hparams, hnames, hhead, hways⟩ := Schema.ofText_append_ways ctx hg hc hslash
  obtain rfl : s' = s := Except.ok.inj (hs'.symm.trans (hschema ▸ hs))
  have halone : ∀ p ∈ g.params ++ c.params, p.StandsAlone ctx := fun p hp =>
    halone (p.spec ctx) (hsj ▸ List.mem_map_of_mem (hparams ▸ hp))
  obtain ⟨hgalone, hcalone⟩ := List.forall_mem_append.mp halone
  -- what the three expressions capture, by the ways of the schemas
  rw [captures?_group houter ho hg hgalone] at hgroup
  obtain ⟨v, hv, rfl⟩ := Option.map_eq_some_iff.mp hgroup
  obtain ⟨hown, hcaptures⟩ := captures?_route hinner hi hc hcalone
  rw [text?_restName, Option.getD_some, hcaptures, String.toList_ofList] at hroute
  obtain ⟨u, hu, rfl⟩ := Option.map_eq_some_iff.mp hroute
  obtain ⟨hall, hcaptures⟩ := captures?_route hjoined hj hs (hparams ▸ halone)
  rw [hnames, Nat.zero_add] at hall
  -- the group takes its very first way, as there is no other line
  have hfirst : (g.ways ctx 0 (.start path.toList)).head? = some v := by
    rw [← hv, ← List.head?_filter, List.filter_eq_self.mpr]
    exact fun w hw => decide_eq_true (Schema.leavesLine_of_mem_ways hline hw)
  obtain ⟨w, hw, hwg, hwc⟩ := Schema.find?_isWhole_joined hall hown hhead hways hfirst hu
  have hlength : o.schema.params.length = g.params.length ∧
      i.schema.params.length = c.params.length := by
    rw [hgo, hci]
    exact ⟨List.length_map _, List.length_map _⟩
  refine ⟨w.trail, ?_, clean?_joined hspecs ?_ ?_ ?_⟩
  · rw [hcaptures, hw]
    rfl
  · rw [hsj]
    exact (s'.names_specs ctx).symm ▸ hresolve.nodup
  · rw [hlength.1, texts_restNotes]
    exact hwg
  · rw [hlength.1, hlength.2]
    exact hwc

end Joined

end Node

end UrlRouting

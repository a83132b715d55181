import UrlRouting.Proofs.Matching.Nesting
import UrlRouting.Proofs.Url.Chains

/-!
# Matching rows along a chain

What the nodes of a chain have written, one behind the other, is taken apart again by the search.
Each group reads its own row first, since a slash or nothing follows it, and hands on what the nodes
in it have written; the route reads what is left (`UrlRouting.Tree.Leads.matchIn_rows`). The texts
of the parameters are those of the values that were written, so the clean values are these again,
and the binders turn them back into what the url was asked for with.
-/

namespace UrlRouting

open Regex Regex.Ways Component

variable {t : Tree} {view : View} {method : Option Method} {place : NodeId} {n last : Node}
  {nodes : List Node} {comps : Node → List Component} {row : List Component}
  {domain clean : String → Value} {trail : Trail} {rest : List Char}

/-- **A match that carries the values of some names**: the clean ones that stand in its path, and
the bound ones. -/
structure RouteMatch.Carries (m : RouteMatch) (path : String) (domain clean : String → Value)
    (names : List String) : Prop where
  /-- The path is the whole one. -/
  path : m.path = path
  /-- The clean values are those that stand in the path. -/
  clean : m.clean.Gives clean names
  /-- The bound values are those that actions get. -/
  params : m.params.Gives domain names

/-! ### Rows -/

/-- The parameters of a row have patterns that are expressions by themselves. -/
theorem Schema.standsAlone_row (row : List Component) :
    ∀ p ∈ (Schema.row "" row .done).params, p.StandsAlone {} := fun p hp =>
  (isPlain_row (fun _ h => absurd h List.not_mem_nil) p hp).standsAlone

/-- **A row goes first to the end of its own text**, where a slash or nothing follows. -/
theorem Schema.goesFirst_ways_row
    (hvalues : ∀ p ∈ Component.params row, Holds (Parameter.typeOf p.typeName) (clean p.name))
    (hrest : ∀ c ∈ rest.head?, c = '/') :
    ∃ u Q, GoesFirst ((Schema.row "" row .done).ways {} 0
        (.start ((pathText clean row).toList ++ rest))) u Q ∧ Q.rest = rest ∧
      u.texts 0 (names row).length = (names row).map fun n => some (textOf (clean n)) := by
  have hreads : (Position.start ((pathText clean row).toList ++ rest)).Reads
      ("" ++ pathText clean row).toList
      ((Position.start ((pathText clean row).toList ++ rest)).skip (pathText clean row).toList) := by
    rw [String.empty_append]
    exact Position.reads_skip (List.prefix_append _ _)
  have hstop : ((Position.start ((pathText clean row).toList ++ rest)).skip
      (pathText clean row).toList).rest = rest := List.drop_left
  have hdone (k : Nat) (Q : Position) : GoesFirst (Schema.done.ways {} k Q) [] Q := goesFirst_stay Q
  obtain ⟨u, hfirst, htexts, -⟩ := goesFirst_row hreads hvalues (by rwa [AtBreak, hstop])
    (hdone (0 + (names row).length) _)
  rw [List.append_nil] at hfirst
  exact ⟨u, _, hfirst, hstop, htexts⟩

namespace Node

variable {c : CompiledNode}

/-- **A route reads what its row has written**, if nothing follows. -/
theorem captures?_route_row (hroute : n.isRoute = true) (hc : n.compile {} = .ok c)
    (hs : Schema.ofText n.schema = .ok (Schema.row "" row .done))
    (hvalues : ∀ p ∈ Component.params row, Holds (Parameter.typeOf p.typeName) (clean p.name)) :
    ∃ trail, c.matcher.bind (·.captures? (pathText clean row)) = some trail ∧
      trail.texts 0 (names row).length = (names row).map fun n => some (textOf (clean n)) := by
  obtain ⟨u, Q, hfirst, hstop, htexts⟩ :=
    Schema.goesFirst_ways_row hvalues (show ∀ c ∈ [].head?, c = '/' from nofun)
  rw [List.append_nil] at hfirst
  refine ⟨u, ?_, htexts⟩
  rw [(captures?_route hroute hc hs (Schema.standsAlone_row row)).2, hfirst.find?_isWhole hstop]
  rfl

/-- **A group reads what its row has written**, and hands on what follows. -/
theorem captures?_group_row (hgroup : n.isGroup = true) (hc : n.compile {} = .ok c)
    (hs : Schema.ofText n.schema = .ok (Schema.row "" row .done))
    (hvalues : ∀ p ∈ Component.params row, Holds (Parameter.typeOf p.typeName) (clean p.name))
    {rest : String} (hrest : ∀ c ∈ rest.toList.head?, c = '/') (hline : '\n' ∉ rest.toList) :
    ∃ trail, c.matcher.bind (·.captures? (pathText clean row ++ rest)) = some trail ∧
      trail.text? restName = some rest ∧
      trail.texts 0 (names row).length = (names row).map fun n => some (textOf (clean n)) := by
  obtain ⟨u, Q, hfirst, hstop, htexts⟩ := Schema.goesFirst_ways_row hvalues hrest
  have hlines : Way.LeavesLine ⟨u, Q⟩ := by rwa [Way.LeavesLine, hstop]
  refine ⟨u ++ restNotes rest.toList, ?_, ?_, (texts_restNotes u _ 0 _).trans htexts⟩
  · rw [captures?_group hgroup hc hs (Schema.standsAlone_row row), String.toList_append,
      hfirst.find?_eq (decide_eq_true hlines), Option.map_some, hstop]
  · rw [text?_restName, String.ofList_toList]

end Node

namespace Tree

/-! ### Values -/

/-- What stands for a value in a path is turned into it. -/
theorem Exchanges.bindValue {id : NodeId} {p : Parameter} {d c : Value}
    (h : t.Exchanges id p d c) : t.bindValue id p.name c = .ok d := by
  have hreceives := h.receives
  have hnull : c.isNull = false := by
    cases c with
    | null => exact absurd h.holds.isVoid_eq_false nofun
    | _ => rfl
  rw [Tree.bindValue]
  cases hbinder : t.binderIn? id p.name with
  | none =>
    rw [hbinder] at hreceives
    exact congrArg Except.ok hreceives
  | some f =>
    rw [hbinder] at hreceives
    have hf : f c = .ok d := hreceives
    dsimp only
    rw [hnull, hf]
    rfl

/-- **The texts of a row give its values back**, the clean ones and the bound ones. -/
theorem values_row {id : NodeId} (hnodup : (names row).Nodup)
    (hvalues : ∀ p ∈ Component.params row, t.Exchanges id p (domain p.name) (clean p.name))
    (htexts : trail.texts 0 (names row).length =
      (names row).map fun n => some (textOf (clean n))) :
    ∃ cleaned bound, ((Schema.row "" row .done).compiled {}).clean? trail = some cleaned ∧
      t.bindParams id cleaned = .ok bound ∧ cleaned.Gives clean (names row) ∧
      bound.Gives domain (names row) := by
  have hspecs : ((Schema.row "" row .done).compiled {}).params =
      (Component.params row).map (·.spec {}) := by
    rw [Schema.compiled, Schema.specs, Schema.params_row, Schema.params, List.append_nil]
  have hnames : ((Component.params row).map (·.spec {})).map (·.name) = names row := List.map_map ..
  have hentries : ((names row).map fun n => (n, clean n)).map (·.1) = names row := by
    rw [List.map_map]
    exact List.map_id (names row)
  refine ⟨⟨(names row).map fun n => (n, clean n)⟩, ⟨(names row).map fun n => (n, domain n)⟩, ?_, ?_,
    Params.gives_map hnodup, Params.gives_map hnodup⟩
  · rw [CompiledSchema.clean?, hspecs, cleanFrom?_eq_some clean]
    · rw [List.map_map, names, List.map_map]
      rfl
    · rw [List.length_map, ← length_names, htexts]
      exact clean_components fun p hp => (hvalues p hp).holds
    · rwa [hnames]
    · exact fun _ _ => List.not_mem_nil
  · rw [bindParams, bindEntries_eq_ok domain]
    · rw [List.map_map]
      rfl
    · intro e he
      obtain ⟨name, hname, rfl⟩ := List.mem_map.mp he
      obtain ⟨p, hp, rfl⟩ := List.mem_map.mp hname
      exact (hvalues p hp).bindValue
    · rwa [hentries]
    · exact fun _ _ => List.not_mem_nil

/-! ### Chains -/

/-- A route takes apart what its own row has written. -/
theorem matchIn_route_row {own : Option Method} {action : Action} {c : CompiledNode}
    (isIn : n.isIn place = true) (kind : n.kind = .route own action)
    (answers : own = none ∨ own = method) (hs : Schema.ofText n.schema = .ok (Schema.row "" row .done))
    (hview : view n.id = .ok c) (hc : n.compile {} = .ok c)
    (hvalues : ∀ p ∈ Component.params row, t.Exchanges n.id p (domain p.name) (clean p.name))
    (hnodup : (names row).Nodup) :
    ∃ m, (t.matchIn view method [n] place (pathText clean row)).outcome = .ok (some (n.id, m)) ∧
      m.Carries (pathText clean row) domain clean (names row) := by
  have hschema := Node.schema_of_compile hs hc
  obtain ⟨trail, hfound, htexts⟩ := Node.captures?_route_row (by rw [Node.isRoute, kind]) hc hs
    fun p hp => (hvalues p hp).holds
  obtain ⟨cleaned, bound, hclean, hbound, hcleaned, hparams⟩ := values_row hnodup hvalues htexts
  rw [← hschema] at hclean
  refine ⟨⟨_, bound, cleaned⟩, ?_, rfl, hcleaned, hparams⟩
  rw [matchIn_route isIn kind answers, matchRoute, bind_assoc,
    Consult.bind_of_ok (Consult.node_eq_ok.mpr hview), hfound]
  dsimp only
  rw [hclean]
  dsimp only
  rw [bind_assoc, Consult.bind_of_ok (a := bound) hbound]
  rfl

/-- **A group takes apart what its own row has written**, around a match of what the nodes in it have
written. -/
theorem matchIn_group_row {g : Node} {c : CompiledNode} {inner : List String} {id : NodeId}
    {m : RouteMatch} {rest : String} (isIn : g.isIn place = true) (isGroup : g.isGroup = true)
    (hlater : ∀ n ∈ nodes, n.isIn place = false)
    (hs : Schema.ofText g.schema = .ok (Schema.row "" row .done)) (hview : view g.id = .ok c)
    (hc : g.compile {} = .ok c)
    (hvalues : ∀ p ∈ Component.params row, t.Exchanges g.id p (domain p.name) (clean p.name))
    (hnodup : (names row ++ inner).Nodup) (hrest : ∀ c ∈ rest.toList.head?, c = '/')
    (hline : '\n' ∉ rest.toList)
    (hm : (t.matchIn view method nodes g.id rest).outcome = .ok (some (id, m)))
    (hcarries : m.Carries rest domain clean inner) :
    ∃ m, (t.matchIn view method (g :: nodes) place (pathText clean row ++ rest)).outcome =
        .ok (some (id, m)) ∧
      m.Carries (pathText clean row ++ rest) domain clean (names row ++ inner) := by
  have hschema := Node.schema_of_compile hs hc
  obtain ⟨trail, hfound, hhanded, htexts⟩ := Node.captures?_group_row isGroup hc hs
    (fun p hp => (hvalues p hp).holds) hrest hline
  obtain ⟨cleaned, bound, hclean, hbound, hcleaned, hparams⟩ :=
    values_row (List.nodup_append.mp hnodup).1 hvalues htexts
  rw [← hschema] at hclean
  -- the values of the group are put behind those of the nodes in it
  have hnodup := (List.perm_append_comm.nodup_iff).mp hnodup
  have hsame (name : String) : name ∈ inner ++ names row ↔ name ∈ names row ++ inner :=
    List.perm_append_comm.mem_iff
  refine ⟨m.nestUnder _ bound cleaned, ?_, rfl,
    (hcarries.clean.underlay hcleaned hnodup).congr hsame,
    (hcarries.params.underlay hparams hnodup).congr hsame⟩
  rw [matchIn_group isIn isGroup hlater, Consult.bind_of_ok (Consult.node_eq_ok.mpr hview), hfound]
  dsimp only
  rw [hhanded, Option.getD_some, Consult.bind_of_ok hm, hclean]
  dsimp only
  rw [Consult.bind_of_ok (a := bound) hbound]
  rfl

/-- **The search takes apart what a chain has written**: it finds the route at the end, with all the
values. -/
theorem Leads.matchIn_rows (h : t.IsSound) (hleads : t.Leads method place nodes)
    (hlast : nodes.getLast? = some last) (hrows : ShowsRows view comps nodes)
    (hvalues : t.ExchangesAll comps nodes domain clean)
    (hnodup : (names (nodes.flatMap comps)).Nodup)
    (hline : '\n' ∉ (pathText clean (nodes.flatMap comps)).toList) :
    ∃ m, (t.matchIn view method nodes place (pathText clean (nodes.flatMap comps))).outcome =
        .ok (some (last.id, m)) ∧
      m.Carries (pathText clean (nodes.flatMap comps)) domain clean
        (names (nodes.flatMap comps)) := by
  induction hleads with
  | @route place n own action mem isIn kind answers =>
    obtain rfl : n = last := Option.some.inj hlast
    obtain ⟨hs, c, hview, hc⟩ := hrows n List.mem_cons_self
    have hown := hvalues n List.mem_cons_self
    rw [List.flatMap_singleton] at hnodup ⊢
    exact matchIn_route_row isIn kind answers hs hview hc hown hnodup
  | @group place g nodes mem isIn isGroup inside ih =>
    obtain ⟨⟨hs, c, hview, hc⟩, hrows⟩ := List.forall_mem_cons.mp hrows
    obtain ⟨hown, hvalues⟩ := List.forall_mem_cons.mp hvalues
    rw [List.flatMap_cons, names_append] at hnodup
    rw [List.flatMap_cons, pathText_append, String.toList_append] at hline
    rw [List.flatMap_cons, names_append, pathText_append]
    have hnodupInside := (List.nodup_append.mp hnodup).2.1
    rw [List.mem_append, not_or] at hline
    obtain ⟨m, hm, hcarries⟩ := ih
      (by rwa [List.getLast?_cons_of_ne_nil inside.ne_nil] at hlast) hrows hvalues hnodupInside
      hline.2
    exact matchIn_group_row isIn isGroup (inside.isIn_eq_false h mem isIn) hs hview hc hown hnodup
      (head?_pathText clean (nodes.flatMap comps)) hline.2 hm hcarries

end Tree

end UrlRouting

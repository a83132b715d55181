import UrlRouting.Matching.Search
import UrlRouting.Proofs.Consult

/-!
# One level of a search

Routes and groups of one place are searched by the same two steps everywhere in the tree: first the
routes of the place, then its groups (`UrlRouting.Tree.matchIn`). A group that matches hands what it
leaves of the path to the level below it (`UrlRouting.Tree.matchGroups_group`).

What one node has to do with a match is a *hit*: the node, what it compiles to, the text it was
matched with and what it captured (`UrlRouting.Hit`). A match of a path is a *walk* along the hits
of groups, from the outside in, that ends with the hit of a route (`UrlRouting.View.Walk`), and the
values of the match are put together from those of the hits (`UrlRouting.Tree.Assembles`).
-/

namespace UrlRouting

open Regex

/-! ### Hits -/

/-- What a node has to do with a match. -/
structure Hit where
  /-- The node. -/
  node : Node
  /-- What it compiles to. -/
  compiled : CompiledNode
  /-- The text it was matched with. -/
  text : String
  /-- The captures. -/
  trail : Trail

/-- What a group leaves of its text for what stands in it. -/
def Hit.handed (h : Hit) : String := (h.trail.text? restName).getD ""

/-- **Captured values fit the types**: every text, that of a default included, stands for a value of
the type of its parameter. -/
def CompiledSchema.Fits (schema : CompiledSchema) (trail : Trail) : Prop :=
  ∀ (i : Nat) (spec : ParamSpec), schema.params[i]? = some spec →
    ∀ type text, spec.type = some type → spec.textOf? i trail = some text →
      (type.coerce? text).isSome

/-- **A hit is one** if the node's expression matches the text so, and the values fit. -/
structure Hit.IsValid (view : View) (h : Hit) : Prop where
  /-- The node compiles. -/
  compiles : view h.node.id = .ok h.compiled
  /-- The captures are those of the preferred match. -/
  captures : h.compiled.matcher.bind (·.captures? h.text) = some h.trail
  /-- The values fit. -/
  fits : h.compiled.schema.Fits h.trail

/-- **A walk**: hits of groups, from the outside in, each of which hands the next one its text, and
the hit of a route. -/
inductive View.Walk (view : View) : List Hit → String → Prop
  /-- The hit of a route. -/
  | route {h : Hit} (hit : h.IsValid view) : Walk view [h] h.text
  /-- The hit of a group, and a walk in it. -/
  | group {h : Hit} {hits : List Hit} (hit : h.IsValid view) (inside : Walk view hits h.handed) :
      Walk view (h :: hits) h.text

/-- **Nodes match a path** if there is a walk along them. -/
def View.Matches (view : View) (nodes : List Node) (path : String) : Prop :=
  ∃ hits, view.Walk hits path ∧ hits.map (·.node) = nodes

/-- **The match that hits are put together to.** -/
inductive Tree.Assembles (t : Tree) : List Hit → RouteMatch → Prop
  /-- The match of a route. -/
  | route {h : Hit} {clean params : Params} (values : h.compiled.schema.clean? h.trail = some clean)
      (bound : t.bindParams h.node.id clean = .ok params) :
      Assembles t [h] ⟨h.text, params, clean⟩
  /-- The match of a group around another one. -/
  | group {h : Hit} {hits : List Hit} {m : RouteMatch} {clean params : Params}
      (values : h.compiled.schema.clean? h.trail = some clean)
      (bound : t.bindParams h.node.id clean = .ok params) (inside : Assembles t hits m) :
      Assembles t (h :: hits) (m.nestUnder h.text params clean)

/-! ### Values that fit -/

section Fits

variable {trail : Trail} {specs : List ParamSpec} {k : Nat} {params : Params}

theorem ParamSpec.clean?_isSome_iff {spec : ParamSpec} {text : Option String} :
    (spec.clean? text).isSome ↔
      ∀ type s, spec.type = some type → text = some s → (type.coerce? s).isSome := by
  cases text with
  | none => simp [clean?]
  | some s => cases h : spec.type <;> simp [clean?, h]

theorem cleanFrom?_isSome_iff : (cleanFrom? trail specs k params).isSome ↔
    ∀ (i : Nat) (spec : ParamSpec), specs[i]? = some spec →
      (spec.clean? (spec.textOf? (k + i) trail)).isSome := by
  induction specs generalizing k params with
  | nil => simp [cleanFrom?]
  | cons spec specs ih =>
    have hcons : (∀ (i : Nat) (s : ParamSpec), (spec :: specs)[i]? = some s →
        (s.clean? (s.textOf? (k + i) trail)).isSome) ↔
        (spec.clean? (spec.textOf? k trail)).isSome ∧
          ∀ (i : Nat) (s : ParamSpec), specs[i]? = some s →
            (s.clean? (s.textOf? (k + 1 + i) trail)).isSome := by
      constructor
      · refine fun h => ⟨h 0 spec rfl, fun i s hs => ?_⟩
        rw [Nat.add_assoc, Nat.add_comm 1]
        exact h (i + 1) s hs
      · rintro ⟨hfirst, hrest⟩ (_ | i) s hs
        · cases hs
          exact hfirst
        · rw [Nat.add_comm i, ← Nat.add_assoc]
          exact hrest i s hs
    rw [hcons, cleanFrom?]
    cases spec.clean? (spec.textOf? k trail) with
    | none => simp
    | some v => simp [ih]

/-- **There are clean values just if the captures fit.** -/
theorem CompiledSchema.clean?_isSome_iff {schema : CompiledSchema} :
    (schema.clean? trail).isSome ↔ schema.Fits trail := by
  rw [clean?, cleanFrom?_isSome_iff]
  simp only [Nat.zero_add, ParamSpec.clean?_isSome_iff]
  rfl

theorem CompiledSchema.fits_of_clean? {schema : CompiledSchema} {clean : Params}
    (h : schema.clean? trail = some clean) : schema.Fits trail :=
  clean?_isSome_iff.mp (Option.isSome_of_eq_some h)

end Fits

/-! ### Walks -/

/-- There is nothing around a part of a list that has one element: a row that only has a route has
no groups. -/
theorem eq_of_append_cons_eq_singleton {α : Type} {front back : List α} {a b : α}
    (h : front ++ a :: back = [b]) : front = [] ∧ a = b ∧ back = [] := by
  obtain ⟨hfront, hback⟩ := (List.append_eq_singleton_iff.mp h).resolve_right fun hne =>
    List.cons_ne_nil _ _ hne.2
  exact ⟨hfront, List.cons.inj hback⟩

section Walk

variable {view : View} {n : Node} {nodes : List Node} {path : String} {compiled : CompiledNode}
  {trail : Trail}

/-- There is only one hit of a node with a text. -/
theorem Hit.IsValid.eq {h : Hit} (hit : h.IsValid view) (hcompiled : view h.node.id = .ok compiled)
    (htrail : compiled.matcher.bind (·.captures? h.text) = some trail) :
    h.compiled = compiled ∧ h.trail = trail := by
  have hsame : h.compiled = compiled := Except.ok.inj (hit.compiles.symm.trans hcompiled)
  refine ⟨hsame, Option.some.inj (hit.captures.symm.trans ?_)⟩
  rw [hsame, htrail]

theorem View.Walk.ne_nil {hits : List Hit} (h : view.Walk hits path) : hits ≠ [] := by
  cases h <;> exact List.cons_ne_nil _ _

theorem View.matches_singleton :
    view.Matches [n] path ↔ ∃ h : Hit, h.node = n ∧ h.text = path ∧ h.IsValid view := by
  constructor
  · rintro ⟨hits, hwalk, hnodes⟩
    cases hwalk with
    | route hit => exact ⟨_, (List.cons.inj hnodes).1, rfl, hit⟩
    | group hit inside =>
      exact absurd (List.map_eq_nil_iff.mp (List.cons.inj hnodes).2) inside.ne_nil
  · rintro ⟨h, rfl, rfl, hit⟩
    exact ⟨[h], .route hit, rfl⟩

/-- **Nodes behind a group match what it hands them.** -/
theorem View.matches_cons (hne : nodes ≠ []) : view.Matches (n :: nodes) path ↔
    ∃ h : Hit, h.node = n ∧ h.text = path ∧ h.IsValid view ∧ view.Matches nodes h.handed := by
  constructor
  · rintro ⟨hits, hwalk, hnodes⟩
    cases hwalk with
    | route hit => exact absurd (List.cons.inj hnodes).2.symm hne
    | group hit inside =>
      obtain ⟨hn, hrest⟩ := List.cons.inj hnodes
      exact ⟨_, hn, rfl, hit, _, inside, hrest⟩
  · rintro ⟨h, rfl, rfl, hit, hits, inside, rfl⟩
    exact ⟨h :: hits, .group hit inside, rfl⟩

end Walk

namespace Tree

/-! ### Levels -/

section Levels

variable {t : Tree} {view : View} {method : Option Method} {n : Node} {later : List Node}
  {place : NodeId} {path : String}

/-- The first route in a place, among some nodes, that matches a path. -/
def matchIn (t : Tree) (view : View) (method : Option Method) (nodes : List Node) (place : NodeId)
    (path : String) : Consult (Option (NodeId × RouteMatch)) := do
  match ← t.matchFirst view path (candidates nodes place method) with
  | some found => return some found
  | none => matchGroups t view method nodes place path

theorem match?_eq_matchIn (t : Tree) (view : View) (method : Option Method) (path : String) :
    t.match? view method path = t.matchIn view method t.nodes root path := rfl

/-- Nodes that are no groups of the place are passed over. -/
theorem matchGroups_skip (h : (n.isGroup && n.isIn place) = false) :
    t.matchGroups view method (n :: later) place path =
      t.matchGroups view method later place path := by
  rw [matchGroups, h]
  rfl

/-- **A group hands what it leaves of the path to the level below it**, and its own values count
only if something has matched there. -/
theorem matchGroups_group (h : (n.isGroup && n.isIn place) = true) :
    t.matchGroups view method (n :: later) place path = (do
      let compiled ← Consult.node view n.id
      match compiled.matcher.bind (·.captures? path) with
      | none => t.matchGroups view method later place path
      | some trail =>
        let inside ← t.matchIn view method later n.id ((trail.text? restName).getD "")
        match inside, compiled.schema.clean? trail with
        | some (id, m), some clean => do
          let params ← Consult.lift (t.bindParams n.id clean)
          return some (id, m.nestUnder path params clean)
        | _, _ => t.matchGroups view method later place path) := by
  rw [matchGroups, if_pos h]
  refine bind_congr fun compiled => ?_
  cases compiled.matcher.bind (·.captures? path) with
  | none => rfl
  | some trail =>
    dsimp only
    rw [matchIn, bind_assoc]
    refine bind_congr fun found => ?_
    cases found with
    | none => rfl
    | some found => rfl

end Levels

/-! ### What a level answers -/

section Answers

variable {t : Tree} {view : View} {n : Node} {nodes : List Node} {path : String} {id : NodeId}
  {m : RouteMatch}

/-- **A route that matches has a hit**, of which its match is made. -/
theorem matchRoute_eq_some (h : (t.matchRoute view n path).outcome = .ok (some m)) :
    ∃ hit : Hit, hit.node = n ∧ hit.text = path ∧ hit.IsValid view ∧ t.Assembles [hit] m := by
  rw [matchRoute] at h
  obtain ⟨compiled, hcompiled, h⟩ := Consult.bind_eq_ok.mp h
  rw [Consult.node_eq_ok] at hcompiled
  cases htrail : compiled.matcher.bind (·.captures? path) with
  | none =>
    rw [htrail] at h
    cases h
  | some trail =>
    rw [htrail] at h
    dsimp only at h
    cases hclean : compiled.schema.clean? trail with
    | none =>
      rw [hclean] at h
      cases h
    | some clean =>
      rw [hclean] at h
      obtain ⟨params, hparams, h⟩ := Consult.bind_eq_ok.mp h
      cases h
      exact ⟨⟨n, compiled, path, trail⟩, rfl, rfl,
        ⟨hcompiled, htrail, CompiledSchema.fits_of_clean? hclean⟩, .route hclean hparams⟩

/-- **A route that is passed over has no hit.** -/
theorem not_matches_of_matchRoute (h : (t.matchRoute view n path).outcome = .ok none) :
    ¬view.Matches [n] path := by
  rw [View.matches_singleton]
  rintro ⟨hit, rfl, rfl, hvalid⟩
  rw [matchRoute, Consult.bind_of_ok (Consult.node_eq_ok.mpr hvalid.compiles), hvalid.captures] at h
  dsimp only at h
  obtain ⟨clean, hclean⟩ :=
    Option.isSome_iff_exists.mp (CompiledSchema.clean?_isSome_iff.mpr hvalid.fits)
  rw [hclean] at h
  obtain ⟨params, -, h⟩ := Consult.bind_eq_ok.mp h
  cases h

/-- **The first route that matches**, and none in front of it. -/
theorem matchFirst_eq_some (h : (t.matchFirst view path nodes).outcome = .ok (some (id, m))) :
    ∃ earlier later, ∃ hit : Hit, nodes = earlier ++ hit.node :: later ∧ hit.node.id = id ∧
      hit.text = path ∧ hit.IsValid view ∧ t.Assembles [hit] m ∧
      ∀ e ∈ earlier, ¬view.Matches [e] path := by
  induction nodes with
  | nil => cases h
  | cons n nodes ih =>
    rw [matchFirst] at h
    obtain ⟨found, hfound, h⟩ := Consult.bind_eq_ok.mp h
    cases found with
    | some m =>
      cases h
      obtain ⟨hit, rfl, htext, hvalid, hmatch⟩ := matchRoute_eq_some hfound
      exact ⟨[], nodes, hit, rfl, rfl, htext, hvalid, hmatch, List.forall_mem_nil _⟩
    | none =>
      obtain ⟨earlier, later, hit, rfl, hid, htext, hvalid, hmatch, hearlier⟩ := ih h
      refine ⟨n :: earlier, later, hit, rfl, hid, htext, hvalid, hmatch, fun e he => ?_⟩
      rcases List.mem_cons.mp he with rfl | he
      · exact not_matches_of_matchRoute hfound
      · exact hearlier e he

theorem not_matches_of_matchFirst (h : (t.matchFirst view path nodes).outcome = .ok none) :
    ∀ n ∈ nodes, ¬view.Matches [n] path := by
  induction nodes with
  | nil => exact List.forall_mem_nil _
  | cons n nodes ih =>
    rw [matchFirst] at h
    obtain ⟨found, hfound, h⟩ := Consult.bind_eq_ok.mp h
    cases found with
    | some m => cases h
    | none =>
      intro e he
      rcases List.mem_cons.mp he with rfl | he
      · exact not_matches_of_matchRoute hfound
      · exact ih h e he

end Answers

end Tree

end UrlRouting

import UrlRouting.Proofs.Matching.Search
import UrlRouting.Proofs.Matching.Values

/-!
# The values of a match, layer by layer

Each node on the way of a match contributes the values of its own parameters, and the inner nodes
come first: the names are those of the route in the order of its schema, then for each group, from
the inside out, those that are not there yet (`UrlRouting.layered`). So the value of a name is that
of the innermost node that declares it, clean and bound alike, and the binder is looked for from
that node upwards (`UrlRouting.Tree.Assembles.layers`).

The clean and the bound values are put together separately, but they keep the same names in the same
order throughout, which is what makes the arguments of an action line up.
-/

namespace UrlRouting

open Regex

/-! ### One node -/

section Node

variable {trail : Trail} {specs : List ParamSpec} {k : Nat} {params clean bound : Params}
  {name other : String} {v w : Value}

/-- **The clean values of parameters** have their names, in their order, and each of them is the
value of its own text. -/
theorem cleanFrom?_values (h : cleanFrom? trail specs k params = some clean)
    (hnodup : (specs.map (·.name)).Nodup) (hnew : ∀ n ∈ specs.map (·.name), n ∉ params.names) :
    clean.names = params.names ++ specs.map (·.name) ∧
      (∀ name, name ∉ specs.map (·.name) → clean.get? name = params.get? name) ∧
      ∀ (i : Nat) (spec : ParamSpec), specs[i]? = some spec →
        ∃ v, spec.clean? (spec.textOf? (k + i) trail) = some v ∧ clean.get? spec.name = some v := by
  induction specs generalizing k params with
  | nil =>
    obtain rfl := Option.some.inj h
    exact ⟨(List.append_nil _).symm, fun _ _ => rfl, nofun⟩
  | cons spec specs ih =>
    rw [cleanFrom?] at h
    cases hv : spec.clean? (spec.textOf? k trail) with
    | none =>
      rw [hv] at h
      cases h
    | some v =>
      rw [hv] at h
      obtain ⟨hfirst, hnodup⟩ := List.nodup_cons.mp hnodup
      have hfresh : spec.name ∉ params.names := hnew spec.name List.mem_cons_self
      obtain ⟨hnames, hothers, hvalues⟩ := ih h hnodup fun n hn =>
        Params.not_mem_names_insert hfresh (hnew n (List.mem_cons_of_mem _ hn))
          (ne_of_mem_of_not_mem hn hfirst)
      refine ⟨?_, fun name hname => ?_, fun i s hs => ?_⟩
      · rw [hnames, Params.names_insert hfresh, List.append_assoc]
        rfl
      · obtain ⟨hne, hrest⟩ := not_or.mp (mt List.mem_cons.mpr hname)
        rw [hothers name hrest, Params.get?_insert_of_ne hne]
      · cases i with
        | zero =>
          obtain rfl := Option.some.inj hs
          refine ⟨v, hv, ?_⟩
          rw [hothers spec.name hfirst, Params.get?_insert_self]
        | succ i =>
          rw [Nat.add_comm i, ← Nat.add_assoc]
          exact hvalues i s hs

/-- **The bound values** have the names of the clean ones, in their order, and each of them is what
the binder of its name makes of the clean one. -/
theorem Tree.bindEntries_values {t : Tree} {id : NodeId} {entries : List (String × Value)}
    (h : t.bindEntries id entries params = .ok bound) (hnodup : (entries.map (·.1)).Nodup)
    (hnew : ∀ n ∈ entries.map (·.1), n ∉ params.names) :
    bound.names = params.names ++ entries.map (·.1) ∧
      (∀ name, name ∉ entries.map (·.1) → bound.get? name = params.get? name) ∧
      ∀ name v, (name, v) ∈ entries →
        ∃ w, t.bindValue id name v = .ok w ∧ bound.get? name = some w := by
  induction entries generalizing params with
  | nil =>
    obtain rfl := Except.ok.inj h
    exact ⟨(List.append_nil _).symm, fun _ _ => rfl, fun _ _ => nofun⟩
  | cons e entries ih =>
    obtain ⟨name, v⟩ := e
    rw [bindEntries] at h
    obtain ⟨w, hw, h⟩ := Schema.bind_eq_ok_iff.mp h
    obtain ⟨hfirst, hnodup⟩ := List.nodup_cons.mp hnodup
    have hfresh : name ∉ params.names := hnew name List.mem_cons_self
    -- no later entry has the name, so that its value stays
    obtain ⟨hnames, hothers, hvalues⟩ := ih h hnodup fun n hn =>
      Params.not_mem_names_insert hfresh (hnew n (List.mem_cons_of_mem _ hn))
        (ne_of_mem_of_not_mem hn hfirst)
    refine ⟨?_, fun other hother => ?_, fun other u hmem => ?_⟩
    · rw [hnames, Params.names_insert hfresh, List.append_assoc]
      rfl
    · obtain ⟨hne, hrest⟩ := not_or.mp (mt List.mem_cons.mpr hother)
      rw [hothers other hrest, Params.get?_insert_of_ne hne]
    · rcases List.mem_cons.mp hmem with heq | hmem
      · obtain ⟨rfl, rfl⟩ := Prod.mk.inj heq
        refine ⟨w, hw, ?_⟩
        rw [hothers other hfirst, Params.get?_insert_self]
      · exact hvalues other u hmem

end Node

/-! ### Layers of names -/

/-- **Names, layer by layer**: those of the first layer, then of each other one those that are not
there yet. -/
def layered (layers : List (List String)) : List String :=
  layers.foldl (fun seen names => seen ++ names.filter (· ∉ seen)) []

section Layered

variable {layers : List (List String)} {names : List String}

theorem layered_append_singleton (layers : List (List String)) (names : List String) :
    layered (layers ++ [names]) = layered layers ++ names.filter (· ∉ layered layers) := by
  rw [layered, List.foldl_append]
  rfl

theorem layered_singleton (names : List String) : layered [names] = names := by
  change names.filter (· ∉ []) = names
  exact List.filter_eq_self.mpr fun _ _ => decide_eq_true List.not_mem_nil

theorem layered_append_nil (layers : List (List String)) :
    layered (layers ++ [[]]) = layered layers := by
  rw [layered_append_singleton, List.filter_nil, List.append_nil]

theorem nodup_append_filter {seen : List String} (hseen : seen.Nodup) (hnames : names.Nodup) :
    (seen ++ names.filter (· ∉ seen)).Nodup :=
  List.nodup_append.mpr ⟨hseen, hnames.filter _, fun _ ha _ hb heq =>
    of_decide_eq_true (List.mem_filter.mp hb).2 (heq ▸ ha)⟩

end Layered

/-! ### The values of one node -/

/-- The names that a node contributes to a match. -/
def Hit.names (h : Hit) : List String := h.compiled.schema.params.map (·.name)

/-- **The bound value of a clean one**: null stays null, and any other value goes through the
nearest binder from the node upwards, if there is one. -/
def Tree.IsBoundTo (t : Tree) (id : NodeId) (name : String) (v w : Value) : Prop :=
  if v.isNull then w = v
  else match t.binderIn? id name with
    | some f => f v = .ok w
    | none => w = v

/-- **A node gives a name its value**: the clean one is what the text of one of its own parameters
stands for, and the bound one is made of it at the node. -/
def Tree.Gives (t : Tree) (hit : Hit) (name : String) (m : RouteMatch) : Prop :=
  ∃ (i : Nat) (spec : ParamSpec) (v w : Value), hit.compiled.schema.params[i]? = some spec ∧
    spec.name = name ∧ spec.clean? (spec.textOf? i hit.trail) = some v ∧
    m.clean.get? name = some v ∧ m.params.get? name = some w ∧
    t.IsBoundTo hit.node.id name v w

section Values

variable {t : Tree} {hit : Hit} {name : String} {clean params : Params} {m : RouteMatch}
  {path : String}

theorem Tree.isBoundTo_of_bindValue {id : NodeId} {v w : Value}
    (h : t.bindValue id name v = .ok w) : t.IsBoundTo id name v w := by
  rw [bindValue] at h
  rw [IsBoundTo]
  cases hbinder : t.binderIn? id name with
  | none =>
    rw [hbinder] at h
    obtain rfl := Except.ok.inj h
    split <;> rfl
  | some f =>
    rw [hbinder] at h
    dsimp only at h
    split at h
    · next hnull =>
      rw [if_pos hnull]
      exact (Except.ok.inj h).symm
    · next hnull =>
      rw [if_neg hnull]
      dsimp only
      cases hf : f v with
      | error e =>
        rw [hf] at h
        cases h
      | ok u =>
        rw [hf] at h
        exact congrArg Except.ok (Except.ok.inj h)

/-- **The values of one node**, clean and bound, have the names of its parameters. -/
theorem Tree.names_of_hit (hnodup : hit.names.Nodup)
    (hclean : hit.compiled.schema.clean? hit.trail = some clean)
    (hparams : t.bindParams hit.node.id clean = .ok params) :
    clean.names = hit.names ∧ params.names = hit.names := by
  obtain ⟨hnames, -, -⟩ := cleanFrom?_values hclean hnodup fun _ _ => List.not_mem_nil
  have hsame : clean.names = hit.names := hnames
  refine ⟨hsame, ?_⟩
  obtain ⟨hnames, -, -⟩ := bindEntries_values hparams (show clean.names.Nodup from hsame ▸ hnodup)
    fun _ _ => List.not_mem_nil
  exact Eq.trans hnames hsame

/-- **A node gives its names their values**, as long as nothing else takes their place. -/
theorem Tree.gives_of_hit (hnodup : hit.names.Nodup)
    (hclean : hit.compiled.schema.clean? hit.trail = some clean)
    (hparams : t.bindParams hit.node.id clean = .ok params) (hname : name ∈ hit.names)
    (hmclean : m.clean.get? name = clean.get? name) (hmparams : m.params.get? name = params.get? name) :
    t.Gives hit name m := by
  obtain ⟨hnames, -, hvalues⟩ := cleanFrom?_values hclean hnodup fun _ _ => List.not_mem_nil
  obtain ⟨spec, hspec, rfl⟩ := List.mem_map.mp hname
  obtain ⟨i, hi⟩ := List.mem_iff_getElem?.mp hspec
  obtain ⟨v, hv, hget⟩ := hvalues i spec hi
  have hsame : clean.names = hit.names := hnames
  obtain ⟨-, -, hbound⟩ := bindEntries_values hparams (show clean.names.Nodup from hsame ▸ hnodup)
    fun _ _ => List.not_mem_nil
  obtain ⟨w, hw, hgetw⟩ := hbound spec.name v (Params.mem_entries_of_get? hget)
  refine ⟨i, spec, v, w, hi, rfl, ?_, hmclean.trans hget, hmparams.trans hgetw,
    isBoundTo_of_bindValue hw⟩
  rwa [Nat.zero_add] at hv

end Values

/-! ### All layers -/

/-- **What a match says, layer by layer**: its names are those of the nodes from the route upwards,
each where it comes first, and each has the value that the innermost node gives it that declares
it. -/
structure Tree.Layers (t : Tree) (hits : List Hit) (m : RouteMatch) : Prop where
  /-- The names of the clean values. -/
  clean : m.clean.names = layered (hits.reverse.map Hit.names)
  /-- The names of the bound values. -/
  params : m.params.names = layered (hits.reverse.map Hit.names)
  /-- The names are distinct. -/
  nodup : m.clean.names.Nodup
  /-- The values. -/
  values : ∀ outer hit inner name, hits = outer ++ hit :: inner → name ∈ hit.names →
    (∀ h ∈ inner, name ∉ h.names) → t.Gives hit name m
  /-- A name is that of a node. -/
  declared : ∀ name ∈ m.clean.names, ∃ h ∈ hits, name ∈ h.names

/-- What a node gives is still given by a match around it. -/
theorem Tree.Gives.nestUnder {t : Tree} {hit : Hit} {name : String} {m : RouteMatch}
    (h : t.Gives hit name m) (path : String) (params clean : Params) :
    t.Gives hit name (m.nestUnder path params clean) := by
  obtain ⟨i, spec, v, w, hi, hname, hv, hclean, hparams, hbound⟩ := h
  refine ⟨i, spec, v, w, hi, hname, hv, ?_, ?_, hbound⟩
  · exact (Params.get?_underlay m.clean clean name).trans (by rw [hclean, Option.some_or])
  · exact (Params.get?_underlay m.params params name).trans (by rw [hparams, Option.some_or])

section Nodes

variable {t : Tree} {hit : Hit} {hits : List Hit} {m : RouteMatch} {clean params : Params}

/-- The values of a route are one layer. -/
theorem Tree.layers_route (hnodup : hit.names.Nodup)
    (values : hit.compiled.schema.clean? hit.trail = some clean)
    (bound : t.bindParams hit.node.id clean = .ok params) (path : String) :
    t.Layers [hit] ⟨path, params, clean⟩ := by
  obtain ⟨hclean, hparams⟩ := names_of_hit hnodup values bound
  refine ⟨hclean.trans (layered_singleton _).symm, hparams.trans (layered_singleton _).symm,
    hclean.symm ▸ hnodup, ?_, fun name hname => ⟨hit, List.mem_cons_self, hclean ▸ hname⟩⟩
  intro outer first inner name heq hname hinner
  obtain ⟨rfl, rfl, -⟩ := eq_of_append_cons_eq_singleton heq.symm
  exact gives_of_hit hnodup values bound hname rfl rfl

/-- A group around adds the names that are not there yet. -/
theorem names_underlay_layered {inner outer : Params}
    (hinner : inner.names = layered (hits.reverse.map Hit.names)) (houter : outer.names = hit.names) :
    (inner.underlay outer).names = layered ((hit :: hits).reverse.map Hit.names) := by
  rw [Params.names_underlay, hinner, houter, List.reverse_cons, List.map_append,
    List.map_singleton, layered_append_singleton]

/-- **The values of a group are a layer around those inside it**: it gives a name its value just if
no node inside declares the name. -/
theorem Tree.Layers.nestUnder (hm : t.Layers hits m) (hnodup : hit.names.Nodup)
    (values : hit.compiled.schema.clean? hit.trail = some clean)
    (bound : t.bindParams hit.node.id clean = .ok params) (path : String) :
    t.Layers (hit :: hits) (m.nestUnder path params clean) := by
  obtain ⟨hclean, hparams⟩ := names_of_hit hnodup values bound
  have hnames : (m.clean.underlay clean).names =
      m.clean.names ++ hit.names.filter (· ∉ m.clean.names) := by
    rw [Params.names_underlay, hclean]
  refine ⟨names_underlay_layered hm.clean hclean, names_underlay_layered hm.params hparams,
    hnames.symm ▸ nodup_append_filter hm.nodup hnodup, ?_, fun name hname => ?_⟩
  · intro outer first inner name heq hname hinner
    cases outer with
    | nil =>
      obtain ⟨rfl, rfl⟩ := List.cons.inj heq
      -- no node inside declares the name, so that it has no value there
      have hfree : name ∉ m.clean.names := fun hmem => by
        obtain ⟨h, hh, hdeclared⟩ := hm.declared name hmem
        exact hinner h hh hdeclared
      have hfree' : name ∉ m.params.names := hm.params.trans hm.clean.symm ▸ hfree
      refine gives_of_hit hnodup values bound hname ?_ ?_
      · exact (Params.get?_underlay m.clean clean name).trans (by
          rw [Params.get?_eq_none_iff.mpr hfree, Option.none_or])
      · exact (Params.get?_underlay m.params params name).trans (by
          rw [Params.get?_eq_none_iff.mpr hfree', Option.none_or])
    | cons other outer =>
      obtain ⟨-, rfl⟩ := List.cons.inj heq
      exact (hm.values outer first inner name rfl hname hinner).nestUnder _ _ _
  · rcases List.mem_append.mp (hnames ▸ hname) with hname | hname
    · obtain ⟨h, hh, hdeclared⟩ := hm.declared name hname
      exact ⟨h, List.mem_cons_of_mem hit hh, hdeclared⟩
    · exact ⟨hit, List.mem_cons_self, (List.mem_filter.mp hname).1⟩

/-- **The match that hits are put together to** says what their nodes say, the inner ones first. -/
theorem Tree.Assembles.layers (h : t.Assembles hits m)
    (hnodup : ∀ hit ∈ hits, hit.names.Nodup) : t.Layers hits m := by
  induction h with
  | route values bound =>
    exact layers_route (hnodup _ List.mem_cons_self) values bound _
  | group values bound inside ih =>
    obtain ⟨hhit, hhits⟩ := List.forall_mem_cons.mp hnodup
    exact (ih hhits).nestUnder hhit values bound _

end Nodes

/-- The match of a walk has the path that was walked. -/
theorem Tree.Assembles.path_eq {t : Tree} {view : View} {hits : List Hit} {m : RouteMatch}
    {path : String} (h : t.Assembles hits m) (hwalk : view.Walk hits path) : m.path = path := by
  cases h <;> cases hwalk <;> rfl

end UrlRouting

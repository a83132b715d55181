import Mathlib
import UrlRouting.Proofs.Matching.Chains
import UrlRouting.Proofs.Router.Outcome
import UrlRouting.Proofs.Tree.Without

/-!
# Groups that do not fit

A group matches a text only if what it captures fits the types of its parameters. If it does not,
the group is passed over, and with it everything that stands in it: a path is answered as it is by
the router without the group (`UrlRouting.Router.without`).

There is one exception. What stands in the group is searched before the values of the group are
looked at, so that a schema in it that does not compile or a binder in it that fails ends the search
(`UrlRouting.Router.misfit_passed_over`), although nothing in the group could have been the
answer (`UrlRouting.Router.misfit_is_searched`).
-/

namespace UrlRouting

open Regex

/-! ### Answers that are the same unless they fail -/

/-- **One consultation answers what another one does**, unless it fails with one of some errors. -/
def Consult.SameUnless {α : Type} (errors : RouterError → Prop) (x y : Consult α) : Prop :=
  x.outcome = y.outcome ∨ ∃ e, errors e ∧ x.outcome = .error e

namespace Consult

variable {α β : Type} {errors : RouterError → Prop} {x y : Consult α} {f g : α → Consult β}

/-- Answers that are the same are gone on with alike. -/
theorem outcome_bind_congr (h : x.outcome = y.outcome)
    (hf : ∀ a, x.outcome = .ok a → (f a).outcome = (g a).outcome) :
    (x >>= f).outcome = (y >>= g).outcome := by
  cases hx : x.outcome with
  | ok a =>
    rw [bind_of_ok hx, bind_of_ok (h.symm.trans hx)]
    exact hf a hx
  | error e => rw [bind_of_error hx, bind_of_error (h.symm.trans hx)]

theorem SameUnless.refl (x : Consult α) : SameUnless errors x x := .inl rfl

theorem SameUnless.bind (h : SameUnless errors x y)
    (hf : ∀ a, x.outcome = .ok a → SameUnless errors (f a) (g a)) :
    SameUnless errors (x >>= f) (y >>= g) := by
  rcases h with h | ⟨e, he, h⟩
  · cases hx : x.outcome with
    | ok a =>
      have hy : y.outcome = .ok a := h.symm.trans hx
      rw [bind_of_ok hx, bind_of_ok hy]
      exact hf a hx
    | error e =>
      have hy : y.outcome = .error e := h.symm.trans hx
      rw [bind_of_error hx, bind_of_error hy]
      exact .inl rfl
  · rw [bind_of_error h]
    exact .inr ⟨e, he, rfl⟩

theorem SameUnless.trans {z : Consult α} (h : SameUnless errors x y) (h' : SameUnless errors y z) :
    SameUnless errors x z := by
  rcases h with h | h
  · rw [SameUnless, h]
    exact h'
  · exact .inr h

/-- A first piece with an answer does not matter. -/
theorem SameUnless.behind {a : α} {z : Consult β} (ha : x.outcome = .ok a)
    (h : SameUnless errors (f a) z) : SameUnless errors (x >>= f) z := by
  rw [bind_of_ok ha]
  exact h

end Consult

namespace Tree

variable {t : Tree} {view view' : View} {method : Option Method} {path text : String}
  {n : Node} {nodes front : List Node} {place g : NodeId} {h : Hit}

/-! ### What is searched for -/

/-- **What is searched for in a place**: the path in the root, and in a group what it hands on of
the text that was searched for around it. -/
inductive Handed (t : Tree) (view : View) (path : String) : NodeId → String → Prop
  /-- The whole path. -/
  | whole : Handed t view path root path
  /-- What a group hands on. -/
  | group {place : NodeId} {h : Hit} (mem : h.node ∈ t.nodes) (isIn : h.node.isIn place = true)
      (isGroup : h.node.isGroup = true) (compiles : view h.node.id = .ok h.compiled)
      (captures : h.compiled.matcher.bind (·.captures? h.text) = some h.trail)
      (around : Handed t view path place h.text) : Handed t view path h.node.id h.handed

/-- **A group that does not fit**: it matches what is searched for around it, and what it captures
does not fit the types of its parameters. -/
structure Misfit (t : Tree) (view : View) (path : String) (h : Hit) : Prop where
  /-- It is a node of the tree. -/
  mem : h.node ∈ t.nodes
  /-- It is a group. -/
  isGroup : h.node.isGroup = true
  /-- Its text is what is searched for in the place that it stands in. -/
  handed : ∃ place, h.node.isIn place = true ∧ t.Handed view path place h.text
  /-- It compiles. -/
  compiles : view h.node.id = .ok h.compiled
  /-- It matches the text. -/
  captures : h.compiled.matcher.bind (·.captures? h.text) = some h.trail
  /-- The captures do not fit. -/
  misfit : ¬h.compiled.schema.Fits h.trail

/-- What is searched for in a place comes from the root or from a group. -/
theorem Handed.root_or_group (h : t.Handed view path place text) :
    (root = place ∧ path = text) ∨ ∃ (around : NodeId) (hit : Hit), hit.node ∈ t.nodes ∧
      hit.node.isIn around = true ∧ view hit.node.id = .ok hit.compiled ∧
      hit.compiled.matcher.bind (·.captures? hit.text) = some hit.trail ∧
      t.Handed view path around hit.text ∧ hit.node.id = place ∧ hit.handed = text := by
  cases h with
  | whole => exact .inl ⟨rfl, rfl⟩
  | group mem isIn _ compiles captures around =>
    exact .inr ⟨_, _, mem, isIn, compiles, captures, around, rfl, rfl⟩

/-- **There is one text that is searched for in a place**, since there is one way to it. -/
theorem Handed.unique (hsound : t.IsSound) {text' : String} (h : t.Handed view path place text)
    (h' : t.Handed view path place text') : text = text' := by
  have hpos {n : Node} {around : NodeId} (hn : n ∈ t.nodes) (hin : n.isIn around = true) :
      root ≠ n.id := Nat.ne_of_lt (Nat.zero_lt_of_lt (hsound.lt_of_isIn hn hin))
  induction h generalizing text' with
  | whole =>
    rcases h'.root_or_group with ⟨-, htext⟩ | ⟨_, _, mem, isIn, -, -, -, hid, -⟩
    · exact htext
    · exact absurd hid.symm (hpos mem isIn)
  | @group around hit mem isIn _ compiles captures _ ih =>
    rcases h'.root_or_group with
      ⟨hid, -⟩ | ⟨around', hit', mem', isIn', compiles', captures', handed', hid, rfl⟩
    · exact absurd hid (hpos mem isIn)
    · have hnode : hit'.node = hit.node := hsound.eq_of_id mem' mem hid
      rw [hnode] at isIn' compiles'
      obtain rfl : around = around' :=
        Option.some.inj ((beq_iff_eq.mp isIn).symm.trans (beq_iff_eq.mp isIn'))
      rw [← ih handed', ← Except.ok.inj (compiles.symm.trans compiles')] at captures'
      rw [Hit.handed, Hit.handed, Option.some.inj (captures.symm.trans captures')]

/-- A group is not the root. -/
theorem IsSound.ne_root (hsound : t.IsSound) (hn : n ∈ t.nodes) (hgroup : n.isGroup = true) :
    n.id ≠ root := by
  intro hid
  obtain ⟨r, hr, hkind, -⟩ := hsound.atRoot
  obtain rfl := hsound.eq_of_id hn (List.mem_of_getElem? hr) (hid.trans (hsound.number hr).symm)
  rw [Node.isGroup, hkind] at hgroup
  cases hgroup

/-! ### Routes outside of the group -/

theorem bindParams_without (hsound : t.IsSound) (hg : g ≠ root)
    (hout : t.isWithin g place = false) (clean : Params) :
    (t.without g).bindParams place clean = t.bindParams place clean := by
  have hvalue (name : String) (v : Value) :
      (t.without g).bindValue place name v = t.bindValue place name v := by
    rw [bindValue, bindValue, binderIn?, binderIn?, nearest?_without hsound hg hout]
  rw [bindParams, bindParams]
  generalize Params.empty = bound
  induction clean.entries generalizing bound with
  | nil => rfl
  | cons e entries ih => simp only [bindEntries, hvalue, ih]

/-- **Routes outside of the group match what they did.** -/
theorem matchFirst_without (hsound : t.IsSound) (hg : g ≠ root)
    (hview : ∀ id, t.isWithin g id = false → view' id = view id)
    (hout : ∀ n ∈ nodes, t.isWithin g n.id = false) :
    (t.without g).matchFirst view' text nodes = t.matchFirst view text nodes := by
  induction nodes with
  | nil => rfl
  | cons n nodes ih =>
    obtain ⟨hn, hnodes⟩ := List.forall_mem_cons.mp hout
    have hroute : (t.without g).matchRoute view' n text = t.matchRoute view n text := by
      simp only [matchRoute, Consult.node, hview n.id hn, bindParams_without hsound hg hn]
    rw [matchFirst, matchFirst, hroute, ih hnodes]

/-- A route in a place outside of the group is outside of it, since it is not the group. -/
theorem IsSound.isWithin_of_answersTo (hsound : t.IsSound) {group : Node} (hgroup : group ∈ t.nodes)
    (hisGroup : group.isGroup = true) (hout : t.isWithin group.id place = false)
    (hn : n ∈ t.nodes) {own : Option Method} (hturn : (n.isIn place && n.answersTo own) = true) :
    t.isWithin group.id n.id = false := by
  obtain ⟨hin, hanswers⟩ := Bool.and_eq_true_iff.mp hturn
  obtain ⟨action, hkind⟩ := Node.isRoute_of_answersTo hanswers
  have hne : n.id ≠ group.id := by
    intro hid
    obtain rfl := hsound.eq_of_id hn hgroup hid
    rw [Node.isGroup, hkind] at hisGroup
    cases hisGroup
  rw [hsound.isWithin_eq hn hin, hout, beq_eq_false_iff_ne.mpr hne]
  rfl

/-- **The routes of a place outside of the group** are those that they were. -/
theorem candidates_without (hsound : t.IsSound) {group : Node} (hgroup : group ∈ t.nodes)
    (hisGroup : group.isGroup = true) (hsub : nodes ⊆ t.nodes)
    (hout : t.isWithin group.id place = false) :
    candidates (nodes.map (t.unlessWithin group.id)) place method = candidates nodes place method ∧
      ∀ n ∈ candidates nodes place method, t.isWithin group.id n.id = false := by
  have houtside (n : Node) (hn : n ∈ nodes) (own : Option Method)
      (hturn : (n.isIn place && n.answersTo own) = true) : t.isWithin group.id n.id = false :=
    hsound.isWithin_of_answersTo hgroup hisGroup hout (hsub hn) hturn
  have hpart (own : Option Method) :
      (nodes.map (t.unlessWithin group.id)).filter (fun n => n.isIn place && n.answersTo own) =
        nodes.filter fun n => n.isIn place && n.answersTo own := by
    rw [List.filter_map]
    have hsame : nodes.filter ((fun n => n.isIn place && n.answersTo own) ∘
        t.unlessWithin group.id) = nodes.filter fun n => n.isIn place && n.answersTo own := by
      refine List.filter_congr fun n hn => ?_
      change ((t.unlessWithin group.id n).isIn place && _) = _
      cases hwithin : t.isWithin group.id n.id with
      | false => rw [unlessWithin_eq hwithin]
      | true =>
        -- it was no route of the place, and what is left of it is not a route at all
        have hturn : (n.isIn place && n.answersTo own) = false :=
          Bool.eq_false_iff.mpr fun hturn =>
            Bool.false_ne_true ((houtside n hn own hturn).symm.trans hwithin)
        rw [hturn, unlessWithin_of_isWithin hwithin]
        exact Bool.and_false _
    rw [hsame]
    refine (List.map_congr_left fun n hn => ?_).trans (List.map_id _)
    obtain ⟨hn, hturn⟩ := List.mem_filter.mp hn
    exact unlessWithin_eq (houtside n hn own hturn)
  constructor
  · cases method with
    | none => rw [candidates.eq_def, candidates.eq_def, hpart]
    | some m => rw [candidates, candidates, hpart, hpart]
  · intro n hn
    obtain ⟨hmem, hin, own, action, hkind, -⟩ := mem_candidates_iff.mp hn
    refine houtside n hmem own ?_
    rw [hin, Node.answersTo_of_kind hkind]
    exact beq_self_eq_true own

/-! ### The search -/

/-- **The search in a group fails**, for what the group hands on. -/
def FailsIn (t : Tree) (view : View) (method : Option Method) (h : Hit) (e : RouterError) : Prop :=
  (t.matchIn view method t.nodes h.node.id h.handed).outcome = .error e

/-- **A group that does not fit is gone past**, unless the search in it fails. -/
theorem matchGroups_misfit (hsound : t.IsSound) (hmisfit : t.Misfit view path h)
    (hnodes : t.nodes = front ++ h.node :: nodes) (hin : h.node.isIn place = true) :
    Consult.SameUnless (t.FailsIn view method h)
      (t.matchGroups view method (h.node :: nodes) place h.text)
      (t.matchGroups view method nodes place h.text) := by
  have hclean : h.compiled.schema.clean? h.trail = none := by
    rw [← Option.not_isSome_iff_eq_none, CompiledSchema.clean?_isSome_iff]
    exact hmisfit.misfit
  rw [matchGroups_group (Bool.and_eq_true_iff.mpr ⟨hmisfit.isGroup, hin⟩)]
  refine .behind (Consult.node_eq_ok.mpr hmisfit.compiles) ?_
  rw [hmisfit.captures]
  dsimp only
  cases hinside : (t.matchIn view method nodes h.node.id h.handed).outcome with
  | error e =>
    have hfails : t.FailsIn view method h e := by
      rw [FailsIn, hnodes, List.append_cons, matchIn_append (hsound.isIn_eq_false hnodes)]
      exact hinside
    exact .inr ⟨e, hfails, congrArg Consult.outcome (Consult.bind_of_error hinside)⟩
  | ok inside =>
    -- whatever has been found in the group, its own values undo the match
    refine .behind hinside ?_
    rw [hclean]
    cases inside <;> exact .refl _

/-- What stands in the group is no group in the tree without it. -/
theorem vacant_of_isWithin (hwithin : t.isWithin g n.id = true) :
    ((t.unlessWithin g n).isGroup && (t.unlessWithin g n).isIn place) = false := by
  rw [unlessWithin_of_isWithin hwithin]
  rfl

/-- **The group itself is gone past**, and nothing is in its place in the other tree. -/
theorem matchGroups_without_self (hsound : t.IsSound) (hmisfit : t.Misfit view path h)
    (hnodes : t.nodes = front ++ h.node :: nodes) (hin : h.node.isIn place = true)
    (hhanded : t.Handed view path place text)
    (hnext : Consult.SameUnless (t.FailsIn view method h)
      (t.matchGroups view method nodes place text)
      ((t.without h.node.id).matchGroups view' method (nodes.map (t.unlessWithin h.node.id)) place
        text)) :
    Consult.SameUnless (t.FailsIn view method h)
      (t.matchGroups view method (h.node :: nodes) place text)
      ((t.without h.node.id).matchGroups view' method
        ((h.node :: nodes).map (t.unlessWithin h.node.id)) place text) := by
  obtain ⟨around, hin', hhanded'⟩ := hmisfit.handed
  obtain rfl : place = around :=
    Option.some.inj ((beq_iff_eq.mp hin).symm.trans (beq_iff_eq.mp hin'))
  obtain rfl : h.text = text := hhanded'.unique hsound hhanded
  have hwithin : t.isWithin h.node.id h.node.id = true := by
    rw [hsound.isWithin_eq hmisfit.mem hin, beq_self_eq_true]
    rfl
  rw [List.map_cons, matchGroups_skip (vacant_of_isWithin hwithin)]
  exact (matchGroups_misfit hsound hmisfit hnodes hin).trans hnext

section Search

variable (hsound : t.IsSound) (hmisfit : t.Misfit view path h)
  (hview : ∀ id, t.isWithin h.node.id id = false → view' id = view id)

include hsound hmisfit hview

/-- A level outside of the group is searched as before, if its groups are. -/
theorem matchIn_without_of_groups (hsub : nodes ⊆ t.nodes)
    (hout : t.isWithin h.node.id place = false)
    (hgroups : Consult.SameUnless (t.FailsIn view method h)
      (t.matchGroups view method nodes place text)
      ((t.without h.node.id).matchGroups view' method (nodes.map (t.unlessWithin h.node.id)) place
        text)) :
    Consult.SameUnless (t.FailsIn view method h) (t.matchIn view method nodes place text)
      ((t.without h.node.id).matchIn view' method (nodes.map (t.unlessWithin h.node.id)) place
        text) := by
  have hg := hsound.ne_root hmisfit.mem hmisfit.isGroup
  have hroutes : candidates _ place method = candidates nodes place method ∧ _ :=
    candidates_without hsound hmisfit.mem hmisfit.isGroup hsub hout
  rw [matchIn, matchIn, hroutes.1, matchFirst_without hsound hg hview hroutes.2]
  refine (Consult.SameUnless.refl _).bind fun found _ => ?_
  cases found with
  | some found => exact .refl _
  | none => exact hgroups

/-- **Another group is searched as before**, if the level in it is, and so are the nodes behind it. -/
theorem matchGroups_without_other (hsub : n :: nodes ⊆ t.nodes)
    (hgroup : (n.isGroup && n.isIn place) = true) (hkept : t.isWithin h.node.id n.id = false)
    (hhanded : t.Handed view path place text)
    (hinside : ∀ inside, t.Handed view path n.id inside →
      Consult.SameUnless (t.FailsIn view method h) (t.matchGroups view method nodes n.id inside)
        ((t.without h.node.id).matchGroups view' method (nodes.map (t.unlessWithin h.node.id)) n.id
          inside))
    (hnext : Consult.SameUnless (t.FailsIn view method h)
      (t.matchGroups view method nodes place text)
      ((t.without h.node.id).matchGroups view' method (nodes.map (t.unlessWithin h.node.id)) place
        text)) :
    Consult.SameUnless (t.FailsIn view method h)
      (t.matchGroups view method (n :: nodes) place text)
      ((t.without h.node.id).matchGroups view' method
        ((n :: nodes).map (t.unlessWithin h.node.id)) place text) := by
  have hg := hsound.ne_root hmisfit.mem hmisfit.isGroup
  obtain ⟨hisGroup, hin⟩ := Bool.and_eq_true_iff.mp hgroup
  obtain ⟨hn, hsub⟩ := List.cons_subset.mp hsub
  -- both searches see the same of this group, and go into it in the same way
  have hnode : Consult.node view' n.id = Consult.node view n.id := by
    rw [Consult.node, Consult.node, hview n.id hkept]
  rw [List.map_cons, unlessWithin_eq hkept, matchGroups_group hgroup, matchGroups_group hgroup,
    hnode]
  refine (Consult.SameUnless.refl _).bind fun compiled hcompiled => ?_
  cases htrail : compiled.matcher.bind (·.captures? text) with
  | none => exact hnext
  | some trail =>
    have hhandedInside : t.Handed view path n.id ((trail.text? restName).getD "") :=
      .group (h := ⟨n, compiled, text, trail⟩) hn hin hisGroup (Consult.node_eq_ok.mp hcompiled)
        htrail hhanded
    refine (matchIn_without_of_groups hsound hmisfit hview hsub hkept
      (hinside _ hhandedInside)).bind fun inside _ => ?_
    cases inside with
    | none => exact hnext
    | some found =>
      cases compiled.schema.clean? trail with
      | none => exact hnext
      | some clean =>
        dsimp only
        rw [bindParams_without hsound hg hkept]
        exact .refl _

/-- **Groups outside of the group are searched as before**, by induction on the nodes still to be
gone through. -/
theorem matchGroups_without (hnodes : t.nodes = front ++ nodes)
    (hhanded : t.Handed view path place text) (hout : t.isWithin h.node.id place = false) :
    Consult.SameUnless (t.FailsIn view method h) (t.matchGroups view method nodes place text)
      ((t.without h.node.id).matchGroups view' method (nodes.map (t.unlessWithin h.node.id)) place
        text) := by
  induction nodes generalizing front place text with
  | nil => exact .refl _
  | cons n later ih =>
    have hlater : t.nodes = (front ++ [n]) ++ later := hnodes.trans (List.append_cons ..)
    have hsub : n :: later ⊆ t.nodes := hnodes ▸ List.subset_append_right front _
    have hn : n ∈ t.nodes := hsub List.mem_cons_self
    have hnext := ih hlater hhanded hout
    cases hgroup : n.isGroup && n.isIn place with
    | false =>
      rw [List.map_cons, matchGroups_skip hgroup]
      cases hwithin : t.isWithin h.node.id n.id with
      | true => rwa [matchGroups_skip (vacant_of_isWithin hwithin)]
      | false => rwa [unlessWithin_eq hwithin, matchGroups_skip hgroup]
    | true =>
      have hin := (Bool.and_eq_true_iff.mp hgroup).2
      by_cases hid : n.id = h.node.id
      · obtain rfl : n = h.node := hsound.eq_of_id hn hmisfit.mem hid
        exact matchGroups_without_self hsound hmisfit hnodes hin hhanded hnext
      · have hkept : t.isWithin h.node.id n.id = false := by
          rw [hsound.isWithin_eq hn hin, hout, beq_eq_false_iff_ne.mpr hid]
          rfl
        exact matchGroups_without_other hsound hmisfit hview hsub hgroup hkept hhanded
          (fun inside hinside => ih hlater hinside hkept) hnext

/-- **A path is searched for as in the tree without the group**, unless the search in the group
fails. -/
theorem match?_without : Consult.SameUnless (t.FailsIn view method h) (t.match? view method path)
    ((t.without h.node.id).match? view' method path) := by
  have hout := hsound.isWithin_root (hsound.ne_root hmisfit.mem hmisfit.isGroup)
  rw [match?_eq_matchIn, match?_eq_matchIn]
  exact matchIn_without_of_groups hsound hmisfit hview (List.Subset.refl _) hout
    (matchGroups_without hsound hmisfit hview (List.nil_append _).symm .whole hout)

end Search

end Tree

namespace Router

variable {r : Router} {method : Option Method} {path : String} {g id route : NodeId} {m : RouteMatch}
  {h : Hit}

/-- **The router without a place**: the node and everything that stands in it are gone, and so is
what has been kept of them. -/
def without (r : Router) (place : NodeId) : Router :=
  { r with
    tree := r.tree.without place
    kept := r.kept.filter fun e => !r.tree.isWithin place e.1 }

/-- **No action asks the router anything.** -/
def AsksNothing (r : Router) : Prop :=
  ∀ route action handler, r.resolve route action = .ok handler →
    ∀ ctx, ∃ result, handler ctx = .answer result

/-! ### Outside of the group -/

section Outside

variable (hsound : r.tree.IsSound) (hg : g ≠ Tree.root)

include hsound hg

theorem view_without (hout : r.tree.isWithin g id = false) :
    (r.without g).view id = r.view id := by
  have hlookup : (r.without g).kept.lookup id = r.kept.lookup id := by
    refine @lookup_filter _ _ _ _ (fun id => !r.tree.isWithin g id) id ?_ r.kept
    rw [hout]
    rfl
  rw [view, view, hlookup]
  cases r.kept.lookup id with
  | some result => rfl
  | none => exact Tree.compileNode_without hsound hg hout _

omit hg in
theorem label_without (hout : r.tree.isWithin g route = false) :
    (r.without g).label route = r.label route :=
  congrArg (fun n => (Option.map Node.label n).getD "") (hsound.get?_without hout)

/-- Actions mean what they did. -/
theorem resolve_without (hout : r.tree.isWithin g route = false) (action : Action) :
    (r.without g).resolve route action = r.resolve route action := by
  have hlabel : (r.without g).label route = r.label route := label_without hsound hout
  have hhook : (r.without g).tree.hook? route = r.tree.hook? route :=
    Tree.nearest?_without hsound hg hout _
  have hfactory : (r.without g).tree.factory? route = r.tree.factory? route :=
    Tree.nearest?_without hsound hg hout _
  have hqualify (separator name : String) :
      (r.without g).tree.qualify route separator name = r.tree.qualify route separator name := by
    have hchain : (r.without g).tree.chain route = r.tree.chain route :=
      Tree.chain_without hsound hg hout
    rw [Tree.qualify, Tree.qualify, Tree.qualifiers, Tree.qualifiers, hchain]
  have hcontroller (name : String) :
      (r.without g).controller? route name = r.controller? route name := by
    rw [controller?, controller?, hfactory]
    rfl
  have htranslate : (r.without g).translate route action = r.translate route action := by
    rw [translate.eq_def, translate.eq_def, hhook, hlabel]
  have hoptions : (r.without g).options = r.options := rfl
  simp only [resolve, htranslate, hlabel, hoptions, hqualify, hcontroller]

/-- Actions that ask nothing answer what they did, however paths are dispatched. -/
theorem run_without (hquiet : r.AsksNothing) {ctx : Context}
    (hout : r.tree.isWithin g ctx.route = false) (action : Action)
    (dispatch dispatch' : String → Option Method → Consult Value) :
    (r.without g).run dispatch' action ctx = r.run dispatch action ctx := by
  rw [run, run, resolve_without hsound hg hout, label_without hsound hout]
  cases hresolve : r.resolve ctx.route action with
  | error e => rw [Consult.bind_of_error rfl, Consult.bind_of_error rfl]
  | ok handler =>
    obtain ⟨result, hanswer⟩ := hquiet _ _ _ hresolve ctx
    have hlift : (Consult.lift (.ok handler) : Consult Handler) = pure handler := rfl
    rw [hlift, pure_bind, pure_bind, hanswer, converse, converse]

theorem execute_without (hquiet : r.AsksNothing) (hout : r.tree.isWithin g route = false)
    (m : RouteMatch) (dispatch dispatch' : String → Option Method → Consult Value) :
    (r.without g).execute dispatch' route m = r.execute dispatch route m := by
  have haction : (r.without g).action route = r.action route := by
    have hget : (r.without g).tree.get? route = r.tree.get? route := hsound.get?_without hout
    rw [Router.action, Router.action, hget, label_without hsound hout]
  have herror : (r.without g).tree.errorAction? route = r.tree.errorAction? route :=
    Tree.nearest?_without hsound hg hout _
  have hrun (action : Action) (failure : Option RouterError) :
      (r.without g).run dispatch' action ⟨route, m, m.params.values, failure⟩ =
        r.run dispatch action ⟨route, m, m.params.values, failure⟩ :=
    run_without hsound hg hquiet hout action dispatch dispatch'
  simp only [execute, haction, herror, hrun]

end Outside

/-! ### What is answered -/

/-- **A path has the route that it has without the group**, unless the search in the group fails. -/
theorem findMatch_without (hsound : r.tree.IsSound) (hmisfit : r.tree.Misfit r.view path h) :
    Consult.SameUnless (r.tree.FailsIn r.view method h) (r.findMatch path method)
      ((r.without h.node.id).findMatch path method) := by
  have hview : ∀ id, r.tree.isWithin h.node.id id = false →
      (r.without h.node.id).view id = r.view id :=
    fun id => view_without hsound (hsound.ne_root hmisfit.mem hmisfit.isGroup)
  refine (Tree.match?_without hsound hmisfit hview).bind fun found _ => ?_
  cases found <;> exact .refl _

/-- What is found without the group is outside of it. -/
theorem isWithin_of_findMatch (hsound : r.tree.IsSound) (hg : g ≠ Tree.root)
    (hfound : ((r.without g).findMatch path method).outcome = .ok (route, m)) :
    r.tree.isWithin g route = false := by
  obtain ⟨n, own, action, hn, hkind⟩ := route_of_findMatch (hsound.without hg) hfound
  obtain ⟨o, ho, rfl⟩ := Option.map_eq_some_iff.mp ((Tree.get?_without ..).symm.trans hn)
  refine Bool.eq_false_iff.mpr fun hwithin => ?_
  rw [Tree.unlessWithin_of_isWithin ((hsound.number ho).symm ▸ hwithin)] at hkind
  cases hkind

/-- **A group that does not fit is passed over.** A path is answered as it is without the group and
everything that stands in it, unless the search in the group fails, and then that is the answer. A
dispatch runs the route that is found without the group, whatever answers the paths that actions ask
for; it is the dispatch of the router without the group, as long as no action asks for any. -/
theorem misfit_passed_over (hr : r.Reachable) (method : Option Method)
    (hmisfit : r.tree.Misfit r.view path h) :
    ((r.findMatch path method).outcome =
        ((r.without h.node.id).findMatch path method).outcome ∧
      (∀ inner, (r.dispatch inner path method).outcome =
        ((r.without h.node.id).findMatch path method >>= fun found =>
          r.execute inner found.1 found.2).outcome) ∧
      (r.AsksNothing → ∀ inner inner', (r.dispatch inner path method).outcome =
        ((r.without h.node.id).dispatch inner' path method).outcome)) ∨
    ∃ e, r.tree.FailsIn r.view method h e ∧ (r.findMatch path method).outcome = .error e ∧
      ∀ inner, (r.dispatch inner path method).outcome = .error e := by
  have hsound := hr.isSound.tree
  have hg := hsound.ne_root hmisfit.mem hmisfit.isGroup
  have hfound : Consult.SameUnless _ (r.findMatch path method) _ := findMatch_without hsound hmisfit
  rcases hfound with hsame | ⟨e, hfails, herror⟩
  · refine .inl ⟨hsame, fun inner => ?_, fun hquiet inner inner' => ?_⟩
    · exact Consult.outcome_bind_congr hsame fun _ _ => rfl
    · refine Consult.outcome_bind_congr hsame fun found hfound => ?_
      have hout := isWithin_of_findMatch hsound hg (hsame.symm.trans hfound)
      exact congrArg Consult.outcome (execute_without hsound hg hquiet hout _ _ _).symm
  · exact .inr ⟨e, hfails, herror, fun inner =>
      congrArg Consult.outcome (Consult.bind_of_error herror)⟩

/-- A group of the root does not fit a path if it captures something and has no clean values. -/
theorem exists_misfit {n : Node} (hsound : r.tree.IsSound) (hn : r.tree.get? id = some n)
    (hgroup : n.isGroup = true) (hin : n.isIn Tree.root = true)
    (hvalues : (r.view id).toOption.bind (fun c =>
      (c.matcher.bind (·.captures? path)).map (c.schema.clean? ·)) = some none) :
    ∃ h : Hit, h.node = n ∧ r.tree.Misfit r.view path h := by
  obtain ⟨c, hc, hvalues⟩ := Option.bind_eq_some_iff.mp hvalues
  obtain ⟨trail, htrail, hclean⟩ := Option.map_eq_some_iff.mp hvalues
  obtain rfl := hsound.number hn
  have hview : r.view n.id = .ok c := by
    cases hview : r.view n.id with
    | ok c' =>
      rw [hview] at hc
      exact congrArg Except.ok (Option.some.inj hc)
    | error e =>
      rw [hview] at hc
      cases hc
  refine ⟨⟨n, c, path, trail⟩, rfl, List.mem_of_getElem? hn, hgroup, ⟨_, hin, .whole⟩, hview,
    htrail, fun hfits => ?_⟩
  rw [← CompiledSchema.clean?_isSome_iff, hclean] at hfits
  cases hfits

/-- A page in a group for numbers. -/
def pageInNumber : Router := ofGroup {} "/\x7bid#int\x7d" "/x" (.identifier "")

set_option maxRecDepth 4000 in
/-- A number that is too large. -/
theorem misfit_passed_over_number : ∃ h : Hit, h.node.id = 1 ∧
    pageInNumber.tree.Misfit pageInNumber.view "/99999999999999999999/x" h ∧
    ((pageInNumber.findMatch "/99999999999999999999/x" none).outcome =
        ((pageInNumber.without h.node.id).findMatch "/99999999999999999999/x" none).outcome ∨
      ∃ e, pageInNumber.tree.FailsIn pageInNumber.view none h e ∧
        (pageInNumber.findMatch "/99999999999999999999/x" none).outcome = .error e) := by
  have hr : pageInNumber.Reachable := reachable_ofGroup _ _ _ _
  have hvalues : (pageInNumber.view 1).toOption.bind (fun c =>
      (c.matcher.bind (·.captures? "/99999999999999999999/x")).map (c.schema.clean? ·)) =
        some none := by cbv
  obtain ⟨h, hnode, hmisfit⟩ := exists_misfit hr.isSound.tree rfl rfl rfl hvalues
  refine ⟨h, by rw [hnode]; rfl, hmisfit, ?_⟩
  rcases misfit_passed_over hr none hmisfit with ⟨hsame, -⟩ | ⟨e, hfails, herror, -⟩
  · exact .inl hsame
  · exact .inr ⟨e, hfails, herror⟩

/-- A page with a strict binder, in a group for numbers. -/
def strictInNumber : Router :=
  ((new {}).runAll
    [.group "/\x7bid#int\x7d" none (.step false (.route "/\x7bslug\x7d" none none (.identifier "A@b")
      [.bindIn "slug" fun _ => .error (.message "no such page")]) .done)]).1

set_option maxRecDepth 4000 in
/-- The group does not fit, and still the binder in it is asked and fails. -/
theorem misfit_is_searched :
    (∃ h : Hit, h.node.id = 1 ∧
      strictInNumber.tree.Misfit strictInNumber.view "/99999999999999999999/x" h) ∧
    (strictInNumber.findMatch "/99999999999999999999/x" none).outcome =
      .error (.binderFailed "slug" (.message "no such page")) ∧
    ((strictInNumber.without 1).findMatch "/99999999999999999999/x" none).outcome =
      .error (.routeNotFound none "/99999999999999999999/x") := by
  have hr : strictInNumber.Reachable := ⟨_, _, rfl⟩
  have hvalues : (strictInNumber.view 1).toOption.bind (fun c =>
      (c.matcher.bind (·.captures? "/99999999999999999999/x")).map (c.schema.clean? ·)) =
        some none := by cbv
  obtain ⟨h, hnode, hmisfit⟩ := exists_misfit hr.isSound.tree rfl rfl rfl hvalues
  exact ⟨⟨h, by rw [hnode]; rfl, hmisfit⟩, by cbv, by cbv⟩

end Router

end UrlRouting

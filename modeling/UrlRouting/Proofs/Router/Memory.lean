import Mathlib
import UrlRouting.Proofs.Router.Reachable

/-!
# What a question leaves behind

A question changes nothing of a router but what it keeps of its nodes, and what is kept was seen
before already. So the only trace of a question is that its nodes are kept from then on, where they
would else be compiled again later. This can be noticed only if a setting comes in between which
changes what one of them compiles to: a pattern or a type, set on the root, for a parameter that
asks for it (`UrlRouting.Tree.Hears`). Nodes below the root have all their settings when they are
registered.

So two routers are compared, one that was asked and one that was not (`UrlRouting.Router.Agrees`).
They give the same answers, and what they do next leaves them in agreement
(`UrlRouting.Router.Agrees.step`), and so a question, or a seal that fails, can be left out of a
list of operations, without any other answer being another one
(`UrlRouting.Router.answers_without`).
-/

namespace UrlRouting

/-! ### Settings that are heard -/

/-- **A node hears a setting of the root**, if that reaches one of its parameters. -/
def Tree.Hears (t : Tree) (id : NodeId) (s : Setting) : Prop :=
  ∃ n, t.get? id = some n ∧ ∃ p ∈ n.declared, s.Reaches t id p

section Hearing

variable {t t' : Tree} {id : NodeId} {s : Setting} {given : List Setting}

namespace Tree.Extends

variable (hext : t.Extends Tree.root given t') (h : t.IsSound) (h' : t'.IsSound) (hid : id < t.size)

include hext h h' hid

/-- What reaches a parameter does not change. -/
theorem reaches_iff {p : Parameter} : s.Reaches t' id p ↔ s.Reaches t id p := by
  obtain ⟨ss, -, hchain⟩ := hext.chain_eq h h' hid
  -- below the root nothing is changed
  have hbelow (P : Node → Prop) : (∀ n ∈ t'.chain id, n.id ≠ Tree.root → P n) ↔
      ∀ n ∈ t.chain id, n.id ≠ Tree.root → P n := by
    rw [hchain]
    constructor
    · intro hall n hn hne
      have hsame : configured Tree.root ss n = n := if_neg hne
      exact hsame ▸ hall _ (List.mem_map_of_mem hn) (by rwa [configured_id])
    · intro hall n hn hne
      obtain ⟨m, hm, rfl⟩ := List.mem_map.mp hn
      rw [configured_id] at hne
      have hsame : configured Tree.root ss m = m := if_neg hne
      exact hsame.symm ▸ hall m hm hne
  cases s with
  | pattern name regex =>
    exact and_congr_right' (and_congr_right' (hbelow (·.settings.patterns.lookup name = none)))
  | paramType name typeName =>
    exact and_congr_right' (and_congr_right' (hbelow (·.settings.types.lookup name = none)))
  | _ => rfl

theorem hears_iff : t'.Hears id s ↔ t.Hears id s := by
  obtain ⟨ss, -, hold⟩ := hext.old
  obtain ⟨n, hn⟩ : ∃ n, t.get? id = some n := ⟨_, List.getElem?_eq_getElem hid⟩
  have hn' : t'.get? id = some (configured Tree.root ss n) := by
    rw [hold id hid, get?_configure, hn, Option.map_some]
  have hdeclared : (configured Tree.root ss n).declared = n.declared := by
    rw [Node.declared, configured_schema, Node.declared]
  rw [Hears, Hears, hn, hn']
  simp only [Option.some.injEq, exists_eq_left', hdeclared, hext.reaches_iff h h' hid]

/-- **A node that hears none of the settings** compiles to the same as before. -/
theorem compileNode_eq (hdeaf : ∀ s ∈ given, ¬t.Hears id s) (defaultPattern : String) :
    t'.compileNode defaultPattern id = t.compileNode defaultPattern id := by
  obtain ⟨ss, hss, hold⟩ := hext.old
  have hsame : t'.compileNode defaultPattern id =
      (t.configure Tree.root ss).compileNode defaultPattern id := by
    refine compileNode_congr (h.configure Tree.root ss) h' ?_ (fun i hi => ?_) defaultPattern
    · rwa [size_configure]
    · exact hold i (Nat.lt_of_le_of_lt hi hid)
  rw [hsame]
  refine compileNode_configure_root h (fun n hn p hp s hs hreach => ?_) defaultPattern
  exact hdeaf s (hss hs) ⟨n, hn, p, hp, hreach⟩

end Tree.Extends

end Hearing

namespace Router

variable {r r' : Router} {asked : NodeId → Prop}

/-! ### Routers that agree -/

/-- **A router and one that was asked more**: they differ in what they keep only, and what the
latter keeps alone is of nodes that the question was about, and is what they still compile to. -/
structure Agrees (asked : NodeId → Prop) (r r' : Router) : Prop where
  /-- The routes are the same. -/
  tree : r.tree = r'.tree
  /-- The options are the same. -/
  options : r.options = r'.options
  /-- The controllers are the same. -/
  controllers : r.controllers = r'.controllers
  /-- They are sealed or open together. -/
  isSealed : r.isSealed = r'.isSealed
  /-- The one that was asked keeps all that the other one keeps. -/
  fewer : ∀ {id result}, r.kept.lookup id = some result → r'.kept.lookup id = some result
  /-- What it keeps besides could be compiled again. -/
  extra : ∀ {id result}, r'.kept.lookup id = some result → r.kept.lookup id = none →
    asked id ∧ r'.tree.compileNode r'.options.defaultPattern id = result

namespace Agrees

variable (h : Agrees asked r r')

include h

/-- **They see the same.** -/
theorem view : r.view = r'.view := by
  funext id
  cases hkept : r.kept.lookup id with
  | some result => rw [view_of_lookup hkept, view_of_lookup (h.fewer hkept)]
  | none =>
    have hfresh : r.view id = r'.tree.compileNode r'.options.defaultPattern id := by
      rw [Router.view, hkept, h.tree, h.options]
    cases hkept' : r'.kept.lookup id with
    | some result => rw [hfresh, view_of_lookup hkept', (h.extra hkept' hkept).2]
    | none => rw [hfresh, Router.view, hkept']

/-! ### The same answers -/

theorem findMatch (path : String) (method : Option Method) :
    r.findMatch path method = r'.findMatch path method := by
  rw [Router.findMatch, Router.findMatch, h.tree, h.view]

theorem url (name : String) (params : Params) (absolute : Bool) :
    r.url name params absolute = r'.url name params absolute := by
  rw [Router.url, Router.url, h.tree, h.view, h.options]

theorem resolve (route : NodeId) (action : Action) :
    r.resolve route action = r'.resolve route action := by
  have hlabel (id : NodeId) : r.label id = r'.label id := by rw [label, label, h.tree]
  have htranslate : r.translate route action = r'.translate route action := by
    rw [translate.eq_def, translate.eq_def, h.tree, hlabel]
  have hcontroller (name : String) : r.controller? route name = r'.controller? route name := by
    rw [controller?, controller?, h.tree, h.controllers]
  simp only [Router.resolve, htranslate, hlabel, hcontroller, h.tree, h.options]

section Running

variable (dispatch : String → Option Method → Consult Value)

theorem converse (reply : Reply) : r.converse dispatch reply = r'.converse dispatch reply := by
  induction reply with
  | answer result => rfl
  | url name params next ih =>
    rw [Router.converse, Router.converse, h.url]
    exact bind_congr fun answer => ih answer
  | dispatch path method next ih =>
    rw [Router.converse, Router.converse]
    exact bind_congr fun answer => ih answer

theorem run (action : Action) (ctx : Context) :
    r.run dispatch action ctx = r'.run dispatch action ctx := by
  simp only [Router.run, h.resolve, h.converse, label, h.tree]

theorem execute (route : NodeId) (m : RouteMatch) :
    r.execute dispatch route m = r'.execute dispatch route m := by
  have haction : r.action route = r'.action route := by
    rw [action, action, label, label, h.tree]
  simp only [Router.execute, haction, h.run, h.tree]

end Running

theorem dispatch (inner : String → Option Method → Consult Value) :
    r.dispatch inner = r'.dispatch inner := by
  funext path method
  rw [Router.dispatch, Router.dispatch, h.findMatch]
  exact bind_congr fun found => h.execute inner found.1 found.2

theorem dispatchWithin (failure : RouterError) (depth : Nat) :
    r.dispatchWithin failure depth = r'.dispatchWithin failure depth := by
  induction depth with
  | zero => rfl
  | succ depth ih =>
    funext path method
    rw [Router.dispatchWithin, Router.dispatchWithin, ih, h.dispatch]

theorem sealUp : r.sealUp = r'.sealUp := by
  rw [Router.sealUp, Router.sealUp, h.isSealed, h.view, h.tree]

/-! ### Still in agreement -/

/-- Keeping the same nodes. -/
theorem keep (ids : List NodeId) : Agrees asked (r.keep ids) (r'.keep ids) where
  tree := by rw [tree_keep, tree_keep, h.tree]
  options := by rw [options_keep, options_keep, h.options]
  controllers := by rw [controllers_keep, controllers_keep, h.controllers]
  isSealed := by rw [isSealed_keep, isSealed_keep, h.isSealed]
  fewer {id result} hkept := by
    rw [lookup_keep] at hkept ⊢
    split at hkept
    · next hid => rwa [if_pos hid, ← h.view]
    · next hid => rw [if_neg hid, h.fewer hkept]
  extra {id result} hkept' hkept := by
    rw [lookup_keep] at hkept hkept'
    split at hkept
    · cases hkept
    · next hid =>
      rw [if_neg hid] at hkept'
      rw [tree_keep, options_keep]
      exact h.extra hkept' hkept

/-- Registering the same things, which the nodes in question do not hear. -/
theorem extend {t : Tree} {given : List Setting} (hsound : r'.tree.IsSound) (ht : t.IsSound)
    (hext : r'.tree.Extends Tree.root given t) (hasked : ∀ id, asked id → id < r'.tree.size)
    (hdeaf : ∀ s ∈ given, ∀ id, asked id → ¬r'.tree.Hears id s) :
    Agrees asked { r with tree := t } { r' with tree := t } where
  tree := rfl
  options := h.options
  controllers := h.controllers
  isSealed := h.isSealed
  fewer hkept := h.fewer hkept
  extra {id result} hkept' hkept := by
    obtain ⟨hid, rfl⟩ := h.extra hkept' hkept
    exact ⟨hid, hext.compileNode_eq hsound ht (hasked id hid) (fun s hs => hdeaf s hs id hid) _⟩

end Agrees

/-- **A registration depends on the tree only**, and changes nothing else, but for that of a
controller. -/
theorem registers_in_tree {op : Operation} (hop : op.target?.isSome) (t : Tree) :
    (∃ name c, op = .controller name c) ∨
      ∃ t' answer, ∀ r : Router, r.tree = t → r.perform op = ({ r with tree := t' }, answer) := by
  have hregister (reg : Registration) : ∃ t' answer, ∀ r : Router, r.tree = t →
      r.register reg = ({ r with tree := t' }, answer) := by
    cases hreg : reg.carryOut t Tree.root with
    | ok done => exact ⟨_, _, fun r hr => by rw [register, hr, hreg]⟩
    | error e =>
      refine ⟨t, .registered (.error e), fun r hr => ?_⟩
      subst hr
      rw [register, hreg]
  cases op with
  | route schema name method action => exact .inr (hregister _)
  | hidden schema name => exact .inr (hregister _)
  | group schema namePrefix plan =>
    refine .inr ?_
    cases hadd : t.add Tree.root schema none (.group namePrefix) with
    | ok added => exact ⟨_, _, fun r hr => by rw [perform, hr, hadd]⟩
    | error e =>
      refine ⟨t, .built (.error e) .done, fun r hr => ?_⟩
      subst hr
      rw [perform, hadd]
  | routes plan => exact .inr ⟨_, _, fun r hr => by rw [perform, hr]⟩
  | setting s => exact .inr ⟨_, _, fun r hr => by rw [perform, hr]⟩
  | controller name c => exact .inl ⟨name, c, rfl⟩
  | dispatch | findMatch | find | url | sealUp | isSealed | node | options => cases hop

/-- **Routers that agree answer a question alike**, and keep the same nodes for it. -/
theorem Agrees.perform_question (h : Agrees asked r r') {op : Operation} (hop : op.target? = none) :
    Agrees asked (r.perform op).1 (r'.perform op).1 ∧ (r.perform op).2 = (r'.perform op).2 := by
  cases op with
  | route | hidden | group | routes | setting | controller => cases hop
  | dispatch path method nesting =>
    rw [perform, perform, dispatchUpTo, dispatchUpTo, h.dispatchWithin, h.dispatch]
    exact ⟨h.keep _, rfl⟩
  | findMatch path method =>
    rw [perform, perform, h.findMatch]
    exact ⟨h.keep _, rfl⟩
  | find name =>
    rw [perform, perform, h.tree]
    exact ⟨h, rfl⟩
  | url name params absolute =>
    rw [perform, perform, h.url]
    exact ⟨h.keep _, rfl⟩
  | sealUp =>
    have hkeep := h.keep r'.sealUp.consulted
    rw [perform, perform, h.sealUp]
    split
    · exact ⟨⟨hkeep.tree, hkeep.options, hkeep.controllers, rfl, hkeep.fewer, hkeep.extra⟩, rfl⟩
    · exact ⟨hkeep, rfl⟩
  | isSealed =>
    rw [perform, perform, h.isSealed]
    exact ⟨h, rfl⟩
  | node id =>
    rw [perform, perform, h.tree]
    exact ⟨h, rfl⟩
  | options =>
    rw [perform, perform, h.options]
    exact ⟨h, rfl⟩

/-- **Routers that agree register alike**, if the nodes in question hear nothing of it. -/
theorem Agrees.perform_registration (h : Agrees asked r r') (hsound : r'.IsSound)
    (hasked : ∀ id, asked id → id < r'.tree.size) {op : Operation} (hop : op.target?.isSome)
    (hsound' : (r'.perform op).1.IsSound)
    (hext : r'.tree.Extends Tree.root op.rootSettings (r'.perform op).1.tree)
    (hdeaf : ∀ s ∈ op.rootSettings, ∀ id, asked id → ¬r'.tree.Hears id s) :
    Agrees asked (r.perform op).1 (r'.perform op).1 ∧ (r.perform op).2 = (r'.perform op).2 := by
  rcases registers_in_tree hop r'.tree with ⟨name, c, rfl⟩ | ⟨t, a, ht⟩
  · refine ⟨⟨h.tree, h.options, ?_, h.isSealed, h.fewer, h.extra⟩, rfl⟩
    exact congrArg ((name, c) :: ·) h.controllers
  · rw [ht r h.tree, ht r' rfl]
    rw [ht r' rfl] at hsound' hext
    exact ⟨h.extend hsound.tree hsound'.tree hext hasked hdeaf, rfl⟩

/-- **Routers that agree answer an operation alike**, and agree afterwards, if the nodes in question
hear nothing of what it sets on the root. -/
theorem Agrees.step (h : Agrees asked r r') (hsound : r'.IsSound)
    (hasked : ∀ id, asked id → id < r'.tree.size) (op : Operation)
    (hdeaf : ∀ s ∈ op.rootSettings, ∀ id, asked id → ¬r'.tree.Hears id s) :
    Agrees asked (r.step op).1 (r'.step op).1 ∧ (r.step op).2 = (r'.step op).2 := by
  obtain ⟨hsound', hext⟩ := hsound.step op
  rw [Router.step, Router.step, h.isSealed] at *
  split
  · exact ⟨h, rfl⟩
  · next hopen =>
    rw [hopen] at hsound' hext
    cases htarget : op.target? with
    | some target =>
      exact h.perform_registration hsound hasked (by rw [htarget]; rfl) hsound' hext hdeaf
    | none => exact h.perform_question htarget

/-- **Routers that agree give the same answers from then on**, by induction on the operations: what
the nodes in question hear does not change meanwhile. -/
theorem Agrees.runAll (h : Agrees asked r r') (hsound : r'.IsSound)
    (hasked : ∀ id, asked id → id < r'.tree.size) (ops : List Operation)
    (hdeaf : ∀ op ∈ ops, ∀ s ∈ op.rootSettings, ∀ id, asked id → ¬r'.tree.Hears id s) :
    (r.runAll ops).2 = (r'.runAll ops).2 := by
  induction ops generalizing r r' with
  | nil => rfl
  | cons op ops ih =>
    obtain ⟨hnext, hanswer⟩ := h.step hsound hasked op (hdeaf op List.mem_cons_self)
    obtain ⟨hsound', hext⟩ := hsound.step op
    have hrest := ih hnext hsound' (fun id hid => Nat.lt_of_lt_of_le (hasked id hid) hext.size_le)
      fun op' hop s hs id hid => by
        rw [hext.hears_iff hsound.tree hsound'.tree (hasked id hid)]
        exact hdeaf op' (List.mem_cons_of_mem op hop) s hs id hid
    rw [runAll_cons, runAll_cons, hanswer, hrest]

/-! ### Leaving a question out -/

/-- **An operation is the first to compile a node**: the node is kept after it, and was not kept
before. -/
def FirstCompiles (r : Router) (op : Operation) (id : NodeId) : Prop :=
  r.kept.lookup id = none ∧ ((r.step op).1.kept.lookup id).isSome

/-- **A step that leaves no trace but what is kept**: a question about paths, names or urls, or a
seal that fails. -/
def OnlyAsks (r : Router) : Operation → Prop
  | .dispatch _ _ _ | .findMatch _ _ | .find _ | .url _ _ _ => True
  | .sealUp => ∃ e, (r.step .sealUp).2 = .done (.error e)
  | _ => False

/-- After such a step a router agrees with itself before. -/
theorem agrees_step {op : Operation} (hop : r.OnlyAsks op) :
    Agrees (r.FirstCompiles op) r (r.step op).1 := by
  have hkeep (ids : List NodeId) (hstep : (r.step op).1 = r.keep ids) :
      Agrees (r.FirstCompiles op) r (r.step op).1 := by
    have hfirst {id : NodeId} (hnone : r.kept.lookup id = none) {result}
        (hkept : (r.step op).1.kept.lookup id = some result) : r.FirstCompiles op id :=
      ⟨hnone, Option.isSome_of_eq_some hkept⟩
    refine ⟨?_, ?_, ?_, ?_, fun {id result} hkept => ?_, fun {id result} hkept hnone => ?_⟩
    · rw [hstep, tree_keep]
    · rw [hstep, options_keep]
    · rw [hstep, controllers_keep]
    · rw [hstep, isSealed_keep]
    · rw [hstep, lookup_keep]
      split
      · rw [view_of_lookup hkept]
      · exact hkept
    · refine ⟨hfirst hnone hkept, ?_⟩
      rw [hstep, lookup_keep] at hkept
      split at hkept
      · rw [hstep, tree_keep, options_keep, ← Option.some.inj hkept, Router.view, hnone]
      · rw [hnone] at hkept
        cases hkept
  -- a question keeps what it was answered with, and a seal that fails does nothing else
  cases op with
  | dispatch | findMatch | url => exact hkeep _ rfl
  | find name => exact hkeep [] rfl
  | sealUp =>
    obtain ⟨e, he⟩ := hop
    refine hkeep r.sealUp.consulted ?_
    change (r.perform .sealUp).2 = _ at he
    change (r.perform .sealUp).1 = _
    rw [perform] at he ⊢
    split
    · next hok =>
      rw [hok] at he
      cases he
    · rfl
  | _ => cases hop

/-- **A question, or a seal that fails, can be left out** without changing any other answer, unless
a later operation sets something on the root that a node hears which that step was the first to
compile. -/
theorem answers_without (options : Options) (before later : List Operation) (op : Operation)
    (hop : ((new options).runAll before).1.OnlyAsks op)
    (hlater : ∀ op' ∈ later, ∀ s ∈ op'.rootSettings, ∀ id,
      ((new options).runAll before).1.FirstCompiles op id →
        ¬((new options).runAll before).1.tree.Hears id s) :
    ((new options).runAll (before ++ later)).2 =
      ((new options).runAll (before ++ op :: later)).2.eraseIdx before.length := by
  have hsound := isSound_runAll options before
  obtain ⟨hsound', hext⟩ := hsound.step op
  have hagrees := agrees_step hop
  have hasked : ∀ id, ((new options).runAll before).1.FirstCompiles op id →
      id < ((new options).runAll before).1.tree.size := by
    rintro id ⟨-, hkept⟩
    obtain ⟨result, hresult⟩ := Option.isSome_iff_exists.mp hkept
    obtain ⟨n, -, hn, -⟩ := hsound'.kept hresult
    rw [hagrees.tree]
    exact (List.getElem?_eq_some_iff.mp hn).1
  have hanswers := hagrees.runAll hsound'
    (fun id hid => Nat.lt_of_lt_of_le (hasked id hid) hext.size_le) later
    fun op' hop' s hs id hid => by
      rw [hext.hears_iff hsound.tree hsound'.tree (hasked id hid)]
      exact hlater op' hop' s hs id hid
  rw [runAll_append, runAll_append, runAll_cons, hanswers, ← length_runAll (new options) before]
  exact (List.eraseIdx_append_of_length_le (Nat.le_refl _) _).symm ▸ by
    rw [Nat.sub_self, List.eraseIdx_cons_zero]

theorem answers_without_first_match :
    (((new {}).runAll [.route "/\x7bid\x7d" none none (.identifier "")]).1.OnlyAsks
      (.findMatch "/abc" none)) ∧
    ((new {}).runAll ([.route "/\x7bid\x7d" none none (.identifier "")] ++
      [.setting (.paramType "page" "int"), .findMatch "/abc" none])).2 =
    ((new {}).runAll ([.route "/\x7bid\x7d" none none (.identifier "")] ++ .findMatch "/abc" none ::
      [.setting (.paramType "page" "int"), .findMatch "/abc" none])).2.eraseIdx 1 := by
  refine ⟨trivial, answers_without {} [.route "/\x7bid\x7d" none none (.identifier "")]
    [.setting (.paramType "page" "int"), .findMatch "/abc" none] (.findMatch "/abc" none) trivial ?_⟩
  have hnames : (((new {}).runAll [.route "/\x7bid\x7d" none none
      (.identifier "")]).1.tree.nodes.flatMap Node.declared).map (·.name) = ["id"] := by cbv
  -- no parameter is called `page`
  rintro op hop s hs id - ⟨n, hn, p, hp, hreach⟩
  have hp : p.name ∈ ["id"] := hnames ▸
    List.mem_map_of_mem (List.mem_flatMap.mpr ⟨n, List.mem_of_getElem? hn, hp⟩)
  rcases List.mem_pair.mp hop with rfl | rfl
  · obtain rfl := List.mem_singleton.mp hs
    exact absurd (hreach.1.trans (List.mem_singleton.mp hp)) (by decide)
  · cases hs

/-- Is the answer a route and a match? -/
def isMatch : Option Answer → Bool
  | some (.matched (.ok _)) => true
  | _ => false

set_option maxRecDepth 4000 in
/-- The first match decides what the parameter is: it is text from then on. Without it, the type
that is set afterwards would count. -/
theorem answers_depend_on_first_match :
    ((new {}).runAll ([.route "/\x7bid\x7d" none none (.identifier "")] ++
      [.setting (.paramType "id" "int"), .findMatch "/abc" none])).2 ≠
    ((new {}).runAll ([.route "/\x7bid\x7d" none none (.identifier "")] ++ .findMatch "/abc" none ::
      [.setting (.paramType "id" "int"), .findMatch "/abc" none])).2.eraseIdx 1 := by
  have hwithout : isMatch (((new {}).runAll
      ([.route "/\x7bid\x7d" none none (.identifier "")] ++
        [.setting (.paramType "id" "int"), .findMatch "/abc" none])).2[2]?) = false := by cbv
  have hwith : isMatch (((new {}).runAll
      ([.route "/\x7bid\x7d" none none (.identifier "")] ++ .findMatch "/abc" none ::
        [.setting (.paramType "id" "int"), .findMatch "/abc" none])).2.eraseIdx 1)[2]? = true := by
    cbv
  intro h
  rw [h, hwith] at hwithout
  cases hwithout

end Router

end UrlRouting

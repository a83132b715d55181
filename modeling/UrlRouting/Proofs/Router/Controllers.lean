import Mathlib
import UrlRouting.Proofs.Router.Outcome

/-!
# What an action is resolved to

An identifier becomes a handler with the help of others: a hook may translate it, and a factory or the
registered controllers are asked for the controller that it names. The handler does not show who was
asked and for what, and asking a second time, or asking another one when the first has no answer,
could go unnoticed. So resolving is written down once more with a note of every request
(`UrlRouting.Router.askResolve`). With its note left out it is `UrlRouting.Router.resolve`.

What should be asked is said in terms of a route and the nodes around it, from the inside out
(`UrlRouting.Tree.Upwards`): who is nearest to the route is asked, and nobody else
(`UrlRouting.Router.Resolves`). An identifier that has been translated is not translated again, and
where the nearest factory has no controller, there is none, whatever the factories around it and the
registered controllers have. This is `UrlRouting.Router.resolution`.
-/

namespace UrlRouting

/-! ### Requests -/

/-- A request that is made for an identifier. -/
inductive Request where
  /-- A hook is handed an identifier. -/
  | translate (hook : Hook) (text : String)
  /-- A factory is asked for a controller. -/
  | make (factory : ControllerFactory) (name : String)
  /-- The registered controllers are asked for one. -/
  | lookUp (name : String)

/-- An answer, and the requests that were made for it, in their order. -/
structure Asked (α : Type) where
  /-- The answer. -/
  answer : Except RouterError α
  /-- The requests. -/
  requests : List Request

namespace Asked

variable {α β : Type}

/-- Goes on with an answer, unless it is an error. -/
def andThen (x : Asked α) (f : α → Asked β) : Asked β :=
  match x.answer with
  | .ok a => ⟨(f a).answer, x.requests ++ (f a).requests⟩
  | .error e => ⟨.error e, x.requests⟩

instance : Monad Asked where
  pure a := ⟨.ok a, []⟩
  bind := andThen

/-- An answer that nobody is asked for. -/
def quiet (answer : Except RouterError α) : Asked α := ⟨answer, []⟩

/-- Makes a request that is answered. -/
def ask (request : Request) (answer : Except RouterError α) : Asked α := ⟨answer, [request]⟩

theorem answer_bind (x : Asked α) (f : α → Asked β) :
    (x >>= f).answer = x.answer >>= fun a => (f a).answer := by
  change (x.andThen f).answer = _
  rw [andThen]
  cases x.answer <;> rfl

end Asked

namespace Router

variable (r : Router)

/-- The action behind the nearest hook. -/
def askTranslate (route : NodeId) (action : Action) : Asked Action :=
  match r.tree.hook? route, action with
  | some hook, .identifier text =>
    .ask (.translate hook text) ((hook text).mapError (.actionFailed (r.label route)))
  | _, action => .quiet (.ok action)

/-- The controller of a qualified name, for a route. -/
def askController (route : NodeId) (name : String) : Asked (Option Controller) :=
  match r.tree.factory? route with
  | some make => .ask (.make make name) (.ok (make name))
  | none => .ask (.lookUp name) (.ok (r.controllers.lookup name))

/-- The handler for an action of a controller, if there is such a controller. -/
def handlerOf (qualified action : String) : Option Controller → Except RouterError Handler
  | none => .error (.controllerNotFound qualified)
  | some controller =>
    if controller.hasAction action then .ok (controller.call action)
    else .error (.actionNotFound qualified action)

/-- The handler that an identifier means for a route, as it is. -/
def askNamed (route : NodeId) (text : String) : Asked Handler :=
  match splitIdentifier? text with
  | none => .quiet (.error (.actionNotInvocable (r.label route)))
  | some (name, action) => do
    let qualified := r.tree.qualify route r.options.separator name
    let found ← r.askController route qualified
    .quiet (handlerOf qualified action found)

/-- The handler that an action means for a route, as it is. -/
def askPlain (route : NodeId) : Action → Asked Handler
  | .handler run => .quiet (.ok run)
  | .identifier text => r.askNamed route text

/-- The handler that an action means for a route. -/
def askResolve (route : NodeId) (action : Action) : Asked Handler :=
  r.askTranslate route action >>= r.askPlain route

variable {r} {route : NodeId}

theorem answer_askTranslate (action : Action) :
    (r.askTranslate route action).answer = r.translate route action := by
  unfold askTranslate translate
  cases r.tree.hook? route <;> cases action <;> rfl

theorem answer_askController (name : String) :
    (r.askController route name).answer = .ok (r.controller? route name) := by
  rw [askController, controller?]
  cases r.tree.factory? route <;> rfl

/-- **Without the note, it is resolving.** -/
theorem answer_askResolve (route : NodeId) (action : Action) :
    (r.askResolve route action).answer = r.resolve route action := by
  rw [askResolve, resolve, Asked.answer_bind, answer_askTranslate]
  congr 1
  funext translated
  cases translated with
  | handler run => rfl
  | identifier text =>
    dsimp only
    rw [askPlain, askNamed]
    cases splitIdentifier? text with
    | none => rfl
    | some parts =>
      obtain ⟨name, action⟩ := parts
      dsimp only
      rw [Asked.answer_bind, answer_askController]
      change handlerOf _ action _ = _
      cases r.controller? route (r.tree.qualify route r.options.separator name) <;> rfl

end Router

/-! ### A node and those around it -/

section Around

variable {t : Tree} {id : NodeId} {nodes : List Node} {α : Type} {pick : Settings → Option α} {a : α}

/-- **A node and those around it**, from the inside out: each stands in the next one, and the last one
stands in none. -/
inductive Tree.Upwards (t : Tree) : NodeId → List Node → Prop
  /-- A node that stands in none. -/
  | top {id : NodeId} {n : Node} (node : t.get? id = some n) (alone : n.parent = none) :
      Upwards t id [n]
  /-- A node that stands in another one. -/
  | within {id place : NodeId} {n : Node} {nodes : List Node} (node : t.get? id = some n)
      (parent : n.parent = some place) (around : Upwards t place nodes) : Upwards t id (n :: nodes)

theorem Tree.IsSound.upwards_chain (h : t.IsSound) {n : Node} (hn : t.get? id = some n) :
    t.Upwards id (t.chain id) := by
  induction id using Nat.strongRecOn generalizing n with
  | _ id ih =>
    have hmem : n ∈ t.nodes := List.mem_of_getElem? hn
    have hid : n.id = id := h.number hn
    rw [h.chain_eq hn]
    cases hparent : n.parent with
    | none => exact .top hn hparent
    | some place =>
      have hlt : place < n.id := h.lt_of_isIn hmem (beq_iff_eq.mpr hparent)
      obtain ⟨-, p, hp, heq, -, -⟩ := h.below n hmem (Nat.ne_of_gt (Nat.zero_lt_of_lt hlt))
      obtain rfl : place = p.id := Option.some.inj (hparent.symm.trans heq)
      exact .within hn hparent (ih p.id (hid ▸ hlt) (h.mem_iff.mp hp))

/-- **What the nearest of some nodes sets**: one of them sets it, and none in front of that one sets
anything. -/
def Nearest (nodes : List Node) (pick : Settings → Option α) (a : α) : Prop :=
  ∃ inner near outer, nodes = inner ++ near :: outer ∧ pick near.settings = some a ∧
    ∀ n ∈ inner, pick n.settings = none

/-- None of some nodes sets anything. -/
def Unset (nodes : List Node) (pick : Settings → Option α) : Prop :=
  ∀ n ∈ nodes, pick n.settings = none

theorem nearest_iff : Nearest (t.chain id) pick a ↔ t.nearest? id pick = some a :=
  List.findSome?_eq_some_iff.symm

theorem unset_iff : Unset (t.chain id) pick ↔ t.nearest? id pick = none :=
  List.findSome?_eq_none_iff.symm

/-- The namespaces that nodes set, from the last one to the first, those that are not empty. -/
def namespaces : List Node → List String
  | [] => []
  | n :: outer => namespaces outer ++ (n.settings.qualifier.filter (!·.isEmpty)).toList

theorem qualifiers_eq (t : Tree) (id : NodeId) : t.qualifiers id = namespaces (t.chain id) := by
  rw [Tree.qualifiers]
  induction t.chain id with
  | nil => rfl
  | cons n outer ih =>
    rw [List.reverse_cons, List.filterMap_append, List.filter_append, ih, namespaces]
    congr 1
    rw [List.filterMap_cons]
    cases n.settings.qualifier with
    | none => rfl
    | some name =>
      dsimp only
      rw [Option.filter_some, List.filterMap_nil, List.filter_cons, List.filter_nil]
      split <;> rfl

end Around

/-! ### Identifiers -/

namespace Router

variable {name action text : String}

theorem splitIdentifier?_of_not_mem (h : '@' ∉ text.toList) : splitIdentifier? text = none := by
  have hall : ∀ c ∈ text.toList, (c != '@') = true := fun c hc => bne_iff_ne.mpr fun heq => h (heq ▸ hc)
  rw [splitIdentifier?, List.dropWhile_eq_nil_iff.mpr hall]

/-- **An identifier is split at its first at sign.** -/
theorem splitIdentifier?_append (h : '@' ∉ name.toList) (action : String) :
    splitIdentifier? (name ++ "@" ++ action) = some (name, action) := by
  have hall : ∀ c ∈ name.toList, (c != '@') = true := fun c hc => bne_iff_ne.mpr fun heq => h (heq ▸ hc)
  have hsign : (name ++ "@" ++ action).toList = name.toList ++ '@' :: action.toList := by
    rw [String.toList_append, String.toList_append, List.append_assoc]
    rfl
  rw [splitIdentifier?, hsign, List.takeWhile_append_of_pos hall, List.dropWhile_append_of_pos hall,
    List.takeWhile_cons_of_neg (by decide), List.dropWhile_cons_of_neg (by decide)]
  dsimp only
  rw [List.append_nil, String.ofList_toList, String.ofList_toList]

/-- An identifier has a first at sign, or none. -/
theorem exists_split (text : String) :
    '@' ∉ text.toList ∨ ∃ name action, text = name ++ "@" ++ action ∧ '@' ∉ name.toList := by
  by_cases h : '@' ∈ text.toList
  · obtain ⟨front, behind, heq, hfront⟩ := List.eq_append_cons_of_mem h
    refine .inr ⟨String.ofList front, String.ofList behind, ?_, by rwa [String.toList_ofList]⟩
    rw [← String.ofList_toList (s := text), heq, List.append_cons, String.ofList_append,
      String.ofList_append]
  · exact .inl h

/-! ### The law -/

/-- The name of a controller behind the namespaces of some nodes. -/
def qualified (r : Router) (nodes : List Node) (name : String) : String :=
  r.options.separator.intercalate (namespaces nodes ++ [name])

/-- **Who is asked for a controller**: the nearest factory, or else the registered controllers. -/
inductive Provides (r : Router) (nodes : List Node) (name : String) :
    Option Controller → List Request → Prop
  /-- There is a nearest factory. What it answers counts, also if that is nothing. -/
  | factory {make : ControllerFactory} (near : Nearest nodes (·.factory) make) :
      Provides r nodes name (make name) [.make make name]
  /-- There is no factory. -/
  | registered (unset : Unset nodes (·.factory)) :
      Provides r nodes name (r.controllers.lookup name) [.lookUp name]

/-- **What an identifier means as it is**, for a route and the nodes around it. The controller it names
is asked for once, under the name behind the namespaces of the nodes, from the outside in. -/
inductive Means (r : Router) (route : NodeId) (nodes : List Node) :
    String → Except RouterError Handler → List Request → Prop
  /-- Without an at sign it means nothing. -/
  | bare {text : String} (bare : '@' ∉ text.toList) :
      Means r route nodes text (.error (.actionNotInvocable (r.label route))) []
  /-- There is no such controller. -/
  | noController {name action : String} {requests : List Request}
      (first : '@' ∉ name.toList)
      (provides : r.Provides nodes (r.qualified nodes name) none requests) :
      Means r route nodes (name ++ "@" ++ action)
        (.error (.controllerNotFound (r.qualified nodes name))) requests
  /-- The controller has no such action. -/
  | noAction {name action : String} {controller : Controller} {requests : List Request}
      (first : '@' ∉ name.toList)
      (provides : r.Provides nodes (r.qualified nodes name) (some controller) requests)
      (lacks : controller.hasAction action = false) :
      Means r route nodes (name ++ "@" ++ action)
        (.error (.actionNotFound (r.qualified nodes name) action)) requests
  /-- The action of the controller. -/
  | action {name action : String} {controller : Controller} {requests : List Request}
      (first : '@' ∉ name.toList)
      (provides : r.Provides nodes (r.qualified nodes name) (some controller) requests)
      (has : controller.hasAction action = true) :
      Means r route nodes (name ++ "@" ++ action) (.ok (controller.call action)) requests

/-- **What an action is resolved to**, for a route and the nodes around it, and what is asked for it. -/
inductive Resolves (r : Router) (route : NodeId) (nodes : List Node) :
    Action → Except RouterError Handler → List Request → Prop
  /-- A handler is left as it is. -/
  | handler (run : Handler) : Resolves r route nodes (.handler run) (.ok run) []
  /-- Without a hook, an identifier is taken as it is. -/
  | plain {text : String} {outcome : Except RouterError Handler} {requests : List Request}
      (unset : Unset nodes (·.hook)) (means : r.Means route nodes text outcome requests) :
      Resolves r route nodes (.identifier text) outcome requests
  /-- The nearest hook fails. -/
  | refused {text : String} {hook : Hook} {cause : ActionError} (near : Nearest nodes (·.hook) hook)
      (fails : hook text = .error cause) :
      Resolves r route nodes (.identifier text) (.error (.actionFailed (r.label route) cause))
        [.translate hook text]
  /-- The nearest hook gives a handler, which is left as it is. -/
  | given {text : String} {hook : Hook} {run : Handler} (near : Nearest nodes (·.hook) hook)
      (gives : hook text = .ok (.handler run)) :
      Resolves r route nodes (.identifier text) (.ok run) [.translate hook text]
  /-- The nearest hook gives an identifier, which is taken as it is. -/
  | renamed {text text' : String} {hook : Hook} {outcome : Except RouterError Handler}
      {requests : List Request} (near : Nearest nodes (·.hook) hook)
      (gives : hook text = .ok (.identifier text'))
      (means : r.Means route nodes text' outcome requests) :
      Resolves r route nodes (.identifier text) outcome (.translate hook text :: requests)

variable {r : Router} {route : NodeId}

/-- **The one who is to be asked is asked**, and nobody else. -/
theorem Provides.askController_eq {name : String} {found : Option Controller}
    {requests : List Request} (h : r.Provides (r.tree.chain route) name found requests) :
    r.askController route name = ⟨.ok found, requests⟩ := by
  rw [askController]
  cases h with
  | factory near =>
    rw [Tree.factory?, nearest_iff.mp near]
    rfl
  | registered unset =>
    rw [Tree.factory?, unset_iff.mp unset]
    rfl

/-- There is always someone to ask. -/
theorem exists_provides (r : Router) (route : NodeId) (name : String) :
    ∃ found requests, r.Provides (r.tree.chain route) name found requests := by
  cases hfactory : r.tree.factory? route with
  | some make => exact ⟨_, _, .factory (nearest_iff.mpr hfactory)⟩
  | none => exact ⟨_, _, .registered (unset_iff.mpr hfactory)⟩

section Means

variable {name text : String} {found : Option Controller} {requests : List Request}
  {outcome : Except RouterError Handler}

/-- What an identifier means, given the answer to the request for its controller. -/
theorem askNamed_append (hfirst : '@' ∉ name.toList) (action : String)
    (h : r.Provides (r.tree.chain route) (r.qualified (r.tree.chain route) name) found requests) :
    r.askNamed route (name ++ "@" ++ action) =
      ⟨handlerOf (r.qualified (r.tree.chain route) name) action found, requests⟩ := by
  rw [askNamed, splitIdentifier?_append hfirst]
  dsimp only
  rw [Tree.qualify, qualifiers_eq, ← qualified, h.askController_eq]
  exact congrArg (Asked.mk _) (List.append_nil requests)

/-- **What an identifier means is found**, with these requests. -/
theorem Means.askNamed_eq (h : r.Means route (r.tree.chain route) text outcome requests) :
    r.askNamed route text = ⟨outcome, requests⟩ := by
  cases h with
  | bare bare =>
    rw [askNamed, splitIdentifier?_of_not_mem bare]
    rfl
  | noController first provides => exact askNamed_append first _ provides
  | noAction first provides lacks =>
    rw [askNamed_append first _ provides, handlerOf, if_neg (Bool.eq_false_iff.mp lacks)]
  | action first provides has => rw [askNamed_append first _ provides, handlerOf, if_pos has]

/-- Every identifier means something. -/
theorem exists_means (r : Router) (route : NodeId) (text : String) :
    ∃ outcome requests, r.Means route (r.tree.chain route) text outcome requests := by
  rcases exists_split text with hbare | ⟨name, action, rfl, hfirst⟩
  · exact ⟨_, _, .bare hbare⟩
  · obtain ⟨found, requests, hprovides⟩ :=
      r.exists_provides route (r.qualified (r.tree.chain route) name)
    cases found with
    | none => exact ⟨_, _, .noController hfirst hprovides⟩
    | some controller =>
      cases hhas : controller.hasAction action with
      | false => exact ⟨_, _, .noAction hfirst hprovides hhas⟩
      | true => exact ⟨_, _, .action hfirst hprovides hhas⟩

end Means

section Resolves

variable {action : Action} {outcome : Except RouterError Handler} {requests : List Request}

/-- The nearest hook is handed an identifier once, and it goes on with its answer. -/
theorem askResolve_of_hook {hook : Hook} (near : Nearest (r.tree.chain route) (·.hook) hook)
    (text : String) : r.askResolve route (.identifier text) =
      (Asked.ask (.translate hook text) ((hook text).mapError (.actionFailed (r.label route)))).andThen
        (r.askPlain route) := by
  have hhook : r.tree.hook? route = some hook := nearest_iff.mp near
  have htranslate : r.askTranslate route (.identifier text) =
      .ask (.translate hook text) ((hook text).mapError (.actionFailed (r.label route))) := by
    unfold askTranslate
    rw [hhook]
  rw [askResolve, htranslate]
  rfl

/-- **What an action is resolved to is found**, with these requests. -/
theorem Resolves.askResolve_eq (h : r.Resolves route (r.tree.chain route) action outcome requests) :
    r.askResolve route action = ⟨outcome, requests⟩ := by
  cases h with
  | handler run =>
    unfold askResolve askTranslate
    cases r.tree.hook? route <;> rfl
  | plain unset means =>
    have hnone : r.tree.hook? route = none := unset_iff.mp unset
    unfold askResolve askTranslate
    rw [hnone]
    exact means.askNamed_eq
  | refused near fails =>
    rw [askResolve_of_hook near, fails]
    rfl
  | given near gives =>
    rw [askResolve_of_hook near, gives]
    rfl
  | @renamed text text' hook outcome requests near gives means =>
    rw [askResolve_of_hook near, gives]
    change (⟨(r.askNamed route text').answer,
      .translate hook text :: (r.askNamed route text').requests⟩ : Asked Handler) = _
    rw [means.askNamed_eq]

/-- Every action is resolved to something. -/
theorem exists_resolves (r : Router) (route : NodeId) (action : Action) :
    ∃ outcome requests, r.Resolves route (r.tree.chain route) action outcome requests := by
  cases action with
  | handler run => exact ⟨_, _, .handler run⟩
  | identifier text =>
    cases hhook : r.tree.hook? route with
    | none =>
      obtain ⟨outcome, requests, hmeans⟩ := r.exists_means route text
      exact ⟨_, _, .plain (unset_iff.mpr hhook) hmeans⟩
    | some hook =>
      have hnear : Nearest (r.tree.chain route) (·.hook) hook := nearest_iff.mpr hhook
      cases htranslated : hook text with
      | error cause => exact ⟨_, _, .refused hnear htranslated⟩
      | ok translated =>
        cases translated with
        | handler run => exact ⟨_, _, .given hnear htranslated⟩
        | identifier text' =>
          obtain ⟨outcome, requests, hmeans⟩ := r.exists_means route text'
          exact ⟨_, _, .renamed hnear htranslated hmeans⟩

/-- **An action is resolved by the rules**, and the rules leave no choice. -/
theorem resolves_iff : r.Resolves route (r.tree.chain route) action outcome requests ↔
    r.askResolve route action = ⟨outcome, requests⟩ := by
  refine ⟨Resolves.askResolve_eq, fun h => ?_⟩
  obtain ⟨outcome', requests', hresolves⟩ := r.exists_resolves route action
  rw [hresolves.askResolve_eq] at h
  cases h
  exact hresolves

end Resolves

/-- **The law of resolving an action** for a route of a router: that of the route itself, an error
action, or any other. With the nodes around the route from the inside out, what the action is resolved
to, and what is asked for it, is what the rules of `UrlRouting.Router.Resolves` say, and nothing else.
When the action is run, the handler that it is resolved to is called, or, if there is none, nothing
is. -/
theorem resolution (hr : r.Reachable) {n : Node} (hn : r.tree.get? route = some n) (action : Action) :
    r.tree.Upwards route (r.tree.chain route) ∧
    (∀ outcome requests, r.Resolves route (r.tree.chain route) action outcome requests ↔
      r.resolve route action = outcome ∧ (r.askResolve route action).requests = requests) ∧
    ∀ dispatch m args failure, r.Ends dispatch action ⟨route, m, args, failure⟩
      (r.noteRun dispatch action ⟨route, m, args, failure⟩).plain.outcome
      (r.noteRun dispatch action ⟨route, m, args, failure⟩).calls := by
  refine ⟨hr.isSound.tree.upwards_chain hn, fun outcome requests => ?_, fun dispatch m args failure =>
    r.ends_noteRun dispatch action ⟨route, m, args, failure⟩⟩
  rw [resolves_iff, ← answer_askResolve]
  constructor
  · intro h
    rw [h]
    exact ⟨rfl, rfl⟩
  · rintro ⟨rfl, rfl⟩
    rfl

/-- A translation of one identifier. -/
def renameShown : Hook := fun text =>
  .ok (.identifier (if text = "shown" then "pages@show@all" else text))

/-- A controller with every action, each of which answers its own name. -/
def echo : Controller := ⟨fun _ => true, fun action _ => .answer (.ok (.str action))⟩

/-- A router with a hook, namespaces and a controller, and with two routes that mean it: one in a
group, and one further inside, in a group that has a factory without controllers. -/
def withPages : Router :=
  ((new {}).runAll
    [.setting (.qualifier "app"), .setting (.hook renameShown), .controller "app.admin.pages" echo,
      .group "/admin" none
        (.step false (.setting (.qualifier "admin"))
          (.step false (.route "/a" none none (.identifier "shown") [])
            (.group false "/b" none
              (.step false (.setting (.factory fun _ => none))
                (.step false (.route "/c" none none (.identifier "shown") []) .done)) .done)))]).1

/-- The registered controller is not asked for where there is a factory. -/
theorem resolution_no_fallback :
    withPages.Resolves 2 (withPages.tree.chain 2) (.identifier "shown") (.ok (echo.call "show@all"))
      [.translate renameShown "shown", .lookUp "app.admin.pages"] ∧
    withPages.Resolves 4 (withPages.tree.chain 4) (.identifier "shown")
      (.error (.controllerNotFound "app.admin.pages"))
      [.translate renameShown "shown", .make (fun _ => none) "app.admin.pages"] := by
  have hr : withPages.Reachable := ⟨{}, _, rfl⟩
  have hone : withPages.tree.get? 2 = some _ := rfl
  have htwo : withPages.tree.get? 4 = some _ := rfl
  obtain ⟨-, hfirst, -⟩ := resolution hr hone (.identifier "shown")
  obtain ⟨-, hsecond, -⟩ := resolution hr htwo (.identifier "shown")
  exact ⟨(hfirst _ _).mpr ⟨by cbv, by cbv⟩, (hsecond _ _).mpr ⟨by cbv, by cbv⟩⟩

end Router

end UrlRouting

import Mathlib
import UrlRouting.Proofs.Matching.Order
import UrlRouting.Proofs.Router.Arguments
import UrlRouting.Proofs.Router.Calls
import UrlRouting.Proofs.Router.FindRoute
import UrlRouting.Proofs.Router.Questions

/-!
# What a dispatch answers

A dispatch has two phases with different rules. The match fails with errors of its own, and then no
handler has been called. When it succeeds, the action of the route is run, and its failure, of
whatever kind, is handled by the nearest error action on the chain of the route, whose answer
stands. So the error of a dispatch says which phase it is from (`UrlRouting.RouterError.isOfMatch`,
`UrlRouting.RouterError.isOfAction`).

All of this is one relation between the answer and the calls of handlers
(`UrlRouting.Router.Dispatches`), and every dispatch is in it
(`UrlRouting.Router.dispatch_outcome`). An error of the match that a handler got from a question of
its own does not get out as such: it is the cause of the failure of the action.
-/

namespace UrlRouting

/-! ### Two kinds of errors -/

/-- Is it an error that finding a route fails with? -/
def RouterError.isOfMatch : RouterError → Bool
  | .routeNotFound .. | .binderFailed .. | .schema _ => true
  | _ => false

/-- Is it an error that resolving or running an action fails with? -/
def RouterError.isOfAction : RouterError → Bool
  | .actionFailed .. | .actionNotInvocable _ | .controllerNotFound _ | .actionNotFound .. => true
  | _ => false

theorem RouterError.isOfAction_eq_false {e : RouterError} (h : e.isOfMatch = true) :
    e.isOfAction = false := by
  cases e <;> first | rfl | cases h

/-- **A consultation fails in certain ways only.** -/
def Consult.FailsWith (kind : RouterError → Bool) (x : Consult α) : Prop :=
  ∀ e, x.outcome = .error e → kind e = true

namespace Consult.FailsWith

variable {kind : RouterError → Bool} {α β : Type} {x : Consult α} {f : α → Consult β}

theorem pure (a : α) : FailsWith kind (Pure.pure a) := nofun

theorem lift {outcome : Except RouterError α} (h : ∀ e, outcome = .error e → kind e = true) :
    FailsWith kind (Consult.lift outcome) := h

theorem fail {e : RouterError} (h : kind e = true) :
    FailsWith kind (Consult.fail e : Consult α) := by
  intro e' he
  cases he
  exact h

theorem bind (h : FailsWith kind x) (hf : ∀ a, x.outcome = .ok a → FailsWith kind (f a)) :
    FailsWith kind (x >>= f) := by
  intro e he
  rcases bind_eq_error.mp he with he | ⟨a, ha, he⟩
  · exact h e he
  · exact hf a ha e he

end Consult.FailsWith

open Consult

/-! ### The errors of a match -/

namespace Tree

variable {t : Tree} {view : View} {n : Node} {id : NodeId}

theorem node_failsWith : FailsWith RouterError.isOfMatch (Consult.node view id) := by
  intro e he
  obtain ⟨fault, -, rfl⟩ := mapError_eq_error he
  rfl

theorem bindEntries_failsWith {entries : List (String × Value)} {bound : Params} :
    FailsWith RouterError.isOfMatch (Consult.lift (t.bindEntries id entries bound)) := by
  induction entries generalizing bound with
  | nil => exact .pure _
  | cons entry entries ih =>
    obtain ⟨name, v⟩ := entry
    intro e he
    rw [outcome_lift, bindEntries] at he
    rcases UrlRouting.bind_eq_error he with he | ⟨w, -, he⟩
    · rw [bindValue] at he
      split at he
      · split at he
        · cases he
        · obtain ⟨cause, -, rfl⟩ := mapError_eq_error he
          rfl
      · cases he
    · exact ih e he

theorem matchRoute_failsWith (path : String) :
    FailsWith RouterError.isOfMatch (t.matchRoute view n path) := by
  refine .bind node_failsWith fun compiled _ => ?_
  split
  · exact .pure _
  · split
    · exact .pure _
    · exact .bind bindEntries_failsWith fun _ _ => .pure _

theorem matchFirst_failsWith (path : String) (nodes : List Node) :
    FailsWith RouterError.isOfMatch (t.matchFirst view path nodes) := by
  induction nodes with
  | nil => exact .pure _
  | cons n nodes ih =>
    refine .bind (matchRoute_failsWith path) fun found _ => ?_
    cases found with
    | some m => exact .pure _
    | none => exact ih

theorem matchGroups_failsWith (method : Option Method) (nodes : List Node) (place : NodeId)
    (path : String) : FailsWith RouterError.isOfMatch (t.matchGroups view method nodes place path) := by
  induction nodes generalizing place path with
  | nil => exact .pure _
  | cons n later ih =>
    cases hgroup : n.isGroup && n.isIn place with
    | false =>
      rw [matchGroups_skip hgroup]
      exact ih place path
    | true =>
      rw [matchGroups_group hgroup]
      refine .bind node_failsWith fun compiled _ => ?_
      split
      · exact ih place path
      · refine .bind (.bind (matchFirst_failsWith _ _) fun found _ => ?_) fun inside _ => ?_
        · cases found with
          | some found => exact .pure _
          | none => exact ih n.id _
        · split
          · exact .bind bindEntries_failsWith fun _ _ => .pure _
          · exact ih place path

end Tree

namespace Router

variable {r : Router} {path : String} {method : Option Method}

/-- **Finding a route fails with an error of the match**: nothing was found, or a binder failed, or
a schema does not compile. -/
theorem findMatch_failsWith (r : Router) (path : String) (method : Option Method) :
    FailsWith RouterError.isOfMatch (r.findMatch path method) := by
  refine .bind (.bind (Tree.matchFirst_failsWith path _) fun found _ => ?_) fun found _ => ?_
  · cases found with
    | some found => exact .pure _
    | none => exact Tree.matchGroups_failsWith method _ _ path
  · cases found with
    | some found => exact .pure _
    | none => exact .fail rfl

/-- What is found is a route of the tree. -/
theorem route_of_findMatch (hsound : r.tree.IsSound) {route : NodeId} {m : RouteMatch}
    (h : (r.findMatch path method).outcome = .ok (route, m)) :
    ∃ n own action, r.tree.get? route = some n ∧ n.kind = .route own action := by
  obtain ⟨hits, last, -, rfl, -, hleads, -⟩ := Tree.match?_answers hsound (match?_of_findMatch h)
  rw [List.map_append] at hleads
  obtain ⟨hmem, own, action, hkind, -⟩ := hleads.last
  exact ⟨last.node, own, action, hsound.mem_iff.mp hmem, hkind⟩

theorem action_eq_ok {route : NodeId} {n : Node} {own : Option Method} {action : Action}
    (hn : r.tree.get? route = some n) (hkind : n.kind = .route own action) :
    r.action route = .ok action := by
  rw [Router.action, hn, Option.bind_some, Node.action?, hkind]

/-! ### The errors of an action -/

theorem resolve_failsWith (route : NodeId) (action : Action) :
    FailsWith RouterError.isOfAction (Consult.lift (r.resolve route action)) := by
  intro e he
  rcases UrlRouting.bind_eq_error he with he | ⟨translated, -, he⟩
  · rw [translate.eq_def] at he
    split at he
    · obtain ⟨cause, -, rfl⟩ := mapError_eq_error he
      rfl
    · cases he
  · cases translated with
    | handler run => cases he
    | identifier text =>
      dsimp only at he
      split at he
      · cases he
        rfl
      · split at he
        · cases he
          rfl
        · split at he <;> cases he
          rfl

/-- **How a run of an action ends**, and the handlers that are called in it: its own one, if there
is one, and those of the paths that this one has the router dispatch. -/
inductive Ends (r : Router) (dispatch : String → Option Method → Noted Value) (action : Action)
    (ctx : Context) : Except RouterError Value → List Call → Prop
  /-- There is no handler: nothing is called. -/
  | unresolved {e : RouterError} (resolve : r.resolve ctx.route action = .error e)
      (kind : e.isOfAction = true) : Ends r dispatch action ctx (.error e) []
  /-- The handler answers a value. -/
  | answered {handler : Handler} {v : Value} (resolve : r.resolve ctx.route action = .ok handler)
      (answers : (r.noteConverse dispatch (handler ctx)).plain.outcome = .ok (.ok v)) :
      Ends r dispatch action ctx (.ok v)
        (⟨handler, ctx⟩ :: (r.noteConverse dispatch (handler ctx)).calls)
  /-- The handler fails. -/
  | failed {handler : Handler} {cause : ActionError}
      (resolve : r.resolve ctx.route action = .ok handler)
      (fails : (r.noteConverse dispatch (handler ctx)).plain.outcome = .ok (.error cause)) :
      Ends r dispatch action ctx (.error (.actionFailed (r.label ctx.route) cause))
        (⟨handler, ctx⟩ :: (r.noteConverse dispatch (handler ctx)).calls)

variable {dispatch : String → Option Method → Noted Value} {action : Action} {ctx : Context}

theorem Ends.isOfAction {e : RouterError} {calls : List Call}
    (h : r.Ends dispatch action ctx (.error e) calls) : e.isOfAction = true := by
  cases h with
  | unresolved _ kind => exact kind
  | failed => rfl

/-- **Every run of an action ends** in one of these ways. -/
theorem ends_noteRun (r : Router) (dispatch : String → Option Method → Noted Value)
    (action : Action) (ctx : Context) :
    r.Ends dispatch action ctx (r.noteRun dispatch action ctx).plain.outcome
      (r.noteRun dispatch action ctx).calls := by
  rw [noteRun]
  cases hresolve : r.resolve ctx.route action with
  | error e =>
    rw [Noted.bind_of_error (e := e) rfl]
    exact .unresolved hresolve (resolve_failsWith _ _ e hresolve)
  | ok handler =>
    obtain ⟨result, hresult⟩ :=
      r.converse_eq_ok (Noted.plainly dispatch) (handler ctx)
    rw [← plain_noteConverse] at hresult
    rw [Noted.bind_of_ok (a := handler) rfl, Noted.bind_of_ok (a := handler ctx) rfl,
      Noted.bind_of_ok hresult]
    -- after its answer, a run calls no more handlers
    cases result with
    | ok v =>
      have hends := Ends.answered hresolve hresult
      rwa [← List.append_nil (r.noteConverse dispatch (handler ctx)).calls] at hends
    | error cause =>
      have hends := Ends.failed hresolve hresult
      rwa [← List.append_nil (r.noteConverse dispatch (handler ctx)).calls] at hends

/-! ### The two phases -/

/-- **How a dispatch ends**, and the handlers that are called in it. -/
inductive Dispatches (r : Router) (dispatch : String → Option Method → Noted Value) (path : String)
    (method : Option Method) : Except RouterError Value → List Call → Prop
  /-- The match fails: nothing is called. -/
  | unmatched {e : RouterError} (fails : (r.findMatch path method).outcome = .error e) :
      Dispatches r dispatch path method (.error e) []
  /-- The action of the route answers. -/
  | answered {route : NodeId} {m : RouteMatch} {n : Node} {own : Option Method} {action : Action}
      {v : Value} {calls : List Call} (found : (r.findMatch path method).outcome = .ok (route, m))
      (node : r.tree.get? route = some n) (kind : n.kind = .route own action)
      (first : r.Ends dispatch action ⟨route, m, m.params.values, none⟩ (.ok v) calls) :
      Dispatches r dispatch path method (.ok v) calls
  /-- The action of the route fails, and no node on its chain has an error action. -/
  | unhandled {route : NodeId} {m : RouteMatch} {n : Node} {own : Option Method} {action : Action}
      {failure : RouterError} {calls : List Call}
      (found : (r.findMatch path method).outcome = .ok (route, m))
      (node : r.tree.get? route = some n) (kind : n.kind = .route own action)
      (first : r.Ends dispatch action ⟨route, m, m.params.values, none⟩ (.error failure) calls)
      (none : ∀ n ∈ r.tree.chain route, n.settings.errorAction = none) :
      Dispatches r dispatch path method (.error failure) calls
  /-- The action of the route fails, and the error action of the nearest node that has one is run
  once, with the failure. -/
  | handled {route : NodeId} {m : RouteMatch} {n : Node} {own : Option Method} {action : Action}
      {failure : RouterError} {calls later : List Call} {inner outer : List Node} {near : Node}
      {handling : Action} {outcome : Except RouterError Value}
      (found : (r.findMatch path method).outcome = .ok (route, m))
      (node : r.tree.get? route = some n) (kind : n.kind = .route own action)
      (first : r.Ends dispatch action ⟨route, m, m.params.values, none⟩ (.error failure) calls)
      (chain : r.tree.chain route = inner ++ near :: outer)
      (nearest : ∀ n ∈ inner, n.settings.errorAction = none)
      (has : near.settings.errorAction = some handling)
      (second : r.Ends dispatch handling ⟨route, m, m.params.values, some failure⟩ outcome later) :
      Dispatches r dispatch path method outcome (calls ++ later)

theorem dispatches_noteExecute (hr : r.Reachable)
    (dispatch : String → Option Method → Noted Value) {route : NodeId} {m : RouteMatch}
    (h : (r.findMatch path method).outcome = .ok (route, m)) :
    r.Dispatches dispatch path method (r.noteExecute dispatch route m).plain.outcome
      (r.noteExecute dispatch route m).calls := by
  obtain ⟨n, own, action, hn, hkind⟩ := route_of_findMatch hr.isSound.tree h
  set ctx : Context := ⟨route, m, m.params.values, none⟩ with hctx
  have hfirst := r.ends_noteRun dispatch action ctx
  have hnote : r.noteFirst dispatch route m = r.noteRun dispatch action ctx := by
    rw [noteFirst, action_eq_ok hn hkind, Noted.bind_of_ok (a := action) rfl]
    rfl
  rw [noteExecute, hnote, Noted.bind_of_ok (a := (r.noteRun dispatch action ctx).plain.outcome) rfl]
  generalize hrun : r.noteRun dispatch action ctx = run at hfirst ⊢
  cases houtcome : run.plain.outcome with
  | ok v =>
    rw [houtcome] at hfirst
    have hends := Dispatches.answered h hn hkind hfirst
    rwa [← List.append_nil run.calls] at hends
  | error failure =>
    rw [houtcome] at hfirst
    dsimp only
    cases hnear : r.tree.errorAction? route with
    | none =>
      have hnone := List.findSome?_eq_none_iff.mp hnear
      have hends := Dispatches.unhandled h hn hkind hfirst hnone
      rwa [← List.append_nil run.calls] at hends
    | some handling =>
      obtain ⟨inner, near, outer, hchain, hhas, hinner⟩ := List.findSome?_eq_some_iff.mp hnear
      exact .handled h hn hkind hfirst hchain hinner hhas (r.ends_noteRun dispatch handling _)

/-- Once a route is found, an error is one of an action. -/
theorem Dispatches.isOfAction {found : NodeId × RouteMatch} {e : RouterError} {calls : List Call}
    (h : r.Dispatches dispatch path method (.error e) calls)
    (hfound : (r.findMatch path method).outcome = .ok found) : e.isOfAction = true := by
  cases h with
  | unmatched fails =>
    rw [hfound] at fails
    cases fails
  | unhandled _ _ _ first _ => exact first.isOfAction
  | handled _ _ _ _ _ _ _ second => exact second.isOfAction

theorem noteDispatch_of_error (dispatch : String → Option Method → Noted Value) {e : RouterError}
    (h : (r.findMatch path method).outcome = .error e) :
    (r.noteDispatch dispatch path method).plain.outcome = .error e ∧
      (r.noteDispatch dispatch path method).calls = [] := by
  have hnote : r.noteDispatch dispatch path method = _ := Noted.bind_of_error (x := .quiet _) h
  rw [hnote]
  exact ⟨rfl, rfl⟩

theorem noteDispatch_of_ok (dispatch : String → Option Method → Noted Value) {route : NodeId}
    {m : RouteMatch} (h : (r.findMatch path method).outcome = .ok (route, m)) :
    (r.noteDispatch dispatch path method).plain.outcome =
        (r.noteExecute dispatch route m).plain.outcome ∧
      (r.noteDispatch dispatch path method).calls = (r.noteExecute dispatch route m).calls := by
  have hnote : r.noteDispatch dispatch path method = _ := Noted.bind_of_ok (x := .quiet _) h
  rw [hnote]
  exact ⟨rfl, rfl⟩

/-- **The law of a dispatch**, whatever answers the paths that actions ask for. It ends in one of
the ways of `UrlRouting.Router.Dispatches`: when no route is found, with that error and without a
call; else with the answer of the action of the route, or, if it fails, with that of the nearest
error action. An error of the match is answered just if finding a route fails with it, and any other
error is one of an action. -/
theorem dispatch_outcome (hr : r.Reachable) (inner : String → Option Method → Noted Value)
    (path : String) (method : Option Method) :
    r.Dispatches inner path method (r.dispatch (Noted.plainly inner) path method).outcome
      (r.noteDispatch inner path method).calls ∧
    (∀ e, e.isOfMatch = true ∧ (r.dispatch (Noted.plainly inner) path method).outcome = .error e ↔
      (r.findMatch path method).outcome = .error e) ∧
    (∀ e, (r.findMatch path method).outcome = .error e →
      (r.noteDispatch inner path method).calls = []) ∧
    ∀ found e, (r.findMatch path method).outcome = .ok found →
      (r.dispatch (Noted.plainly inner) path method).outcome = .error e → e.isOfAction = true := by
  rw [← plain_noteDispatch]
  cases hfound : (r.findMatch path method).outcome with
  | error failure =>
    obtain ⟨houtcome, hcalls⟩ := noteDispatch_of_error inner hfound
    rw [houtcome, hcalls]
    refine ⟨.unmatched hfound, fun e => ?_, fun _ _ => rfl, nofun⟩
    have hmatch := findMatch_failsWith r path method failure hfound
    constructor
    · rintro ⟨-, he⟩
      cases he
      rfl
    · intro he
      cases he
      exact ⟨hmatch, rfl⟩
  | ok found =>
    obtain ⟨route, m⟩ := found
    obtain ⟨houtcome, hcalls⟩ := noteDispatch_of_ok inner hfound
    have hends := dispatches_noteExecute hr inner hfound
    rw [houtcome, hcalls]
    refine ⟨hends, fun e => ⟨fun ⟨hmatch, he⟩ => ?_, nofun⟩, nofun, fun _ e _ he => ?_⟩
    · rw [he] at hends
      have haction := hends.isOfAction hfound
      rw [RouterError.isOfAction_eq_false hmatch] at haction
      cases haction
    · rw [he] at hends
      exact hends.isOfAction hfound

/-- A router with one route, whose action names no handler, and an error action at its root that
says whether it has been handed a failure. -/
def withErrorAction : Router :=
  ((new {}).runAll
    [.setting (.errorAction (.handler fun ctx => .answer (.ok (.bool ctx.failure.isSome)))),
      .route "/a" none none (.identifier "")]).1

set_option maxRecDepth 4000 in
/-- No handler is called for the route, whose action names none, and the error action answers. -/
theorem dispatch_outcome_handled :
    (withErrorAction.dispatchUpTo {} "/a" none).outcome.toOption = some (.bool true) ∧
    (withErrorAction.noteDispatchUpTo {} "/a" none).calls.length = 1 ∧
    withErrorAction.Dispatches (withErrorAction.noteDispatchWithin ({} : Nesting).failure 1000) "/a"
      none (withErrorAction.dispatchUpTo {} "/a" none).outcome
      (withErrorAction.noteDispatchUpTo {} "/a" none).calls := by
  refine ⟨by cbv, by cbv, ?_⟩
  have hends := (dispatch_outcome (r := withErrorAction) ⟨{}, _, rfl⟩
    (withErrorAction.noteDispatchWithin ({} : Nesting).failure 1000) "/a" none).1
  rwa [plainly_noteDispatchWithin] at hends

end Router

end UrlRouting

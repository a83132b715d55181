import UrlRouting.Proofs.Consult
import UrlRouting.Router.Dispatch

/-!
# The handlers that a dispatch runs

An answer does not say which handlers were run for it. So dispatching is written down once more, in
a form that notes every call of a handler (`UrlRouting.Router.noteDispatch`): the handlers of the
action and of the error action, and those of the paths that a handler has the router dispatch. With
its note left out it is `UrlRouting.Router.dispatch` (`UrlRouting.Router.plain_noteDispatch`), and
so it is when the nesting is bounded (`UrlRouting.Router.plain_noteDispatchUpTo`).
-/

namespace UrlRouting

/-- A call of a handler. -/
structure Call where
  /-- The handler. -/
  handler : Handler
  /-- What it was called with. -/
  ctx : Context

/-- A consultation, and the handlers that were called for it, in the order of their calls. -/
structure Noted (α : Type) where
  /-- The consultation. -/
  plain : Consult α
  /-- The calls. -/
  calls : List Call

namespace Noted

variable {α β : Type} {a : α} {x : Noted α} {f : α → Noted β} {e : RouterError}

/-- Goes on with an answer, unless it is an error. -/
def andThen (x : Noted α) (f : α → Noted β) : Noted β where
  plain := x.plain >>= fun a => (f a).plain
  calls := x.calls ++
    match x.plain.outcome with
    | .ok a => (f a).calls
    | .error _ => []

instance : Monad Noted where
  pure a := ⟨pure a, []⟩
  bind := andThen

/-- A consultation that calls no handler. -/
def quiet (x : Consult α) : Noted α := ⟨x, []⟩

/-- The answer as a value, error or not. -/
def attempt (x : Noted α) : Noted (Except RouterError α) := ⟨x.plain.attempt, x.calls⟩

/-- Answers to paths, with the note left out. -/
def plainly (dispatch : String → Option Method → Noted Value) (path : String)
    (method : Option Method) : Consult Value := (dispatch path method).plain

/-- Calls a handler. -/
def call (handler : Handler) (ctx : Context) : Noted Reply := ⟨pure (handler ctx), [⟨handler, ctx⟩]⟩

@[simp] theorem plain_pure (a : α) : (pure a : Noted α).plain = pure a := rfl

@[simp] theorem plain_bind (x : Noted α) (f : α → Noted β) :
    (x >>= f).plain = x.plain >>= fun a => (f a).plain := rfl

@[simp] theorem plain_quiet (x : Consult α) : (quiet x).plain = x := rfl

@[simp] theorem plain_attempt (x : Noted α) : x.attempt.plain = x.plain.attempt := rfl

@[simp] theorem plain_call (handler : Handler) (ctx : Context) :
    (call handler ctx).plain = pure (handler ctx) := rfl

theorem bind_of_ok (h : x.plain.outcome = .ok a) : x >>= f =
    ⟨⟨(f a).plain.outcome, x.plain.consulted ++ (f a).plain.consulted⟩,
      x.calls ++ (f a).calls⟩ := by
  change x.andThen f = _
  rw [andThen, Consult.bind_of_ok h, h]

theorem bind_of_error (h : x.plain.outcome = .error e) :
    x >>= f = ⟨⟨.error e, x.plain.consulted⟩, x.calls⟩ := by
  change x.andThen f = _
  rw [andThen, Consult.bind_of_error h, h]
  exact congrArg _ (List.append_nil x.calls)

end Noted

namespace Router

variable (r : Router)

/-! ### Running with a note -/

section Running

variable (dispatch : String → Option Method → Noted Value)

/-- Answers the questions of a reply. -/
def noteConverse : Reply → Noted (Except ActionError Value)
  | .answer result => return result
  | .url name params next => do
    let answer ← .quiet (r.url name params false).attempt
    noteConverse (next answer)
  | .dispatch path method next => do
    let answer ← (dispatch path method).attempt
    noteConverse (next answer)

/-- Resolves and runs an action for a route. -/
def noteRun (action : Action) (ctx : Context) : Noted Value := do
  let handler ← .quiet (.lift (r.resolve ctx.route action))
  let reply ← .call handler ctx
  match ← r.noteConverse dispatch reply with
  | .ok v => return v
  | .error cause => .quiet (.fail (.actionFailed (r.label ctx.route) cause))

/-- Runs the action of a route. -/
def noteFirst (route : NodeId) (m : RouteMatch) : Noted Value := do
  let action ← .quiet (.lift (r.action route))
  r.noteRun dispatch action ⟨route, m, m.params.values, none⟩

/-- Runs the action of a route that has matched, and on failure the nearest error action. -/
def noteExecute (route : NodeId) (m : RouteMatch) : Noted Value := do
  match ← (r.noteFirst dispatch route m).attempt with
  | .ok v => return v
  | .error failure =>
    match r.tree.errorAction? route with
    | some handling => r.noteRun dispatch handling ⟨route, m, m.params.values, some failure⟩
    | none => .quiet (.fail failure)

end Running

/-- Dispatches a path, given how the paths are dispatched that actions ask for. -/
def noteDispatch (inner : String → Option Method → Noted Value) (path : String)
    (method : Option Method) : Noted Value := do
  let (route, m) ← .quiet (r.findMatch path method)
  r.noteExecute inner route m

/-- Dispatches a path that an action asks for, with so many levels of nesting left. -/
def noteDispatchWithin (failure : RouterError) : Nat → String → Option Method → Noted Value
  | 0, _, _ => .quiet (.fail failure)
  | depth + 1, path, method => r.noteDispatch (noteDispatchWithin failure depth) path method

/-- Dispatches a path within a bound on the nesting. -/
def noteDispatchUpTo (nesting : Nesting) (path : String) (method : Option Method) : Noted Value :=
  r.noteDispatch (r.noteDispatchWithin nesting.failure nesting.depth) path method

/-! ### Without the note -/

section Plain

variable {dispatch : String → Option Method → Noted Value}

theorem plain_noteConverse (reply : Reply) : (r.noteConverse dispatch reply).plain =
    r.converse (Noted.plainly dispatch) reply := by
  induction reply with
  | answer result => rfl
  | url name params next ih =>
    rw [noteConverse, converse, Noted.plain_bind]
    simp only [ih, Noted.plain_quiet]
  | dispatch path method next ih =>
    rw [noteConverse, converse, Noted.plain_bind]
    simp only [ih, Noted.plain_attempt]
    rfl

theorem plain_noteRun (action : Action) (ctx : Context) : (r.noteRun dispatch action ctx).plain =
    r.run (Noted.plainly dispatch) action ctx := by
  rw [noteRun, run]
  simp only [Noted.plain_bind, Noted.plain_quiet, Noted.plain_call, pure_bind, plain_noteConverse]
  congr 1
  funext handler
  congr 1
  funext result
  cases result <;> rfl

theorem plain_noteExecute (route : NodeId) (m : RouteMatch) :
    (r.noteExecute dispatch route m).plain =
      r.execute (Noted.plainly dispatch) route m := by
  rw [noteExecute, execute]
  simp only [noteFirst, Noted.plain_bind, Noted.plain_attempt, Noted.plain_quiet, plain_noteRun]
  congr 1
  funext result
  cases result with
  | ok v => rfl
  | error failure =>
    dsimp only
    cases r.tree.errorAction? route with
    | some handling => exact r.plain_noteRun handling _
    | none => rfl

/-- **Without the note, it is dispatching.** -/
theorem plain_noteDispatch (path : String) (method : Option Method) :
    (r.noteDispatch dispatch path method).plain =
      r.dispatch (Noted.plainly dispatch) path method := by
  rw [noteDispatch, Router.dispatch, Noted.plain_bind]
  simp only [plain_noteExecute, Noted.plain_quiet]

/-- The same holds of the paths that actions ask for. -/
theorem plainly_noteDispatchWithin (failure : RouterError) (depth : Nat) :
    Noted.plainly (r.noteDispatchWithin failure depth) = r.dispatchWithin failure depth := by
  induction depth with
  | zero => rfl
  | succ depth ih =>
    funext path method
    rw [Noted.plainly, noteDispatchWithin, plain_noteDispatch, ih, dispatchWithin]

/-- **Without the note, it is dispatching within a bound** on the nesting. -/
theorem plain_noteDispatchUpTo (nesting : Nesting) (path : String) (method : Option Method) :
    (r.noteDispatchUpTo nesting path method).plain = r.dispatchUpTo nesting path method := by
  rw [noteDispatchUpTo, plain_noteDispatch, plainly_noteDispatchWithin, dispatchUpTo]

end Plain

end Router

end UrlRouting

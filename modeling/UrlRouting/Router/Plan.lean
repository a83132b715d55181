import UrlRouting.Router.Basic

/-!
# Plans of groups

What is to be registered in a group is a *plan*: routes, hidden routes, settings, and groups with
plans of their own, one after the other. Carrying it out ends at the first step that fails, and the
failure of a group is that of its plan, so that it ends the plan around it too. What has been
registered up to there stays. A step may be marked as lenient: its failure is noted, and the plan
goes on.

Carrying out a plan gives a report, which has the shape of the part of the plan that was carried
out.
-/

namespace UrlRouting

/-! ### Plans and reports -/

/-- A step of a plan that is no group. -/
inductive Registration where
  /-- A route, and what is set on it. -/
  | route (schema : String) (name : Option String) (method : Option Method) (action : Action)
      (settings : List Setting)
  /-- A hidden route, and what is set on it. -/
  | hidden (schema name : String) (settings : List Setting)
  /-- A setting of the group itself. -/
  | setting (s : Setting)

/-- A plan. -/
inductive Plan where
  /-- No more steps. -/
  | done
  /-- A step, then more. -/
  | step (lenient : Bool) (r : Registration) (rest : Plan)
  /-- A group, then more. -/
  | group (lenient : Bool) (schema : String) (namePrefix : Option String) (inner rest : Plan)

/-- What has come of a plan. -/
inductive Report where
  /-- No more steps. -/
  | done
  /-- A step, and the number of the node that it registered, if any. -/
  | step (outcome : Except RouterError (Option NodeId)) (rest : Report)
  /-- A group, and its number. -/
  | group (outcome : Except RouterError NodeId) (inner rest : Report)

/-- What carrying out a plan leaves behind. -/
structure Progress where
  /-- The tree. -/
  tree : Tree
  /-- The report. -/
  report : Report
  /-- The failure that ended the plan, if it was ended. -/
  failure : Option RouterError

/-! ### Carrying out -/

/-- Carries out a step in a group. -/
def Registration.carryOut (t : Tree) (place : NodeId) :
    Registration → Except RouterError (Tree × Option NodeId)
  | .route schema name method action settings => do
    let (t, id) ← t.add place schema name (.route method action)
    return (t.configure id settings, some id)
  | .hidden schema name settings => do
    let (t, id) ← t.add place schema (some name) .hidden
    return (t.configure id settings, some id)
  | .setting s => .ok (t.configure place [s], none)

/-- Carries out a plan in a group. -/
def Plan.carryOut : Plan → Tree → NodeId → Progress
  | .done, t, _ => ⟨t, .done, none⟩
  | .step lenient r rest, t, place =>
    match r.carryOut t place with
    | .ok (t, id) =>
      let p := rest.carryOut t place
      { p with report := .step (.ok id) p.report }
    | .error e =>
      if lenient then
        let p := rest.carryOut t place
        { p with report := .step (.error e) p.report }
      else ⟨t, .step (.error e) .done, some e⟩
  | .group lenient schema namePrefix inner rest, t, place =>
    match t.add place schema none (.group namePrefix) with
    | .error e => ⟨t, .group (.error e) .done .done, some e⟩
    | .ok (t, id) =>
      let inside := inner.carryOut t id
      match inside.failure with
      | none =>
        let p := rest.carryOut inside.tree place
        { p with report := .group (.ok id) inside.report p.report }
      | some e =>
        if lenient then
          let p := rest.carryOut inside.tree place
          { p with report := .group (.error e) inside.report p.report }
        else ⟨inside.tree, .group (.error e) inside.report .done, some e⟩

end UrlRouting

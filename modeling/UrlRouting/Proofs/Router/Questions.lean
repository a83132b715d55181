import UrlRouting.Proofs.Matching.Search
import UrlRouting.Proofs.Tree.Sound
import UrlRouting.Proofs.Url.Query
import UrlRouting.Router.Dispatch

/-!
# What questions look at

A question asked of a router looks at nodes of its tree only, and if its answer is an error about a
schema, then one of these nodes does not compile, or, for a url, the schema of the host in force
(`UrlRouting.Router.findMatch_keeps`, `UrlRouting.Router.url_keeps`,
`UrlRouting.Router.dispatch_keeps`). Binders, actions, and values that cannot be written have errors
of their own.
-/

namespace UrlRouting

/-! ### Errors that are not about schemas -/

section Other

variable {t : Tree} {id : NodeId} {name : String} {e : SchemaError}

theorem mapError_eq_error {ε ε' α : Type} {f : ε → ε'} {x : Except ε α} {e : ε'}
    (h : x.mapError f = .error e) : ∃ e₀, x = .error e₀ ∧ f e₀ = e := by
  cases x with
  | ok a => cases h
  | error e₀ => exact ⟨e₀, rfl, Except.error.inj h⟩

theorem mapError_eq_ok {ε ε' α : Type} {f : ε → ε'} {x : Except ε α} {a : α}
    (h : x.mapError f = .ok a) : x = .ok a := by
  cases x with
  | ok b => exact congrArg Except.ok (Except.ok.inj h)
  | error e => cases h

theorem bind_eq_error {ε α β : Type} {x : Except ε α} {f : α → Except ε β} {e : ε}
    (h : (x >>= f) = .error e) : x = .error e ∨ ∃ a, x = .ok a ∧ f a = .error e := by
  cases x with
  | ok a => exact .inr ⟨a, rfl, h⟩
  | error e₀ =>
    cases h
    exact .inl rfl

theorem Tree.bindValue_ne_schema {v : Value} : t.bindValue id name v ≠ .error (.schema e) := by
  intro h
  rw [bindValue] at h
  split at h
  · split at h
    · cases h
    · obtain ⟨cause, -, hcause⟩ := mapError_eq_error h
      cases hcause
  · cases h

theorem Tree.bindEntries_ne_schema {entries : List (String × Value)} {bound : Params} :
    t.bindEntries id entries bound ≠ .error (.schema e) := by
  induction entries generalizing bound with
  | nil => exact nofun
  | cons entry entries ih =>
    intro h
    rw [bindEntries] at h
    rcases bind_eq_error h with h | ⟨w, -, h⟩
    · exact bindValue_ne_schema h
    · exact ih h

theorem Value.urlText_ne_schema {v : Value} : v.urlText name ≠ .error (.schema e) := by
  cases v <;> exact nofun

theorem ParamSpec.resolve_ne_schema {spec : ParamSpec} {output : Option Transform}
    {params : Params} : spec.resolve output params ≠ .error (.schema e) := by
  intro h
  rw [resolve.eq_def] at h
  split at h
  · exact Value.urlText_ne_schema h
  · rcases bind_eq_error h with h | ⟨w, -, h⟩
    · obtain ⟨cause, -, hcause⟩ := mapError_eq_error h
      cases hcause
    · exact Value.urlText_ne_schema h
  · cases h
  · rcases bind_eq_error h with h | ⟨w, -, h⟩
    · obtain ⟨cause, -, hcause⟩ := mapError_eq_error h
      cases hcause
    · split at h
      · cases h
      · exact Value.urlText_ne_schema h

theorem ParamSpec.check_ne_schema {spec : ParamSpec} {text : String} :
    spec.check text ≠ .error (.schema e) := by
  intro h
  rw [check] at h
  split at h
  · cases h
  · split at h <;> cases h

theorem ParamSpec.emit_ne_schema {spec : ParamSpec} {route text : String}
    {optional required behind : Bool} :
    spec.emit route text optional required behind ≠ .error (.schema e) := by
  intro h
  rw [emit] at h
  split at h
  · split at h
    · cases h
    · split at h <;> cases h
  · rcases bind_eq_error h with h | ⟨-, -, h⟩
    · exact check_ne_schema h
    · split at h <;> cases h

theorem Template.fill_ne_schema {ctx : FillContext} {template : Template} {required : Bool}
    {params : Params} : template.fill ctx required params ≠ .error (.schema e) := by
  induction template generalizing required params with
  | done => exact nofun
  | literal text rest ih =>
    intro h
    rcases bind_eq_error h with h | ⟨row, -, h⟩
    · exact ih h
    · cases h
  | param index optional rest ih =>
    intro h
    rcases bind_eq_error h with h | ⟨row, -, h⟩
    · exact ih h
    · split at h
      · cases h
      · dsimp only at h
        split at h
        · cases h
        · rcases bind_eq_error h with h | ⟨text, -, h⟩
          · exact ParamSpec.resolve_ne_schema h
          · rcases bind_eq_error h with h | ⟨emission, -, h⟩
            · exact ParamSpec.emit_ne_schema h
            · cases emission <;> cases h
  | segment inner rest ih1 ih2 =>
    intro h
    rcases bind_eq_error h with h | ⟨row, -, h⟩
    · exact ih2 h
    · rcases bind_eq_error h with h | ⟨inside, -, h⟩
      · exact ih1 h
      · cases h

theorem Tree.fillSchema_ne_schema {route : String} {schema : CompiledSchema} {params : Params} :
    t.fillSchema id route schema params ≠ .error (.schema e) := by
  intro h
  rcases bind_eq_error h with h | ⟨row, -, h⟩
  · exact Template.fill_ne_schema h
  · cases h

end Other

open Consult

/-! ### Matching -/

namespace Tree

/-- A fault of one of the nodes. -/
def NodeFault (t : Tree) (view : View) (e : SchemaError) : Prop :=
  ∃ id < t.size, view id = .error e

/-- A fault of the schema of the host that a url would have. -/
def HostFault (t : Tree) (options : Options) (id : NodeId) (absolute : Bool) (e : SchemaError) :
    Prop :=
  ∃ schema, t.hostSchema? options id absolute = .ok (some schema) ∧
    CompiledSchema.ofText schema (t.compileContext id options.defaultPattern) = .error e

variable {t : Tree} {view : View} {n : Node}

theorem node_keeps (h : t.IsSound) (hn : n ∈ t.nodes) :
    Keeps (· < t.size) (t.NodeFault view) (Consult.node view n.id) :=
  .node (h.lt_size hn) fun _ he => ⟨n.id, h.lt_size hn, he⟩

theorem bindParams_keeps {id : NodeId} {clean : Params} :
    Keeps (· < t.size) (t.NodeFault view) (Consult.lift (t.bindParams id clean)) :=
  .lift fun _ he => absurd he bindEntries_ne_schema

theorem matchRoute_keeps (h : t.IsSound) (hn : n ∈ t.nodes) (path : String) :
    Keeps (· < t.size) (t.NodeFault view) (t.matchRoute view n path) := by
  refine .bind (node_keeps h hn) fun compiled _ => ?_
  split
  · exact .pure _
  · split
    · exact .pure _
    · exact .bind bindParams_keeps fun _ _ => .pure _

theorem matchFirst_keeps (h : t.IsSound) {nodes : List Node} (hnodes : nodes ⊆ t.nodes)
    (path : String) : Keeps (· < t.size) (t.NodeFault view) (t.matchFirst view path nodes) := by
  induction nodes with
  | nil => exact .pure _
  | cons n nodes ih =>
    obtain ⟨hn, hnodes⟩ := List.cons_subset.mp hnodes
    refine .bind (matchRoute_keeps h hn path) fun found _ => ?_
    split
    · exact .pure _
    · exact ih hnodes

theorem candidates_subset (nodes : List Node) (parent : NodeId) (method : Option Method) :
    candidates nodes parent method ⊆ nodes := by
  intro n hn
  rcases List.mem_append.mp hn with hn | hn
  · exact List.mem_of_mem_filter hn
  · cases method with
    | none => cases hn
    | some m => exact List.mem_of_mem_filter hn

theorem matchGroups_keeps (h : t.IsSound) (method : Option Method) {nodes : List Node}
    (hnodes : nodes ⊆ t.nodes) (place : NodeId) (path : String) :
    Keeps (· < t.size) (t.NodeFault view) (t.matchGroups view method nodes place path) := by
  induction nodes generalizing place path with
  | nil => exact .pure _
  | cons n later ih =>
    obtain ⟨hn, hlater⟩ := List.cons_subset.mp hnodes
    cases hgroup : n.isGroup && n.isIn place with
    | false =>
      rw [matchGroups_skip hgroup]
      exact ih hlater place path
    | true =>
      rw [matchGroups_group hgroup]
      refine .bind (node_keeps h hn) fun compiled _ => ?_
      split
      · exact ih hlater place path
      · refine .bind (.bind ?_ fun found _ => ?_) fun inside _ => ?_
        · exact matchFirst_keeps h (List.Subset.trans (candidates_subset ..) hlater) _
        · split
          · exact .pure _
          · exact ih hlater n.id _
        · split
          · exact .bind bindParams_keeps fun _ _ => .pure _
          · exact ih hlater place path

theorem match?_keeps (h : t.IsSound) (method : Option Method) (path : String) :
    Keeps (· < t.size) (t.NodeFault view) (t.match? view method path) := by
  refine .bind (matchFirst_keeps h (candidates_subset ..) path) fun found _ => ?_
  split
  · exact .pure _
  · exact matchGroups_keeps h method (List.Subset.refl _) root path

/-! ### Urls -/

theorem pathOf_keeps (h : t.IsSound) {nodes : List Node} (hnodes : nodes ⊆ t.nodes)
    (params : Params) : Keeps (· < t.size) (t.NodeFault view) (t.pathOf view nodes params) := by
  induction nodes generalizing params with
  | nil => exact .pure _
  | cons n above ih =>
    obtain ⟨hn, habove⟩ := List.cons_subset.mp hnodes
    rw [pathOf]
    refine .bind (node_keeps h hn) fun compiled _ => ?_
    refine .bind (.lift fun _ he => absurd he fillSchema_ne_schema) fun own _ => ?_
    obtain ⟨own, left⟩ := own
    dsimp only
    split
    · exact .pure _
    · split
      · exact .bind (ih habove left) fun _ _ => .pure _
      · exact .pure _

theorem url_keeps (h : t.IsSound) (options : Options) (id : NodeId) (params : Params)
    (absolute : Bool) :
    Keeps (· < t.size) (fun e => t.NodeFault view e ∨ t.HostFault options id absolute e)
      (t.url view options id params absolute) := by
  have hpath : Keeps (· < t.size) (fun e => t.NodeFault view e ∨ t.HostFault options id absolute e)
      (t.pathOf view (t.chain id) params.given) :=
    (pathOf_keeps h (fun n hn => mem_of_mem_chain hn) params.given).mono fun _ => .inl
  refine .bind (.bind hpath fun front _ => ?_) fun front _ => ?_
  · refine .bind (.lift fun e he => ?_) fun schema? hschema => ?_
    · rw [hostSchema?] at he
      split at he
      · cases he
      · split at he
        · split at he <;> cases he
        · cases he
    · split
      · exact .pure _
      · next schema =>
        refine .bind (.lift fun e he => .inr ⟨schema, hschema, ?_⟩) fun _ _ => .pure _
        rcases UrlRouting.bind_eq_error he with he | ⟨compiled, -, he⟩
        · obtain ⟨e', hcompile, hsame⟩ := mapError_eq_error he
          cases hsame
          exact hcompile
        · rcases UrlRouting.bind_eq_error he with he | ⟨_, -, he⟩
          · exact absurd he fillSchema_ne_schema
          · cases he
  · obtain ⟨front, left⟩ := front
    dsimp only
    split
    · refine .bind (.lift fun _ he => ?_) fun _ _ => .pure _
      rw [Form.query_eq] at he
      cases he
    · exact .pure _

end Tree

/-! ### Routers -/

namespace Router

variable {r : Router}

theorem findMatch_keeps (h : r.tree.IsSound) (path : String) (method : Option Method) :
    Keeps (· < r.tree.size) (r.tree.NodeFault r.view) (r.findMatch path method) := by
  refine .bind (Tree.match?_keeps h method path) fun found _ => ?_
  split
  · exact .pure _
  · exact .fail nofun

theorem url_keeps (h : r.tree.IsSound) (name : String) (params : Params) (absolute : Bool) :
    Keeps (· < r.tree.size)
      (fun e => r.tree.NodeFault r.view e ∨
        ∃ id ∈ r.tree.find? name, r.tree.HostFault r.options id absolute e)
      (r.url name params absolute) := by
  rw [url]
  cases hid : r.tree.find? name with
  | none => exact .fail nofun
  | some id =>
    refine (Tree.url_keeps h r.options id params absolute).mono fun e he => ?_
    exact he.imp_right fun hhost => ⟨id, rfl, hhost⟩

theorem resolve_ne_schema {route : NodeId} {action : Action} {e : SchemaError} :
    r.resolve route action ≠ .error (.schema e) := by
  intro h
  rcases bind_eq_error h with h | ⟨translated, -, h⟩
  · rw [translate.eq_def] at h
    split at h
    · obtain ⟨cause, -, hcause⟩ := mapError_eq_error h
      cases hcause
    · cases h
  · cases translated with
    | handler run => cases h
    | identifier text =>
      dsimp only at h
      split at h
      · cases h
      · split at h
        · cases h
        · split at h <;> cases h

section Running

variable {dispatch : String → Option Method → Consult Value}

/-- Answering the questions of a reply keeps to what dispatching keeps to; their errors are handed
to the action. -/
theorem converse_keeps (h : r.tree.IsSound)
    (hdispatch : ∀ path method, ∀ id ∈ (dispatch path method).consulted, id < r.tree.size)
    (reply : Reply) :
    Keeps (· < r.tree.size) (r.tree.NodeFault r.view) (r.converse dispatch reply) := by
  induction reply with
  | answer result => exact .pure _
  | url name params next ih =>
    exact .bind (.attempt (url_keeps h name params false).nodes) fun answer _ => ih answer
  | dispatch path method next ih =>
    exact .bind (.attempt (hdispatch path method)) fun answer _ => ih answer

theorem run_keeps (h : r.tree.IsSound)
    (hdispatch : ∀ path method, ∀ id ∈ (dispatch path method).consulted, id < r.tree.size)
    (action : Action) (ctx : Context) :
    Keeps (· < r.tree.size) (r.tree.NodeFault r.view) (r.run dispatch action ctx) := by
  refine .bind (.lift fun _ he => absurd he resolve_ne_schema) fun handler _ => ?_
  refine .bind (converse_keeps h hdispatch (handler ctx)) fun result _ => ?_
  split
  · exact .pure _
  · exact .fail nofun

theorem action_ne_schema {route : NodeId} {e : SchemaError} :
    r.action route ≠ .error (.schema e) := by
  rw [action]
  split <;> exact nofun

theorem execute_keeps (h : r.tree.IsSound)
    (hdispatch : ∀ path method, ∀ id ∈ (dispatch path method).consulted, id < r.tree.size)
    (route : NodeId) (m : RouteMatch) :
    Keeps (· < r.tree.size) (r.tree.NodeFault r.view) (r.execute dispatch route m) := by
  have hfirst : Keeps (· < r.tree.size) (r.tree.NodeFault r.view)
      (Consult.lift (r.action route) >>= fun action =>
        r.run dispatch action ⟨route, m, m.params.values, none⟩) :=
    .bind (.lift fun _ he => absurd he action_ne_schema) fun action _ =>
      run_keeps h hdispatch action _
  refine .bind (.attempt hfirst.nodes) fun result hresult => ?_
  cases result with
  | ok v => exact .pure _
  | error failure =>
    dsimp only
    split
    · exact run_keeps h hdispatch _ _
    · refine .fail fun fault hfault => hfirst.faults fault ?_
      rw [← hfault]
      exact Except.ok.inj hresult

theorem dispatch_keeps (h : r.tree.IsSound)
    (hdispatch : ∀ path method, ∀ id ∈ (dispatch path method).consulted, id < r.tree.size)
    (path : String) (method : Option Method) :
    Keeps (· < r.tree.size) (r.tree.NodeFault r.view) (r.dispatch dispatch path method) :=
  .bind (findMatch_keeps h path method) fun found _ =>
    execute_keeps h hdispatch found.1 found.2

/-- What an action asks for consults nodes of the tree only, how deep it may be nested. Its failures
are no concern here, as they are handed to the action. -/
theorem consulted_dispatchWithin (h : r.tree.IsSound) (failure : RouterError) (depth : Nat)
    (path : String) (method : Option Method) :
    ∀ id ∈ (r.dispatchWithin failure depth path method).consulted, id < r.tree.size := by
  induction depth generalizing path method with
  | zero => exact List.forall_mem_nil _
  | succ depth ih => exact (dispatch_keeps h ih path method).nodes

theorem dispatchUpTo_keeps (h : r.tree.IsSound) (nesting : Nesting) (path : String)
    (method : Option Method) :
    Keeps (· < r.tree.size) (r.tree.NodeFault r.view) (r.dispatchUpTo nesting path method) :=
  dispatch_keeps h (consulted_dispatchWithin h nesting.failure nesting.depth) path method

end Running

/-! ### The seal -/

/-- **Looking at nodes succeeds just if all of them compile**, and then all of them are looked
at. -/
theorem lookAt_eq_ok {view : View} {ids : List NodeId} (h : (lookAt view ids).outcome = .ok ()) :
    (lookAt view ids).consulted = ids ∧ ∀ id ∈ ids, ∃ c, view id = .ok c := by
  induction ids with
  | nil => exact ⟨rfl, nofun⟩
  | cons id ids ih =>
    rw [lookAt] at h ⊢
    obtain ⟨c, hc, hrest⟩ := Consult.bind_eq_ok.mp h
    obtain ⟨hids, hall⟩ := ih hrest
    refine ⟨?_, fun i hi => ?_⟩
    · rw [bind_of_ok hc]
      exact congrArg (id :: ·) hids
    · rcases List.mem_cons.mp hi with rfl | hi
      · exact ⟨c, node_eq_ok.mp hc⟩
      · exact hall i hi

theorem lookAt_keeps {view : View} {nodes : NodeId → Prop} {ids : List NodeId}
    (h : ∀ id ∈ ids, nodes id) : Keeps nodes (fun _ => True) (lookAt view ids) := by
  induction ids with
  | nil => exact .pure _
  | cons id ids ih =>
    exact .bind (.node (h id List.mem_cons_self) fun _ _ => trivial) fun _ _ =>
      ih fun i hi => h i (List.mem_cons_of_mem id hi)

theorem sealUp_keeps : Keeps (· < r.tree.size) (fun _ => True) r.sealUp := by
  rw [sealUp]
  split
  · exact .pure _
  · exact lookAt_keeps fun id hid => List.mem_range.mp hid

/-- **Sealing an open router** succeeds just if all nodes compile, and looks at all of them then. -/
theorem sealUp_eq_ok (hopen : r.isSealed = false) (h : r.sealUp.outcome = .ok ()) :
    r.sealUp.consulted = List.range r.tree.size ∧ ∀ id < r.tree.size, ∃ c, r.view id = .ok c := by
  have hlook : r.sealUp = lookAt r.view (List.range r.tree.size) := by
    rw [sealUp, hopen]
    rfl
  rw [hlook] at h ⊢
  obtain ⟨hids, hall⟩ := lookAt_eq_ok h
  exact ⟨hids, fun id hid => hall id (List.mem_range.mpr hid)⟩

end Router

end UrlRouting

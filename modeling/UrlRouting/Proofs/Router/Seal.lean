import UrlRouting.Proofs.Router.Reachable

/-!
# What a seal promises

A router that has been sealed stays sealed, and all its nodes compile
(`UrlRouting.Router.IsSound.not_nodeFault`). So no path that is matched or dispatched later, and no
url, meets a node whose schema is rejected. The schema of a host is not that of a node: the seal
does not look at it, and it is compiled, and may be rejected, when a url is asked for
(`UrlRouting.Router.schema_error_of_sealUp`).
-/

namespace UrlRouting

namespace Router

variable {r : Router}

/-! ### Sealed routers -/

/-- **A sealed router stays sealed.** -/
theorem isSealed_step (h : r.isSealed = true) (op : Operation) : (r.step op).1.isSealed = true := by
  rcases step_eq r op with ⟨e, -, -, heq⟩ | ⟨hopen, heq⟩
  · rw [heq]
    exact h
  · rw [heq]
    have hquestion : op.target? = none := by
      cases htarget : op.target? with
      | none => rfl
      | some target => exact absurd ((hopen (by rw [htarget]; rfl)).symm.trans h) nofun
    cases op with
    | route | hidden | group | routes | setting | controller => cases hquestion
    | dispatch | findMatch | url => exact (isSealed_keep r _).trans h
    | sealUp =>
      rw [perform]
      split
      · rfl
      · exact (isSealed_keep r _).trans h
    | find | isSealed | node | options => exact h

theorem isSealed_runAll (h : r.isSealed = true) (ops : List Operation) :
    (r.runAll ops).1.isSealed = true := by
  induction ops generalizing r with
  | nil => exact h
  | cons op ops ih => exact ih (isSealed_step h op)

/-- Sealing that succeeds seals. -/
theorem isSealed_sealUp (h : (r.step .sealUp).2 = .done (.ok ())) :
    (r.step .sealUp).1.isSealed = true := by
  change (r.perform .sealUp).2 = _ at h
  change (r.perform .sealUp).1.isSealed = true
  rw [perform] at h ⊢
  split
  · rfl
  · next e he =>
    rw [he] at h
    cases h

/-- **The nodes of a sealed router compile.** -/
theorem IsSound.not_nodeFault (h : r.IsSound) (hsealed : r.isSealed = true) (e : SchemaError) :
    ¬r.tree.NodeFault r.view e := by
  rintro ⟨id, hid, hfault⟩
  obtain ⟨c, hc⟩ := h.complete hsealed id hid
  rw [view_of_lookup hc] at hfault
  cases hfault

/-! ### Later questions -/

/-- **After a seal only the schema of a host is ever rejected**: matching and dispatching never
answer an error about a schema, and a url does so only for the schema of the host in force. -/
theorem schema_error_of_sealUp (options : Options) (before later : List Operation)
    (hseal : (((new options).runAll before).1.step .sealUp).2 = .done (.ok ())) :
    let r := ((new options).runAll (before ++ .sealUp :: later)).1
    (∀ path method nesting e,
      (r.step (.dispatch path method nesting)).2 ≠ .value (.error (.schema e))) ∧
    (∀ path method e, (r.step (.findMatch path method)).2 ≠ .matched (.error (.schema e))) ∧
    ∀ name params absolute e,
      (r.step (.url name params absolute)).2 = .text (.error (.schema e)) →
        ∃ id ∈ r.tree.find? name, r.tree.HostFault r.options id absolute e := by
  intro r
  have hr : r = ((((new options).runAll before).1.step .sealUp).1.runAll later).1 := by
    change ((new options).runAll (before ++ .sealUp :: later)).1 = _
    rw [runAll_append, runAll_cons]
  have hsound : r.IsSound := isSound_runAll options _
  have hsealed : r.isSealed = true := by
    rw [hr]
    exact isSealed_runAll (isSealed_sealUp hseal) later
  have hnone := hsound.not_nodeFault hsealed
  refine ⟨fun path method nesting e he => ?_, fun path method e he => ?_,
    fun name params absolute e he => ?_⟩
  · exact hnone e
      ((dispatchUpTo_keeps hsound.tree nesting path method).faults e (Answer.value.inj he))
  · exact hnone e ((findMatch_keeps hsound.tree path method).faults e (Answer.matched.inj he))
  · exact ((url_keeps hsound.tree name params absolute).faults e (Answer.text.inj he)).resolve_left
      (hnone e)

theorem schema_error_of_sealUp_one_route :
    (((new {}).runAll [.route "/x" (some "x") none (.identifier "")]).1.step .sealUp).2 =
      .done (.ok ()) ∧
    ∀ e, (((new {}).runAll ([.route "/x" (some "x") none (.identifier "")] ++
      [.sealUp])).1.step (.findMatch "/x" none)).2 ≠ .matched (.error (.schema e)) :=
  ⟨rfl, (schema_error_of_sealUp {} [.route "/x" (some "x") none (.identifier "")] [] rfl).2.1
    "/x" none⟩

/-- The seal passes over a host whose schema is rejected: a route can be registered, the router can
be sealed, and the path of the route can be matched, but its url cannot be built. -/
theorem sealUp_passes_over_host :
    ((new {}).runAll [.setting (.host "["), .route "/x" (some "x") none (.identifier ""),
      .sealUp]).2[2]? = some (.done (.ok ())) ∧
    (((new {}).runAll [.setting (.host "["), .route "/x" (some "x") none (.identifier ""),
      .sealUp]).1.step (.url "x" Params.empty false)).2 =
        .text (.error (.schema ⟨"[", .unterminatedSegment 0⟩)) := by
  constructor <;> rfl

end Router

end UrlRouting

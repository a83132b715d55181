import UrlRouting.Proofs.Router.Seal

/-!
# Sealed routers are frozen

A question changes nothing of a router but what it keeps of its nodes, and a sealed router keeps all
its nodes already. So a question leaves it as it is, what would change it is refused, and sealing it
again finds it sealed: **a sealed router is the same router after every operation**
(`UrlRouting.Router.IsSound.step_of_isSealed`). What many operations answer then is what each of
them answers alone.

A router is sealed by one seal among the operations that led to it
(`UrlRouting.Router.exists_sealUp`). Since nothing changes after that seal, the questions that come
later are answered as the first one after it (`UrlRouting.Router.frozen_after_sealUp`).
-/

namespace UrlRouting

namespace Router

variable {r : Router} {id : NodeId} {ids : List NodeId} {op : Operation}

/-! ### Nothing is left to keep -/

theorem keepNode_of_lookup {result : Except SchemaError CompiledNode}
    (h : r.kept.lookup id = some result) : r.keepNode id = r := by
  rw [keepNode, h]
  rfl

/-- **Keeping what is kept changes nothing.** -/
theorem keep_of_lookup (h : ∀ id ∈ ids, ∃ result, r.kept.lookup id = some result) :
    r.keep ids = r := by
  induction ids with
  | nil => rfl
  | cons id ids ih =>
    obtain ⟨result, hresult⟩ := h id List.mem_cons_self
    change (r.keepNode id).keep ids = r
    rw [keepNode_of_lookup hresult]
    exact ih fun i hi => h i (List.mem_cons_of_mem id hi)

/-- A sealed router has nothing left to keep of its tree. -/
theorem IsSound.keep_of_isSealed (h : r.IsSound) (hsealed : r.isSealed = true)
    (hids : ∀ id ∈ ids, id < r.tree.size) : r.keep ids = r :=
  keep_of_lookup fun id hid =>
    let ⟨c, hc⟩ := h.complete hsealed id (hids id hid)
    ⟨.ok c, hc⟩

/-! ### One operation -/

/-- **What comes too late is refused**, whatever it would have registered. -/
theorem step_of_target {target : String} (hsealed : r.isSealed = true)
    (hop : op.target? = some target) :
    r.step op = (r, op.refusal (.registerWhileSealed target)) := by
  rw [step, hop, hsealed]
  rfl

/-- A question leaves a sealed router as it is, and so does another seal. -/
theorem IsSound.perform_of_isSealed (h : r.IsSound) (hsealed : r.isSealed = true)
    (hop : op.target? = none) : (r.perform op).1 = r := by
  cases op with
  | route | hidden | group | routes | setting | controller => cases hop
  | find | isSealed | node | options => rfl
  | dispatch path method nesting =>
    exact h.keep_of_isSealed hsealed (dispatchUpTo_keeps h.tree nesting path method).nodes
  | findMatch path method =>
    exact h.keep_of_isSealed hsealed (findMatch_keeps h.tree path method).nodes
  | url name params absolute =>
    exact h.keep_of_isSealed hsealed (url_keeps h.tree name params absolute).nodes
  | sealUp =>
    rw [Router.perform, h.keep_of_isSealed hsealed sealUp_keeps.nodes]
    split
    · -- the seal is there already
      rw [← hsealed]
    · rfl

/-- **A sealed router is the same router after every operation.** -/
theorem IsSound.step_of_isSealed (h : r.IsSound) (hsealed : r.isSealed = true) (op : Operation) :
    (r.step op).1 = r := by
  cases htarget : op.target? with
  | some target => rw [step_of_target hsealed htarget]
  | none =>
    rw [Router.step, htarget]
    exact h.perform_of_isSealed hsealed htarget

/-! ### Many operations -/

/-- **What many operations answer** a sealed router answers to each of them alone. -/
theorem IsSound.runAll_of_isSealed (h : r.IsSound) (hsealed : r.isSealed = true)
    (ops : List Operation) : r.runAll ops = (r, ops.map fun op => (r.step op).2) := by
  induction ops with
  | nil => rfl
  | cons op ops ih => rw [runAll_cons, h.step_of_isSealed hsealed op, ih, List.map_cons]

/-- Only the seal seals. -/
theorem isSealed_step_of_ne (hop : op ≠ .sealUp) : (r.step op).1.isSealed = r.isSealed := by
  rcases step_eq r op with ⟨e, -, -, heq⟩ | ⟨-, heq⟩
  · rw [heq]
  · rw [heq]
    cases op with
    | sealUp => exact absurd rfl hop
    | find | isSealed | node | options | routes | setting | controller => rfl
    | dispatch | findMatch | url => exact isSealed_keep r _
    | route | hidden =>
      rw [perform, register]
      split <;> rfl
    | group =>
      rw [perform]
      split <;> rfl

/-- **A router that has become sealed was sealed by one of the operations**, and was open up to
there. -/
theorem exists_sealUp (hopen : r.isSealed = false) {ops : List Operation}
    (h : (r.runAll ops).1.isSealed = true) :
    ∃ before later, ops = before ++ .sealUp :: later ∧ (r.runAll before).1.isSealed = false ∧
      ((r.runAll before).1.step .sealUp).1.isSealed = true := by
  induction ops generalizing r with
  | nil => exact absurd (hopen.symm.trans h) nofun
  | cons op ops ih =>
    -- either the first operation seals the router, or it is open behind it as it was before
    cases hstep : (r.step op).1.isSealed with
    | true =>
      have hop : op = .sealUp := by
        by_contra hne
        exact absurd (hopen.symm.trans ((isSealed_step_of_ne hne).symm.trans hstep)) nofun
      subst hop
      exact ⟨[], ops, rfl, hopen, hstep⟩
    | false =>
      obtain ⟨before, later, rfl, hbefore, hseal⟩ := ih hstep h
      exact ⟨op :: before, later, rfl, hbefore, hseal⟩

/-- **A sealed router is frozen.** Whatever operations have led to a sealed router, one of them
sealed it, and the router has not changed since. However many operations follow, the router stays
the same, its nodes with all that is set on them, its options, its controllers, and the seal; what
would register or set something is refused, with nothing of its plan carried out; and every
operation is answered as if it came right after the seal. -/
theorem frozen_after_sealUp (options : Options) (ops later : List Operation)
    (hsealed : ((new options).runAll ops).1.isSealed = true) :
    ∃ before between, ops = before ++ .sealUp :: between ∧
      ((new options).runAll before).1.isSealed = false ∧
      let r := (((new options).runAll before).1.step .sealUp).1
      r.isSealed = true ∧ ((new options).runAll ops).1 = r ∧ (r.runAll later).1 = r ∧
        (r.runAll later).2 = later.map (fun op => (r.step op).2) ∧
        ∀ op target, op.target? = some target →
          (r.step op).2 = op.refusal (.registerWhileSealed target) := by
  obtain ⟨before, between, rfl, hopen, hseal⟩ := exists_sealUp rfl hsealed
  have hsound := ((isSound_runAll options before).step .sealUp).1
  refine ⟨before, between, rfl, hopen, hseal, ?_, ?_, ?_, fun op target hop => ?_⟩
  · rw [runAll_append, runAll_cons, hsound.runAll_of_isSealed hseal]
  · rw [hsound.runAll_of_isSealed hseal]
  · rw [hsound.runAll_of_isSealed hseal]
  · rw [step_of_target hseal hop]

theorem frozen_after_sealUp_one_route :
    let r := ((new {}).runAll [.route "/x" (some "x") none (.identifier ""), .sealUp]).1
    r.isSealed = true ∧ (r.runAll [.setting (.host "h"), .find "x"]).1 = r ∧
      (r.runAll [.setting (.host "h"), .find "x"]).2 =
        [.done (.error (.registerWhileSealed "host")), .found (some 1)] := by
  intro r
  obtain ⟨before, between, -, -, -, hr, hlater, hanswers, hrefused⟩ :=
    frozen_after_sealUp {} [.route "/x" (some "x") none (.identifier ""), .sealUp]
      [.setting (.host "h"), .find "x"] rfl
  rw [← hr] at hlater hanswers hrefused
  refine ⟨rfl, hlater, hanswers.trans ?_⟩
  rw [List.map_cons, hrefused _ "host" rfl]
  rfl

end Router

end UrlRouting

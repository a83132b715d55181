import UrlRouting.Consult

/-!
# What a consultation says and looks at

A consultation is put together from a few pieces, and these are their equations: its answer is that
of the first piece that fails, or else of the last one, and the nodes it has looked at are those of
the pieces up to there.

Two things are asked of consultations again and again: that they look at nodes of a certain kind
only, and where an error about a schema may come from. `UrlRouting.Consult.Keeps` says both, and it
is put together along with the consultation.
-/

namespace UrlRouting

namespace Consult

variable {α β : Type} {a : α} {b : β} {x : Consult α} {f : α → Consult β} {e : RouterError}
  {view : View} {id : NodeId}

/-! ### Answers -/

@[simp] theorem outcome_pure : (pure a : Consult α).outcome = .ok a := rfl

@[simp] theorem outcome_lift (outcome : Except RouterError α) : (lift outcome).outcome = outcome :=
  rfl

@[simp] theorem outcome_fail : (fail e : Consult α).outcome = .error e := rfl

@[simp] theorem outcome_node : (node view id).outcome = (view id).mapError .schema := rfl

@[simp] theorem outcome_attempt : x.attempt.outcome = .ok x.outcome := rfl

theorem bind_of_ok (h : x.outcome = .ok a) :
    x >>= f = ⟨(f a).outcome, x.consulted ++ (f a).consulted⟩ := by
  change x.andThen f = _
  rw [andThen, h]

theorem bind_of_error (h : x.outcome = .error e) : x >>= f = ⟨.error e, x.consulted⟩ := by
  change x.andThen f = _
  rw [andThen, h]

/-- **Consultations are a monad**: it does not matter how the pieces are bracketed. -/
instance : LawfulMonad Consult := LawfulMonad.mk' Consult
  (fun x => by
    change (x >>= fun a => Pure.pure a) = x
    cases h : x.outcome with
    | ok a =>
      rw [bind_of_ok h]
      change (⟨.ok a, x.consulted ++ []⟩ : Consult _) = x
      rw [List.append_nil, ← h]
    | error e => rw [bind_of_error h, ← h])
  (fun a f => bind_of_ok rfl)
  (fun x f g => by
    cases h : x.outcome with
    | ok a =>
      rw [bind_of_ok h, bind_of_ok h]
      cases hf : (f a).outcome with
      | ok b =>
        rw [bind_of_ok hf, bind_of_ok rfl, List.append_assoc]
      | error e =>
        rw [bind_of_error hf, bind_of_error rfl]
    | error e => rw [bind_of_error h, bind_of_error h, bind_of_error rfl])

/-- **An answer goes through every piece.** -/
theorem bind_eq_ok :
    (x >>= f).outcome = .ok b ↔ ∃ a, x.outcome = .ok a ∧ (f a).outcome = .ok b := by
  cases h : x.outcome with
  | ok a => simp [bind_of_ok h]
  | error e => simp [bind_of_error h]

/-- **An error comes from the first piece or from what follows it.** -/
theorem bind_eq_error : (x >>= f).outcome = .error e ↔
    x.outcome = .error e ∨ ∃ a, x.outcome = .ok a ∧ (f a).outcome = .error e := by
  cases h : x.outcome with
  | ok a => simp [bind_of_ok h]
  | error e => simp [bind_of_error h]

theorem mem_consulted_bind : id ∈ (x >>= f).consulted ↔
    id ∈ x.consulted ∨ ∃ a, x.outcome = .ok a ∧ id ∈ (f a).consulted := by
  cases h : x.outcome with
  | ok a => simp [bind_of_ok h]
  | error e => simp [bind_of_error h]

theorem node_eq_ok {compiled : CompiledNode} :
    (node view id).outcome = .ok compiled ↔ view id = .ok compiled := by
  rw [outcome_node]
  cases view id with
  | ok c =>
    constructor
    · intro h
      cases h
      rfl
    · intro h
      cases h
      rfl
  | error e =>
    constructor
    · intro h
      cases h
    · intro h
      cases h

/-! ### Nodes and faults -/

/-- **A consultation keeps to some nodes and to some faults**: it looks at these nodes only, and if
its answer is an error about a schema, it is one of these faults. -/
structure Keeps (nodes : NodeId → Prop) (faults : SchemaError → Prop) (x : Consult α) : Prop where
  /-- The nodes it looks at. -/
  nodes : ∀ id ∈ x.consulted, nodes id
  /-- The faults it answers. -/
  faults : ∀ e, x.outcome = .error (.schema e) → faults e

namespace Keeps

variable {nodes : NodeId → Prop} {faults : SchemaError → Prop}

theorem pure (a : α) : Keeps nodes faults (Pure.pure a) := ⟨nofun, nofun⟩

/-- Without nodes, only the answer matters. -/
theorem lift {outcome : Except RouterError α} (h : ∀ e, outcome = .error (.schema e) → faults e) :
    Keeps nodes faults (Consult.lift outcome) := ⟨nofun, h⟩

theorem fail (h : ∀ fault, e = .schema fault → faults fault) :
    Keeps nodes faults (Consult.fail e : Consult α) where
  nodes := nofun
  faults fault hfault := h fault (Except.error.inj hfault)

theorem node (hid : nodes id) (h : ∀ e, view id = .error e → faults e) :
    Keeps nodes faults (Consult.node view id) where
  nodes i hi := List.mem_singleton.mp hi ▸ hid
  faults e he := by
    rw [outcome_node] at he
    cases hview : view id with
    | ok c =>
      rw [hview] at he
      cases he
    | error fault =>
      rw [hview] at he
      cases he
      exact h e hview

/-- What is attempted answers no error. -/
theorem attempt (h : ∀ id ∈ x.consulted, nodes id) : Keeps nodes faults x.attempt := ⟨h, nofun⟩

/-- **Pieces that keep to the same** are put together to one that does. -/
theorem bind (h : Keeps nodes faults x)
    (hf : ∀ a, x.outcome = .ok a → Keeps nodes faults (f a)) : Keeps nodes faults (x >>= f) where
  nodes id hid := by
    rcases mem_consulted_bind.mp hid with hid | ⟨a, ha, hid⟩
    · exact h.nodes id hid
    · exact (hf a ha).nodes id hid
  faults e he := by
    rcases bind_eq_error.mp he with he | ⟨a, ha, he⟩
    · exact h.faults e he
    · exact (hf a ha).faults e he

theorem mono {faults' : SchemaError → Prop} (h : Keeps nodes faults x)
    (hmono : ∀ e, faults e → faults' e) : Keeps nodes faults' x :=
  ⟨h.nodes, fun e he => hmono e (h.faults e he)⟩

end Keeps

end Consult

end UrlRouting

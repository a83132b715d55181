import UrlRouting.Url.Form

/-!
# Every query can be written

A value that is neither a list nor an object goes into a query with the text that it has in a path.
A list or an object has no text there, and that would be an error. But it never comes to that, as
lists and objects are taken apart until nothing of them is left: every value has pairs
(`UrlRouting.Form.exists_pairs`), and all parameters have a query (`UrlRouting.Form.query_eq`).
-/

namespace UrlRouting

namespace Value

/-- Is it a leaf: a truth value, a number or a text? -/
def isLeaf : Value → Bool
  | .bool _ | .int _ | .double _ | .str _ => true
  | .null | .arr _ | .obj _ => false

/-- **Induction on a value**: it is null, a leaf, a list or an object. -/
@[elab_as_elim]
theorem induction {motive : Value → Prop} (null : motive .null)
    (leaf : ∀ v : Value, v.isLeaf = true → motive v)
    (arr : ∀ items : List Value, (∀ v ∈ items, motive v) → motive (.arr items))
    (obj : ∀ fields : List (String × Value), (∀ f ∈ fields, motive f.2) → motive (.obj fields))
    (v : Value) : motive v :=
  @Value.rec motive (fun items => ∀ v ∈ items, motive v) (fun fields => ∀ f ∈ fields, motive f.2)
    (fun f => motive f.2) null (fun _ => leaf _ rfl) (fun _ => leaf _ rfl) (fun _ => leaf _ rfl)
    (fun _ => leaf _ rfl) arr obj (List.forall_mem_nil _)
    (fun _ _ head tail => List.forall_mem_cons.mpr ⟨head, tail⟩) (List.forall_mem_nil _)
    (fun _ _ head tail => List.forall_mem_cons.mpr ⟨head, tail⟩) (fun _ _ h => h) v

/-- **A leaf has a text.** -/
theorem exists_urlText {v : Value} (hv : v.isLeaf = true) (name : String) :
    ∃ text, v.urlText name = .ok text := by
  cases v with
  | null | arr | obj => cases hv
  | bool | int | double | str => exact ⟨_, rfl⟩

end Value

namespace Form

/-! ### Pairs -/

/-- A leaf becomes one pair. -/
theorem pairs_of_isLeaf {v : Value} (hv : v.isLeaf = true) (name : String) :
    pairs name v = (v.urlText name).map fun text => [(name, text)] := by
  cases v with
  | null | arr | obj => cases hv
  | bool | int | double | str => rfl

section

variable {items : List Value} {fields : List (String × Value)}

theorem exists_itemPairs (h : ∀ v ∈ items, ∀ name, ∃ ps, pairs name v = .ok ps) (name : String)
    (index : Nat) : ∃ ps, itemPairs name index items = .ok ps := by
  induction items generalizing index with
  | nil => exact ⟨[], rfl⟩
  | cons v items ih =>
    obtain ⟨hv, hitems⟩ := List.forall_mem_cons.mp h
    obtain ⟨own, hown⟩ := hv (name ++ "[" ++ toString index ++ "]")
    obtain ⟨others, hothers⟩ := ih hitems (index + 1)
    rw [itemPairs, hown, hothers]
    exact ⟨own ++ others, rfl⟩

theorem exists_fieldPairs (h : ∀ f ∈ fields, ∀ name, ∃ ps, pairs name f.2 = .ok ps)
    (name : String) : ∃ ps, fieldPairs name fields = .ok ps := by
  induction fields with
  | nil => exact ⟨[], rfl⟩
  | cons f fields ih =>
    obtain ⟨hf, hfields⟩ := List.forall_mem_cons.mp h
    obtain ⟨own, hown⟩ := hf (name ++ "[" ++ f.1 ++ "]")
    obtain ⟨others, hothers⟩ := ih hfields
    rw [fieldPairs, hown, hothers]
    exact ⟨own ++ others, rfl⟩

end

/-- **Every value has pairs**: nothing without a text is ever written. -/
theorem exists_pairs (v : Value) : ∀ name, ∃ ps, pairs name v = .ok ps := by
  induction v using Value.induction with
  | null => exact fun name => ⟨[], rfl⟩
  | leaf v hv =>
    intro name
    obtain ⟨text, htext⟩ := v.exists_urlText hv name
    rw [pairs_of_isLeaf hv, htext]
    exact ⟨[(name, text)], rfl⟩
  | arr items ih => exact fun name => exists_itemPairs ih name 0
  | obj fields ih => exact fun name => exists_fieldPairs ih name

/-- Parameters have the pairs of their values, one after the other. -/
theorem exists_paramPairs (params : Params) : ∃ ps, paramPairs params = .ok ps := by
  obtain ⟨rows, hrows⟩ : ∃ rows, (params.entries.mapM fun e => pairs e.1 e.2) = .ok rows := by
    induction params.entries with
    | nil => exact ⟨[], rfl⟩
    | cons e entries ih =>
      obtain ⟨own, hown⟩ := exists_pairs e.2 e.1
      obtain ⟨others, hothers⟩ := ih
      rw [List.mapM_cons, hown, hothers]
      exact ⟨own :: others, rfl⟩
  exact ⟨rows.flatten, by rw [paramPairs, hrows]; rfl⟩

/-! ### Queries -/

/-- The text of a query. -/
def queryText (params : Params) : String := (query params).toOption.getD ""

/-- **Every query can be written.** -/
theorem query_eq (params : Params) : query params = .ok (queryText params) := by
  obtain ⟨ps, hps⟩ := exists_paramPairs params
  rw [queryText, query, hps]
  rfl

end Form

end UrlRouting

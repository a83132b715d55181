import Mathlib
import UrlRouting.Proofs.Params
import UrlRouting.Proofs.Url.Decoding
import UrlRouting.Proofs.Url.Query

/-!
# What a query string says

A parameter whose value is a list or an object goes into the query as several pairs, one for each
leaf of the value: each truth value, number or text in it, however deep. The name of the pair is the
address of the leaf, with a pair of brackets for every step, and its value is the text of the leaf.

So a query is complete if reading it gives one pair for each leaf of the parameters, in their order
and depth first (`UrlRouting.Form.decode?_query`). The leaves are not taken from the way pairs are
made, but from looking: a leaf stands at an address if the steps of the address lead to it
(`UrlRouting.Value.at?`), and it comes before another one if at the first step that differs it takes
the smaller index, or the smaller name. These two conditions leave one list only.

The text of a list or an object would be an error, but no leaf is one, and so there is a query
string for all parameters.
-/

namespace UrlRouting

namespace Value

/-! ### Addresses -/

/-- A step into a value. -/
inductive Step where
  /-- To the item of a list with an index; null items count. -/
  | item (index : Nat)
  /-- To the field of an object with a name. -/
  | field (name : String)
  deriving DecidableEq, Repr

/-- The step in the name of a pair. -/
def Step.text : Step → String
  | .item index => "[" ++ toString index ++ "]"
  | .field name => "[" ++ name ++ "]"

/-- One step comes before another one from the same place. -/
def Step.Before : Step → Step → Prop
  | .item i, .item j => i < j
  | .field m, .field n => m < n
  | _, _ => False

/-- What the steps of an address lead to. -/
def at? : Value → List Step → Option Value
  | v, [] => some v
  | .arr items, .item index :: rest => items[index]?.bind (·.at? rest)
  | .obj fields, .field name :: rest => (fields.lookup name).bind (·.at? rest)
  | _, _ :: _ => none

section Leading

variable {address : List Step} {leaf : Value}

/-- Nothing in null is a leaf. -/
theorem at?_null_ne (hleaf : leaf.isLeaf = true) : Value.null.at? address ≠ some leaf := by
  intro hat
  cases address with
  | nil =>
    cases hat
    cases hleaf
  | cons step rest =>
    cases step with
    | item | field => cases hat

/-- There is no step into a leaf. -/
theorem at?_of_isLeaf {v : Value} (hv : v.isLeaf = true) :
    v.at? address = some leaf ↔ address = [] ∧ leaf = v := by
  cases address with
  | nil =>
    rw [at?]
    exact ⟨fun hat => ⟨rfl, (Option.some.inj hat).symm⟩, fun h => congrArg some h.2.symm⟩
  | cons step rest =>
    refine iff_of_false (fun hat => ?_) fun h => List.cons_ne_nil _ _ h.1
    cases step with
    | item | field =>
      cases v with
      | null | arr | obj => cases hv
      | bool | int | double | str => cases hat

/-- The first step into a list is an index of it. -/
theorem at?_arr_iff {items : List Value} (hleaf : leaf.isLeaf = true) :
    (Value.arr items).at? address = some leaf ↔
      ∃ i v rest, items[i]? = some v ∧ address = .item i :: rest ∧ v.at? rest = some leaf := by
  constructor
  · intro hat
    cases address with
    | nil =>
      cases hat
      cases hleaf
    | cons step rest =>
      cases step with
      | field name => cases hat
      | item index =>
        obtain ⟨v, hv, hat⟩ := Option.bind_eq_some_iff.mp hat
        exact ⟨index, v, rest, hv, rfl, hat⟩
  · rintro ⟨i, v, rest, hv, rfl, hat⟩
    exact Option.bind_eq_some_iff.mpr ⟨v, hv, hat⟩

/-- The first step into an object is a name of a field. -/
theorem at?_obj_iff {fields : List (String × Value)} (hleaf : leaf.isLeaf = true) :
    (Value.obj fields).at? address = some leaf ↔ ∃ name v rest,
      fields.lookup name = some v ∧ address = .field name :: rest ∧ v.at? rest = some leaf := by
  constructor
  · intro hat
    cases address with
    | nil =>
      cases hat
      cases hleaf
    | cons step rest =>
      cases step with
      | item index => cases hat
      | field name =>
        obtain ⟨v, hv, hat⟩ := Option.bind_eq_some_iff.mp hat
        exact ⟨name, v, rest, hv, rfl, hat⟩
  · rintro ⟨name, v, rest, hv, rfl, hat⟩
    exact Option.bind_eq_some_iff.mpr ⟨v, hv, hat⟩

end Leading

/-- **The fields of every object in a value are in ascending order** of their names, as they are
kept. -/
inductive IsSorted : Value → Prop
  /-- Null has no fields. -/
  | null : IsSorted .null
  /-- A leaf has no fields. -/
  | leaf {v : Value} (h : v.isLeaf = true) : IsSorted v
  /-- A list of such values. -/
  | arr {items : List Value} (items_sorted : ∀ v ∈ items, IsSorted v) : IsSorted (.arr items)
  /-- An object of such values. -/
  | obj {fields : List (String × Value)} (names : (fields.map (·.1)).Pairwise (· < ·))
      (fields_sorted : ∀ f ∈ fields, IsSorted f.2) : IsSorted (.obj fields)

theorem mem_of_mem_insertField {name : String} {v : Value} {fields : List (String × Value)}
    {f : String × Value} (h : f ∈ insertField name v fields) : f = (name, v) ∨ f ∈ fields := by
  induction fields with
  | nil => exact .inl (List.mem_singleton.mp h)
  | cons first fields ih =>
    rw [insertField] at h
    split at h
    · exact (List.mem_cons.mp h).imp_right (List.mem_cons_of_mem _)
    · split at h
      · exact List.mem_cons.mp h
      · rcases List.mem_cons.mp h with rfl | h
        · exact .inr List.mem_cons_self
        · exact (ih h).imp_right (List.mem_cons_of_mem _)

theorem pairwise_insertField {name : String} {v : Value} {fields : List (String × Value)}
    (h : (fields.map (·.1)).Pairwise (· < ·)) :
    ((insertField name v fields).map (·.1)).Pairwise (· < ·) := by
  induction fields with
  | nil => exact List.pairwise_singleton _ _
  | cons first fields ih =>
    obtain ⟨hfirst, hfields⟩ := List.pairwise_cons.mp h
    rw [insertField]
    split
    · next heq => exact List.pairwise_cons.mpr ⟨heq ▸ hfirst, hfields⟩
    · next hne =>
      split
      · next hless =>
        refine List.pairwise_cons.mpr ⟨fun other hother => ?_, h⟩
        rcases List.mem_cons.mp hother with rfl | hother
        · exact hless
        · exact hless.trans (hfirst other hother)
      · next hnot =>
        refine List.pairwise_cons.mpr ⟨fun other hother => ?_, ih hfields⟩
        obtain ⟨f, hf, rfl⟩ := List.mem_map.mp hother
        rcases mem_of_mem_insertField hf with rfl | hf
        · exact lt_of_le_of_ne (not_lt.mp hnot) (Ne.symm hne)
        · exact hfirst f.1 (List.mem_map_of_mem hf)

/-- **Objects are made that way.** -/
theorem isSorted_ofFields {fields : List (String × Value)} (h : ∀ f ∈ fields, f.2.IsSorted) :
    (ofFields fields).IsSorted := by
  -- the fields put in so far are in order, and so are their values
  suffices hfold : ∀ sorted : List (String × Value), (sorted.map (·.1)).Pairwise (· < ·) →
      (∀ f ∈ sorted, f.2.IsSorted) →
        (Value.obj (fields.foldl (fun sorted f => insertField f.1 f.2 sorted) sorted)).IsSorted from
    hfold [] .nil (List.forall_mem_nil _)
  induction fields with
  | nil => exact fun sorted hnames hsorted => .obj hnames hsorted
  | cons first fields ih =>
    obtain ⟨hfirst, hfields⟩ := List.forall_mem_cons.mp h
    intro sorted hnames hsorted
    refine ih hfields _ (pairwise_insertField hnames) fun f hf => ?_
    rcases mem_of_mem_insertField hf with rfl | hf
    · exact hfirst
    · exact hsorted f hf

/-! ### Leaves -/

mutual

/-- The leaves of a value with their addresses, depth first. -/
def leaves : Value → List (List Step × Value)
  | .null => []
  | .bool b => [([], .bool b)]
  | .int n => [([], .int n)]
  | .double x => [([], .double x)]
  | .str s => [([], .str s)]
  | .arr items => itemLeaves 0 items
  | .obj fields => fieldLeaves fields

/-- The leaves of list items, numbered on from an index. -/
def itemLeaves (index : Nat) : List Value → List (List Step × Value)
  | [] => []
  | v :: rest =>
    v.leaves.map (fun l => (.item index :: l.1, l.2)) ++ itemLeaves (index + 1) rest

/-- The leaves of fields. -/
def fieldLeaves : List (String × Value) → List (List Step × Value)
  | [] => []
  | (name, v) :: rest => v.leaves.map (fun l => (.field name :: l.1, l.2)) ++ fieldLeaves rest

end

theorem leaves_of_isLeaf {v : Value} (h : v.isLeaf = true) : v.leaves = [([], v)] := by
  cases v with
  | null | arr | obj => cases h
  | bool | int | double | str => rw [leaves]

theorem mem_itemLeaves_iff {index : Nat} {items : List Value} {address : List Step} {leaf : Value} :
    (address, leaf) ∈ itemLeaves index items ↔
      ∃ i v rest, items[i]? = some v ∧ address = .item (index + i) :: rest ∧
        (rest, leaf) ∈ v.leaves := by
  induction items generalizing index with
  | nil => simp [itemLeaves]
  | cons v items ih =>
    rw [itemLeaves, List.mem_append, ih, List.mem_map]
    constructor
    · rintro (⟨⟨rest, l⟩, hmem, heq⟩ | ⟨i, w, rest, hw, rfl, hmem⟩)
      · cases heq
        exact ⟨0, v, rest, rfl, rfl, hmem⟩
      · exact ⟨i + 1, w, rest, hw, by rw [Nat.add_right_comm, Nat.add_assoc], hmem⟩
    · rintro ⟨_ | i, w, rest, hw, rfl, hmem⟩
      · obtain rfl := Option.some.inj hw
        exact .inl ⟨(rest, leaf), hmem, rfl⟩
      · exact .inr ⟨i, w, rest, hw, by rw [Nat.add_right_comm, Nat.add_assoc], hmem⟩

theorem mem_fieldLeaves_iff {fields : List (String × Value)} {address : List Step} {leaf : Value} :
    (address, leaf) ∈ fieldLeaves fields ↔
      ∃ name v rest, (name, v) ∈ fields ∧ address = .field name :: rest ∧
        (rest, leaf) ∈ v.leaves := by
  induction fields with
  | nil => simp [fieldLeaves]
  | cons f fields ih =>
    rw [fieldLeaves, List.mem_append, ih, List.mem_map]
    constructor
    · rintro (⟨⟨rest, l⟩, hmem, heq⟩ | ⟨name, v, rest, hf, rfl, hmem⟩)
      · cases heq
        exact ⟨f.1, f.2, rest, List.mem_cons_self, rfl, hmem⟩
      · exact ⟨name, v, rest, List.mem_cons_of_mem _ hf, rfl, hmem⟩
    · rintro ⟨name, v, rest, hf, rfl, hmem⟩
      rcases List.mem_cons.mp hf with rfl | hf
      · exact .inl ⟨(rest, leaf), hmem, rfl⟩
      · exact .inr ⟨name, v, rest, hf, rfl, hmem⟩

/-- Every leaf is one. -/
theorem isLeaf_of_mem_leaves {v leaf : Value} {address : List Step}
    (h : (address, leaf) ∈ v.leaves) : leaf.isLeaf = true := by
  induction v using Value.induction generalizing address with
  | null => cases h
  | leaf v hv =>
    rw [leaves_of_isLeaf hv] at h
    obtain ⟨-, rfl⟩ := Prod.mk.inj (List.mem_singleton.mp h)
    exact hv
  | arr items ih =>
    rw [leaves] at h
    obtain ⟨i, v, rest, hv, -, hmem⟩ := mem_itemLeaves_iff.mp h
    exact ih v (List.mem_of_getElem? hv) hmem
  | obj fields ih =>
    rw [leaves] at h
    obtain ⟨name, v, rest, hv, -, hmem⟩ := mem_fieldLeaves_iff.mp h
    exact ih _ hv hmem

/-- Among the leaves of a value are those that stand at its addresses. -/
theorem mem_leaves_iff_of_isLeaf {v leaf : Value} (h : v.IsSorted) (hleaf : leaf.isLeaf = true)
    {address : List Step} : (address, leaf) ∈ v.leaves ↔ v.at? address = some leaf := by
  induction h generalizing address with
  | null =>
    rw [leaves]
    exact iff_of_false List.not_mem_nil (at?_null_ne hleaf)
  | leaf hv => rw [leaves_of_isLeaf hv, List.mem_singleton, Prod.mk.injEq, at?_of_isLeaf hv]
  | arr _ ih =>
    rw [leaves, mem_itemLeaves_iff, at?_arr_iff hleaf]
    simp only [Nat.zero_add]
    refine exists₃_congr fun i v rest => and_congr_right fun hv => and_congr_right fun _ => ?_
    exact ih v (List.mem_of_getElem? hv)
  | @obj fields names _ ih =>
    have hlookup (name : String) (v : Value) :
        fields.lookup name = some v ↔ (name, v) ∈ fields :=
      Params.get?_eq_some_iff (p := ⟨fields⟩) (names.imp ne_of_lt)
    rw [leaves, mem_fieldLeaves_iff, at?_obj_iff hleaf]
    refine exists₃_congr fun name v rest => ?_
    rw [hlookup]
    exact and_congr_right fun hv => and_congr_right fun _ => ih _ hv

/-- **The leaves of a value are what stands at its addresses**, as far as it is a leaf. -/
theorem mem_leaves_iff {v leaf : Value} (h : v.IsSorted) {address : List Step} :
    (address, leaf) ∈ v.leaves ↔ v.at? address = some leaf ∧ leaf.isLeaf = true := by
  constructor
  · intro hmem
    have hleaf := isLeaf_of_mem_leaves hmem
    exact ⟨(mem_leaves_iff_of_isLeaf h hleaf).mp hmem, hleaf⟩
  · rintro ⟨hat, hleaf⟩
    exact (mem_leaves_iff_of_isLeaf h hleaf).mpr hat

/-- One address comes before another one from the same place: at the first step that differs. -/
abbrev AddressBefore : List Step → List Step → Prop := List.Lex Step.Before

theorem itemLeaves_pairwise {index : Nat} {items : List Value}
    (h : ∀ v ∈ items, v.leaves.Pairwise fun l k => AddressBefore l.1 k.1) :
    (itemLeaves index items).Pairwise fun l k => AddressBefore l.1 k.1 := by
  induction items generalizing index with
  | nil => exact .nil
  | cons v items ih =>
    obtain ⟨hv, hitems⟩ := List.forall_mem_cons.mp h
    refine List.pairwise_append.mpr ⟨?_, ih hitems, ?_⟩
    · exact List.pairwise_map.mpr (hv.imp fun hbefore => .cons hbefore)
    · rintro l hl ⟨address, leaf⟩ hk
      obtain ⟨⟨rest, leaf'⟩, -, rfl⟩ := List.mem_map.mp hl
      obtain ⟨i, w, rest', -, rfl, -⟩ := mem_itemLeaves_iff.mp hk
      exact .rel (show index < index + 1 + i by omega)

theorem fieldLeaves_pairwise {fields : List (String × Value)}
    (hnames : (fields.map (·.1)).Pairwise (· < ·))
    (h : ∀ f ∈ fields, f.2.leaves.Pairwise fun l k => AddressBefore l.1 k.1) :
    (fieldLeaves fields).Pairwise fun l k => AddressBefore l.1 k.1 := by
  induction fields with
  | nil => exact .nil
  | cons f fields ih =>
    obtain ⟨hf, hfields⟩ := List.forall_mem_cons.mp h
    obtain ⟨hless, hnames⟩ := List.pairwise_cons.mp hnames
    refine List.pairwise_append.mpr ⟨?_, ih hnames hfields, ?_⟩
    · exact List.pairwise_map.mpr (hf.imp fun hbefore => .cons hbefore)
    · rintro l hl ⟨address, leaf⟩ hk
      obtain ⟨⟨rest, leaf'⟩, -, rfl⟩ := List.mem_map.mp hl
      obtain ⟨name, w, rest', hname, rfl, -⟩ := mem_fieldLeaves_iff.mp hk
      exact .rel (hless name (List.mem_map_of_mem hname))

/-- **The leaves of a value are in the order of their addresses**, each there once. -/
theorem leaves_pairwise {v : Value} (h : v.IsSorted) :
    v.leaves.Pairwise fun l k => AddressBefore l.1 k.1 := by
  induction h with
  | null => rw [leaves]; exact .nil
  | leaf hv => rw [leaves_of_isLeaf hv]; exact List.pairwise_singleton _ _
  | arr _ ih => rw [leaves]; exact itemLeaves_pairwise ih
  | obj names _ ih => rw [leaves]; exact fieldLeaves_pairwise names ih

end Value

/-! ### Leaves of parameters -/

/-- A leaf of parameters. -/
structure Leaf where
  /-- The parameter. -/
  name : String
  /-- Where the leaf stands in the value of the parameter. -/
  address : List Value.Step
  /-- The leaf itself. -/
  value : Value

namespace Leaf

/-- The name of its pair: that of the parameter, and the steps to the leaf. -/
def key (leaf : Leaf) : String := leaf.address.foldl (fun name step => name ++ step.text) leaf.name

/-- The pair of a leaf, if it has a text. -/
def pair (leaf : Leaf) : Except RouterError (String × String) :=
  (leaf.value.urlText leaf.key).map (leaf.key, ·)

/-- **A leaf that stands in parameters.** -/
def StandsIn (leaf : Leaf) (params : Params) : Prop :=
  ∃ v, params.get? leaf.name = some v ∧ v.at? leaf.address = some leaf.value ∧
    leaf.value.isLeaf = true

/-- One leaf comes before another one: that of an earlier parameter, and among those of one
parameter by their addresses. -/
def Before (names : List String) (leaf other : Leaf) : Prop :=
  names.idxOf leaf.name < names.idxOf other.name ∨
    leaf.name = other.name ∧ Value.AddressBefore leaf.address other.address

end Leaf

namespace Params

variable {params : Params}

/-- The leaves of parameters. -/
def leaves (params : Params) : List Leaf :=
  params.entries.flatMap fun e => e.2.leaves.map fun l => ⟨e.1, l.1, l.2⟩

theorem mem_leaves_iff (hnodup : params.names.Nodup) (hsorted : ∀ e ∈ params.entries, e.2.IsSorted)
    {leaf : Leaf} : leaf ∈ params.leaves ↔ leaf.StandsIn params := by
  obtain ⟨name, address, value⟩ := leaf
  rw [leaves, List.mem_flatMap]
  constructor
  · rintro ⟨⟨other, v⟩, he, hleaf⟩
    obtain ⟨l, hl, heq⟩ := List.mem_map.mp hleaf
    cases heq
    exact ⟨v, (get?_eq_some_iff hnodup).mpr he, (Value.mem_leaves_iff (hsorted _ he)).mp hl⟩
  · rintro ⟨v, hget, hv⟩
    have he := mem_entries_of_get? hget
    exact ⟨(name, v), he, List.mem_map.mpr
      ⟨(address, value), (Value.mem_leaves_iff (hsorted _ he)).mpr hv, rfl⟩⟩

theorem leaves_pairwise (hnodup : params.names.Nodup)
    (hsorted : ∀ e ∈ params.entries, e.2.IsSorted) :
    params.leaves.Pairwise (Leaf.Before params.names) := by
  have hplaces : params.names.Pairwise fun m n => params.names.idxOf m < params.names.idxOf n := by
    rw [List.pairwise_iff_getElem]
    intro i j hi hj hij
    rwa [hnodup.idxOf_getElem, hnodup.idxOf_getElem]
  refine List.pairwise_flatMap.mpr ⟨fun e he => ?_, ?_⟩
  · exact List.pairwise_map.mpr ((Value.leaves_pairwise (hsorted e he)).imp fun h => .inr ⟨rfl, h⟩)
  · refine (List.pairwise_map.mp hplaces).imp fun hless l hl k hk => .inl ?_
    obtain ⟨-, -, rfl⟩ := List.mem_map.mp hl
    obtain ⟨-, -, rfl⟩ := List.mem_map.mp hk
    exact hless

end Params

/-! ### From leaves to pairs -/

namespace Form

/-- Behind a step, the name of a pair is longer by the step. -/
theorem mapM_pair_under {name longer : String} {step : Value.Step} (h : longer = name ++ step.text)
    (l : List (List Value.Step × Value)) :
    (l.map fun l => (step :: l.1, l.2)).mapM (fun l => Leaf.pair ⟨name, l.1, l.2⟩) =
      l.mapM fun l => Leaf.pair ⟨longer, l.1, l.2⟩ := by
  subst h
  exact List.mapM_map

section

variable {items : List Value} {fields : List (String × Value)}

theorem itemPairs_eq (h : ∀ v ∈ items, ∀ name,
    pairs name v = v.leaves.mapM fun l => Leaf.pair ⟨name, l.1, l.2⟩) (name : String)
    (index : Nat) : itemPairs name index items =
      (Value.itemLeaves index items).mapM fun l => Leaf.pair ⟨name, l.1, l.2⟩ := by
  induction items generalizing index with
  | nil => rfl
  | cons v items ih =>
    obtain ⟨hv, hitems⟩ := List.forall_mem_cons.mp h
    have hstep : name ++ "[" ++ toString index ++ "]" = name ++ (Value.Step.item index).text := by
      rw [Value.Step.text, ← String.append_assoc, ← String.append_assoc]
    rw [itemPairs, Value.itemLeaves, List.mapM_append, mapM_pair_under hstep, hv,
      ih hitems (index + 1)]

theorem fieldPairs_eq (h : ∀ f ∈ fields, ∀ name,
    pairs name f.2 = f.2.leaves.mapM fun l => Leaf.pair ⟨name, l.1, l.2⟩) (name : String) :
    fieldPairs name fields =
      (Value.fieldLeaves fields).mapM fun l => Leaf.pair ⟨name, l.1, l.2⟩ := by
  induction fields with
  | nil => rfl
  | cons f fields ih =>
    obtain ⟨hf, hfields⟩ := List.forall_mem_cons.mp h
    have hstep : name ++ "[" ++ f.1 ++ "]" = name ++ (Value.Step.field f.1).text := by
      rw [Value.Step.text, ← String.append_assoc, ← String.append_assoc]
    rw [fieldPairs, Value.fieldLeaves, List.mapM_append, mapM_pair_under hstep, hf, ih hfields]

end

/-- **A value becomes one pair for each of its leaves.** -/
theorem pairs_eq (v : Value) : ∀ name,
    pairs name v = v.leaves.mapM fun l => Leaf.pair ⟨name, l.1, l.2⟩ := by
  induction v using Value.induction with
  | null => exact fun name => rfl
  | leaf v hv =>
    intro name
    obtain ⟨text, htext⟩ := v.exists_urlText hv name
    rw [pairs_of_isLeaf hv, Value.leaves_of_isLeaf hv, List.mapM_cons, List.mapM_nil, Leaf.pair,
      Leaf.key, List.foldl_nil, htext]
    rfl
  | arr items ih => exact fun name => itemPairs_eq ih name 0
  | obj fields ih => exact fun name => fieldPairs_eq ih name

/-- **Parameters become one pair for each of their leaves**, in their order. -/
theorem paramPairs_eq (params : Params) : paramPairs params = params.leaves.mapM Leaf.pair := by
  obtain ⟨entries⟩ := params
  rw [Params.leaves, paramPairs]
  induction entries with
  | nil => rfl
  | cons e entries ih =>
    have hown : (e.2.leaves.map fun l => Leaf.mk e.1 l.1 l.2).mapM Leaf.pair = pairs e.1 e.2 :=
      List.mapM_map.trans (pairs_eq e.2 e.1).symm
    rw [List.flatMap_cons, List.mapM_append, hown, ← ih, List.mapM_cons]
    obtain ⟨own, howns⟩ := exists_pairs e.2 e.1
    rw [howns]
    cases entries.mapM fun e => pairs e.1 e.2 with
    | error | ok => rfl

/-- **A query string is complete.** Reading it gives one pair for each leaf that stands in the
parameters, in the order of the parameters and depth first, and for nothing else: its address as the
name, and its text as the value. -/
theorem decode?_query {params : Params} (hnodup : params.names.Nodup)
    (hsorted : ∀ e ∈ params.entries, e.2.IsSorted) :
    ∃ leaves : List Leaf, (∀ leaf, leaf ∈ leaves ↔ leaf.StandsIn params) ∧
      leaves.Pairwise (Leaf.Before params.names) ∧
      ∃ pairs text, leaves.mapM Leaf.pair = .ok pairs ∧ query params = .ok text ∧
        decode? text = some pairs := by
  obtain ⟨pairs, hpairs⟩ := exists_paramPairs params
  refine ⟨params.leaves, fun _ => Params.mem_leaves_iff hnodup hsorted,
    Params.leaves_pairwise hnodup hsorted, pairs, encode pairs, ?_, ?_, decode?_encode pairs⟩
  · rw [← paramPairs_eq, hpairs]
  · rw [query, hpairs]
    rfl

/-- Tags of which one is null, and a filter with an object in it. -/
def searchParams : Params :=
  ⟨[("q", .str "a b&c"), ("tags", .arr [.null, .str "é"]),
    ("filter", Value.ofFields [("to", .obj [("x=y", .bool true)]), ("from", .int (-1))])]⟩

/-- The pairs of these parameters. -/
def searchPairs : List (String × String) :=
  [("q", "a b&c"), ("tags[1]", "é"), ("filter[from]", "-1"), ("filter[to][x=y]", "1")]

/-- The null is not read back, but it counts in the name of the tag behind it. -/
theorem decode?_query_search :
    searchParams.names.Nodup ∧ (∀ e ∈ searchParams.entries, e.2.IsSorted) ∧
      ∃ leaves : List Leaf, (∀ leaf, leaf ∈ leaves ↔ leaf.StandsIn searchParams) ∧
        leaves.Pairwise (Leaf.Before searchParams.names) ∧
        ∃ text, leaves.mapM Leaf.pair = .ok searchPairs ∧ query searchParams = .ok text ∧
          decode? text = some searchPairs := by
  have hnodup : searchParams.names.Nodup := by decide
  have hsorted : ∀ e ∈ searchParams.entries, e.2.IsSorted := by
    have hto : (Value.obj [("x=y", .bool true)]).IsSorted :=
      .obj (List.pairwise_singleton _ _) (List.forall_mem_singleton.mpr (.leaf rfl))
    refine List.forall_mem_cons.mpr ⟨.leaf rfl, List.forall_mem_cons.mpr ⟨?_,
      List.forall_mem_singleton.mpr (Value.isSorted_ofFields ?_)⟩⟩
    · exact .arr (List.forall_mem_cons.mpr ⟨.null, List.forall_mem_singleton.mpr (.leaf rfl)⟩)
    · exact List.forall_mem_cons.mpr ⟨hto, List.forall_mem_singleton.mpr (.leaf rfl)⟩
  obtain ⟨leaves, hmem, hbefore, pairs, text, hpairs, htext, hread⟩ := decode?_query hnodup hsorted
  have hencoded : query searchParams = .ok (encode searchPairs) := by rfl
  obtain rfl : encode searchPairs = text := Except.ok.inj (hencoded.symm.trans htext)
  obtain rfl : searchPairs = pairs := Option.some.inj ((decode?_encode _).symm.trans hread)
  exact ⟨hnodup, hsorted, leaves, hmem, hbefore, _, hpairs, htext, hread⟩

end Form

end UrlRouting

import UrlRouting.Proofs.Tree.Sound
import UrlRouting.Router.Plan

/-!
# What registration does to a tree

Registration adds nodes behind those that are there, and of these it changes one only, the place
where things are registered, by what is set there (`UrlRouting.Tree.Extends`). This is so for one
step of a plan and, by induction on the plan, for a whole one, wherever it ends
(`UrlRouting.Plan.carryOut_extends`). A sound tree stays sound
(`UrlRouting.Plan.carryOut_extends`).
-/

namespace UrlRouting

namespace Tree

/-- **One tree extends another one** by nodes, and by some of the given settings at a place. -/
structure Extends (t : Tree) (place : NodeId) (given : List Setting) (t' : Tree) : Prop where
  /-- No node is lost. -/
  size_le : t.size ≤ t'.size
  /-- The nodes that were there are changed at the place only. -/
  old : ∃ ss ⊆ given, ∀ i < t.size, t'.get? i = (t.configure place ss).get? i

/-- May things be registered at a place? -/
def Holds (t : Tree) (place : NodeId) : Prop := ∃ n, t.get? place = some n ∧ n.holds = true

section

variable {t t' t'' : Tree} {place other id : NodeId} {given given' : List Setting} {s : Setting}
  {schema : String} {name : Option String} {kind : NodeKind}

theorem get?_configure_of_ne (ss : List Setting) {i : NodeId} (h : t.IsSound) (hne : i ≠ place) :
    (t.configure place ss).get? i = t.get? i := by
  rw [get?_configure]
  cases hn : t.get? i with
  | none => rfl
  | some n => exact congrArg some (if_neg (h.number hn ▸ hne))

namespace Extends

theorem refl (t : Tree) (place : NodeId) (given : List Setting) : t.Extends place given t where
  size_le := Nat.le_refl _
  old := ⟨[], nofun, fun i _ => by
    rw [get?_configure, Option.map_congr fun n _ => configured_nil place n, Option.map_id_fun', id]⟩

theorem mono (h : t.Extends place given t') (hsubset : given ⊆ given') :
    t.Extends place given' t' where
  size_le := h.size_le
  old := by
    obtain ⟨ss, hss, hold⟩ := h.old
    exact ⟨ss, fun s hs => hsubset (hss hs), hold⟩

theorem trans (h : t.Extends place given t') (h' : t'.Extends place given t'') :
    t.Extends place given t'' where
  size_le := Nat.le_trans h.size_le h'.size_le
  old := by
    obtain ⟨ss, hss, hold⟩ := h.old
    obtain ⟨ss', hss', hold'⟩ := h'.old
    refine ⟨ss ++ ss', List.append_subset.mpr ⟨hss, hss'⟩, fun i hi => ?_⟩
    rw [hold' i (Nat.lt_of_lt_of_le hi h.size_le), get?_configure, hold i hi, get?_configure,
      get?_configure, Option.map_map]
    exact Option.map_congr fun n _ => (configured_append place ss n ss').symm

/-- Settings at a node that was not there do not count. -/
theorem elsewhere (h : t.Extends place given t') (hsound : t'.IsSound) (hother : t.size ≤ other)
    (h' : t'.Extends other given' t'') : t.Extends place given t'' where
  size_le := Nat.le_trans h.size_le h'.size_le
  old := by
    obtain ⟨ss, hss, hold⟩ := h.old
    obtain ⟨ss', -, hold'⟩ := h'.old
    refine ⟨ss, hss, fun i hi => ?_⟩
    rw [hold' i (Nat.lt_of_lt_of_le hi h.size_le),
      get?_configure_of_ne ss' hsound (Nat.ne_of_lt (Nat.lt_of_lt_of_le hi hother)), hold i hi]

/-- The chain of a node that was there is changed at the place only. -/
theorem chain_eq (hext : t.Extends place given t') (h : t.IsSound) (h' : t'.IsSound)
    (hid : id < t.size) : ∃ ss ⊆ given, t'.chain id = (t.chain id).map (configured place ss) := by
  obtain ⟨ss, hss, hold⟩ := hext.old
  obtain ⟨n, hn⟩ : ∃ n, t.get? id = some n := ⟨_, List.getElem?_eq_getElem hid⟩
  have hconfigured : (t.configure place ss).get? id = some (configured place ss n) := by
    rw [get?_configure, hn, Option.map_some]
  refine ⟨ss, hss, ?_⟩
  rw [← chain_configure, chain_congr (h.configure place ss) h' hconfigured]
  exact fun i hi => hold i (Nat.lt_of_le_of_lt hi hid)

theorem holds (h : t.Extends place given t') (hholds : t.Holds other) : t'.Holds other := by
  obtain ⟨n, hn, hn'⟩ := hholds
  obtain ⟨ss, -, hold⟩ := h.old
  refine ⟨configured place ss n, ?_, ?_⟩
  · rw [hold other (List.getElem?_eq_some_iff.mp hn).1, get?_configure, hn, Option.map_some]
  · rw [configured_holds, hn']

end Extends

/-! ### One node, one setting -/

theorem extends_add (hadd : t.add other schema name kind = .ok (t', id)) :
    t.Extends place given t' where
  size_le := by
    obtain ⟨-, rfl⟩ := add_eq_ok hadd
    rw [size, size, List.length_append]
    exact Nat.le_add_right _ _
  old := by
    obtain ⟨-, rfl⟩ := add_eq_ok hadd
    obtain ⟨ss, hss, hold⟩ := (Extends.refl t place given).old
    exact ⟨ss, hss, fun i hi => (List.getElem?_append_left hi).trans (hold i hi)⟩

theorem extends_configure (hs : s ∈ given) : t.Extends place given (t.configure place [s]) where
  size_le := Nat.le_of_eq (size_configure t place [s]).symm
  old := ⟨[s], List.cons_subset.mpr ⟨hs, List.nil_subset _⟩, fun _ _ => rfl⟩

/-- A node that has just been registered is there. -/
theorem holds_add (hadd : t.add other schema name kind = .ok (t', id)) :
    ∃ n, t'.get? id = some n ∧ n.kind = kind ∧ n.schema = schema := by
  obtain ⟨rfl, rfl⟩ := add_eq_ok hadd
  exact ⟨_, (List.getElem?_append_right (Nat.le_refl _)).trans (by rw [Nat.sub_self]; rfl), rfl, rfl⟩

theorem IsSound.add_at (h : t.IsSound) (hholds : t.Holds place) (hkind : kind ≠ .root)
    (hadd : t.add place schema name kind = .ok (t', id)) : t'.IsSound := by
  obtain ⟨n, hn, hn'⟩ := hholds
  have hplace : n.id = place := h.number hn
  subst hplace
  exact h.add (List.mem_of_getElem? hn) hn' hkind hadd

/-- A group that has just been registered may hold nodes. -/
theorem IsSound.add_group {namePrefix : Option String} (h : t.IsSound) (hholds : t.Holds place)
    (hadd : t.add place schema name (.group namePrefix) = .ok (t', id)) :
    t'.IsSound ∧ t'.Holds id := by
  obtain ⟨n, hn, hkind, -⟩ := holds_add hadd
  refine ⟨h.add_at hholds (fun heq => by cases heq) hadd, n, hn, ?_⟩
  rw [Node.holds, hkind]

/-- **Registering a node and setting things on it** extends a tree and keeps it sound. -/
theorem IsSound.extends_node {ss : List Setting} (h : t.IsSound) (hholds : t.Holds place)
    (hkind : kind ≠ .root) (hadd : t.add place schema name kind = .ok (t', id)) :
    (t'.configure id ss).IsSound ∧ t.Extends place [] (t'.configure id ss) := by
  have hsound := h.add_at hholds hkind hadd
  have hset : t'.Extends id ss (t'.configure id ss) :=
    ⟨Nat.le_of_eq (size_configure t' id ss).symm, ss, List.Subset.refl ss, fun _ _ => rfl⟩
  exact ⟨hsound.configure id ss,
    (extends_add hadd).elsewhere hsound (Nat.le_of_eq (add_eq_ok hadd).1.symm) hset⟩

end

end Tree

/-! ### Plans -/

section

variable {t t' : Tree} {place : NodeId} {id : Option NodeId} {r : Registration}

/-- What a step sets on its group itself. -/
def Registration.ownSettings : Registration → List Setting
  | .setting s => [s]
  | _ => []

/-- What a plan sets on its group itself. -/
def Plan.ownSettings : Plan → List Setting
  | .done => []
  | .step _ r rest => r.ownSettings ++ rest.ownSettings
  | .group _ _ _ _ rest => rest.ownSettings

/-- **A step of a plan** extends a tree and keeps it sound. -/
theorem Registration.carryOut_extends (h : t.IsSound) (hholds : t.Holds place)
    (hr : r.carryOut t place = .ok (t', id)) :
    t'.IsSound ∧ t.Extends place r.ownSettings t' := by
  cases r with
  | route schema name method action ss =>
    rw [carryOut] at hr
    cases hadd : t.add place schema name (.route method action) with
    | error e =>
      rw [hadd] at hr
      cases hr
    | ok added =>
      rw [hadd] at hr
      cases hr
      exact h.extends_node hholds (by nofun) hadd
  | hidden schema name ss =>
    rw [carryOut] at hr
    cases hadd : t.add place schema (some name) .hidden with
    | error e =>
      rw [hadd] at hr
      cases hr
    | ok added =>
      rw [hadd] at hr
      cases hr
      exact h.extends_node hholds (by nofun) hadd
  | setting s =>
    cases hr
    exact ⟨h.configure place [s], Tree.extends_configure List.mem_cons_self⟩

/-- **A plan, wherever it ends,** extends a tree and keeps it sound. -/
theorem Plan.carryOut_extends (plan : Plan) (h : t.IsSound) (hholds : t.Holds place) :
    (plan.carryOut t place).tree.IsSound ∧
      t.Extends place plan.ownSettings (plan.carryOut t place).tree := by
  induction plan generalizing t place with
  | done => exact ⟨h, Tree.Extends.refl t place _⟩
  | step lenient r rest ih =>
    rw [carryOut]
    cases hr : r.carryOut t place with
    | ok done =>
      obtain ⟨t₁, id⟩ := done
      obtain ⟨hsound, hstep⟩ := r.carryOut_extends h hholds hr
      obtain ⟨hrest, hext⟩ := ih hsound (hstep.holds hholds)
      exact ⟨hrest, (hstep.mono (List.subset_append_left _ _)).trans
        (hext.mono (List.subset_append_right _ _))⟩
    | error e =>
      dsimp only
      split
      · obtain ⟨hrest, hext⟩ := ih h hholds
        exact ⟨hrest, hext.mono (List.subset_append_right _ _)⟩
      · exact ⟨h, Tree.Extends.refl t place _⟩
  | group lenient schema namePrefix inner rest ih1 ih2 =>
    rw [carryOut]
    cases hadd : t.add place schema none (.group namePrefix) with
    | error e => exact ⟨h, Tree.Extends.refl t place _⟩
    | ok added =>
      obtain ⟨t₁, id⟩ := added
      obtain ⟨hsound, hgroup⟩ := h.add_group hholds hadd
      obtain ⟨hinside, hext⟩ := ih1 hsound hgroup
      -- what is set in the group is set on a new node
      have hinner : t.Extends place rest.ownSettings (inner.carryOut t₁ id).tree :=
        (Tree.extends_add hadd).elsewhere hsound (Nat.le_of_eq (Tree.add_eq_ok hadd).1.symm) hext
      have hafter := ih2 hinside (hinner.holds hholds)
      dsimp only
      split
      · exact ⟨hafter.1, hinner.trans hafter.2⟩
      · split
        · exact ⟨hafter.1, hinner.trans hafter.2⟩
        · exact ⟨hinside, hinner⟩

end

end UrlRouting

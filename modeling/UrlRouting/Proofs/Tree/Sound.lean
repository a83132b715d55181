import Mathlib.Data.List.Basic
import UrlRouting.Tree.Compile

/-!
# Sound trees

The nodes of a tree are one list, and that this list is a tree is not part of its type. It is one if
the number of each node is its place, the first node is the root, and every other node stands in an
earlier one that may hold nodes (`UrlRouting.Tree.IsSound`). The empty tree is sound, and
registering a node in one that may hold nodes and changing settings keep it so
(`UrlRouting.Tree.IsSound.add`, `UrlRouting.Tree.IsSound.configure`).

In a sound tree, walking up is recursion on the parent (`UrlRouting.Tree.IsSound.chain_eq`), so the
nodes from a place upwards depend on earlier nodes only (`UrlRouting.Tree.chain_congr`).
-/

namespace UrlRouting

/-- May other nodes stand in the node? -/
def Node.holds (n : Node) : Bool :=
  match n.kind with
  | .root | .group _ => true
  | _ => false

theorem Node.holds_of_isGroup {n : Node} (h : n.isGroup = true) : n.holds = true := by
  rw [isGroup] at h
  rw [holds]
  split at h
  · next hk => rw [hk]
  · cases h

namespace Tree

/-- **A list of nodes that is a tree.** -/
structure IsSound (t : Tree) : Prop where
  /-- The number of a node is its place. -/
  number : ∀ {i n}, t.get? i = some n → n.id = i
  /-- The first node is the root. -/
  atRoot : ∃ n, t.get? root = some n ∧ n.kind = .root ∧ n.parent = none ∧ n.schema = ""
  /-- Every other node stands in an earlier one. -/
  below : ∀ n ∈ t.nodes, n.id ≠ root → n.kind ≠ .root ∧
    ∃ p ∈ t.nodes, n.parent = some p.id ∧ p.id < n.id ∧ p.holds = true

section

variable {t t' : Tree} {n m : Node} {i id place : NodeId}

/-! ### Numbers -/

namespace IsSound

variable (h : t.IsSound)

include h

theorem mem_iff : n ∈ t.nodes ↔ t.get? n.id = some n := by
  constructor
  · intro hn
    obtain ⟨i, hi⟩ := List.mem_iff_getElem?.mp hn
    rwa [h.number hi]
  · exact List.mem_of_getElem?

theorem lt_size (hn : n ∈ t.nodes) : n.id < t.size := by
  obtain ⟨hlt, -⟩ := List.getElem?_eq_some_iff.mp (h.mem_iff.mp hn)
  exact hlt

/-- Nodes with one number are one node. -/
theorem eq_of_id (hn : n ∈ t.nodes) (hm : m ∈ t.nodes) (hid : n.id = m.id) : n = m := by
  rw [h.mem_iff, hid, h.mem_iff.mp hm] at hn
  exact (Option.some.inj hn).symm

/-- The numbers ascend along the list. -/
theorem pairwise : t.nodes.Pairwise (·.id < ·.id) := by
  refine List.pairwise_iff_getElem.mpr fun i j hi hj hij => ?_
  have hfirst : t.nodes[i].id = i := h.number (List.getElem?_eq_getElem hi)
  have hsecond : t.nodes[j].id = j := h.number (List.getElem?_eq_getElem hj)
  rwa [hfirst, hsecond]

/-- A node with a greater number comes later. -/
theorem mem_later {earlier later : List Node} (hnodes : t.nodes = earlier ++ n :: later)
    (hm : m ∈ t.nodes) (hlt : n.id < m.id) : m ∈ later := by
  have hpairwise := h.pairwise
  rw [hnodes] at hm hpairwise
  obtain ⟨-, -, hcross⟩ := List.pairwise_append.mp hpairwise
  rcases List.mem_append.mp hm with hm | hm
  · exact absurd (hcross m hm n List.mem_cons_self) (Nat.lt_asymm hlt)
  · rcases List.mem_cons.mp hm with rfl | hm
    · exact absurd hlt (Nat.lt_irrefl _)
    · exact hm

/-- What stands in a node comes behind it. -/
theorem lt_of_isIn (hn : n ∈ t.nodes) (hin : n.isIn place = true) : place < n.id := by
  have hparent : n.parent = some place := beq_iff_eq.mp hin
  rcases Nat.eq_zero_or_pos n.id with hzero | hpos
  · obtain ⟨r, hr, -, hnone, -⟩ := h.atRoot
    obtain rfl := h.eq_of_id hn (List.mem_of_getElem? hr) (hzero.trans (h.number hr).symm)
    rw [hparent] at hnone
    cases hnone
  · obtain ⟨-, p, -, hp, hlt, -⟩ := h.below n hn (Nat.ne_of_gt hpos)
    obtain rfl : place = p.id := Option.some.inj (hparent.symm.trans hp)
    exact hlt

/-- Nothing up to a node stands in it. -/
theorem isIn_eq_false {earlier later : List Node} (hnodes : t.nodes = earlier ++ n :: later) :
    ∀ m ∈ earlier ++ [n], m.isIn n.id = false := by
  intro m hm
  have hpairwise := h.pairwise
  rw [hnodes, List.append_cons] at hpairwise
  have hle : m.id ≤ n.id := by
    rcases List.mem_append.mp hm with hm | hm
    · have hfront := (List.pairwise_append.mp hpairwise).1
      exact Nat.le_of_lt ((List.pairwise_append.mp hfront).2.2 m hm n List.mem_cons_self)
    · exact Nat.le_of_eq (congrArg Node.id (List.mem_singleton.mp hm))
  have hmem : m ∈ t.nodes := by
    rw [hnodes, List.append_cons]
    exact List.mem_append_left _ hm
  refine Bool.eq_false_iff.mpr fun hin => ?_
  exact absurd (h.lt_of_isIn hmem hin) (Nat.not_lt_of_le hle)

end IsSound

/-! ### Upwards -/

/-- Nodes with other numbers are passed over. -/
theorem chainIn_append {front nodes : List Node} (h : ∀ n ∈ front, n.id ≠ id) :
    chainIn (front ++ nodes) id = chainIn nodes id := by
  induction front with
  | nil => rfl
  | cons n front ih =>
    rw [List.cons_append, chainIn, if_neg (h n List.mem_cons_self)]
    exact ih fun m hm => h m (List.mem_cons_of_mem n hm)

theorem mem_of_mem_chainIn {nodes : List Node} (h : n ∈ chainIn nodes id) : n ∈ nodes := by
  induction nodes generalizing id with
  | nil => cases h
  | cons m nodes ih =>
    rw [chainIn] at h
    split at h
    · split at h
      · rcases List.mem_cons.mp h with rfl | h
        · exact List.mem_cons_self
        · exact List.mem_cons_of_mem m (ih h)
      · exact List.mem_singleton.mp h ▸ List.mem_cons_self
    · exact List.mem_cons_of_mem m (ih h)

/-- The nodes of a chain are nodes of the tree. -/
theorem mem_of_mem_chain (h : n ∈ t.chain id) : n ∈ t.nodes :=
  List.mem_reverse.mp (mem_of_mem_chainIn h)

/-- Without a node there is no chain. -/
theorem IsSound.chain_eq_nil (h : t.IsSound) (hn : t.get? id = none) : t.chain id = [] := by
  rw [chain, ← List.append_nil t.nodes.reverse, chainIn_append]
  · rfl
  · intro m hm hid
    rw [← hid, h.mem_iff.mp (List.mem_reverse.mp hm)] at hn
    cases hn

/-- **Walking up is recursion on the parent.** -/
theorem IsSound.chain_eq (h : t.IsSound) (hn : t.get? id = some n) :
    t.chain id = n :: match n.parent with
      | some parent => t.chain parent
      | none => [] := by
  have hmem : n ∈ t.nodes := List.mem_of_getElem? hn
  have hid : n.id = id := h.number hn
  obtain ⟨earlier, later, hnodes⟩ := List.append_of_mem hmem
  have hpairwise := h.pairwise
  rw [hnodes] at hpairwise
  obtain ⟨-, hbehind, -⟩ := List.pairwise_append.mp hpairwise
  have hlater : ∀ m ∈ later.reverse, n.id < m.id := fun m hm =>
    (List.pairwise_cons.mp hbehind).1 m (List.mem_reverse.mp hm)
  have hreverse : t.nodes.reverse = later.reverse ++ n :: earlier.reverse := by
    rw [hnodes, List.reverse_append, List.reverse_cons, List.append_assoc]
    rfl
  rw [chain, hreverse, chainIn_append fun m hm => hid ▸ Nat.ne_of_gt (hlater m hm), chainIn,
    if_pos hid]
  cases hparent : n.parent with
  | none => rfl
  | some parent =>
    -- the parent is further in front, so that starting again at the end makes no difference
    have hlt : parent < n.id := h.lt_of_isIn hmem (beq_iff_eq.mpr hparent)
    dsimp only
    rw [chain, hreverse, List.append_cons, chainIn_append]
    intro m hm
    rcases List.mem_append.mp hm with hm | hm
    · exact Nat.ne_of_gt (Nat.lt_trans hlt (hlater m hm))
    · exact List.mem_singleton.mp hm ▸ Nat.ne_of_gt hlt

/-- **Nodes that stand one in the other**, the first one in a place. -/
def Descends (t : Tree) : NodeId → List Node → Prop
  | _, [] => True
  | place, n :: nodes => n ∈ t.nodes ∧ n.isIn place = true ∧ Descends t n.id nodes

/-- **The chain of a node further down** is the way to it, seen from the node upwards. -/
theorem Descends.chain_eq (h : t.IsSound) {nodes : List Node}
    (hnodes : t.Descends place (nodes ++ [n])) :
    t.chain n.id = (nodes ++ [n]).reverse ++ t.chain place := by
  have hfirst {m : Node} {place : NodeId} (hm : m ∈ t.nodes) (hin : m.isIn place = true) :
      t.chain m.id = m :: t.chain place := by
    rw [h.chain_eq (h.mem_iff.mp hm), beq_iff_eq.mp hin]
  induction nodes generalizing place with
  | nil =>
    obtain ⟨hn, hin, -⟩ := hnodes
    exact hfirst hn hin
  | cons m nodes ih =>
    obtain ⟨hm, hin, hnodes⟩ := hnodes
    rw [ih hnodes, hfirst hm hin, List.cons_append, List.reverse_cons, List.append_assoc]
    rfl

/-- The chain of a node of a chain is the rest of it from there. -/
theorem IsSound.chain_suffix (h : t.IsSound) (hn : n ∈ t.chain id) : t.chain n.id <:+ t.chain id := by
  induction id using Nat.strongRecOn with
  | _ id ih =>
    cases hget : t.get? id with
    | none =>
      rw [h.chain_eq_nil hget] at hn
      cases hn
    | some m =>
      have hchain := h.chain_eq hget
      rw [hchain] at hn
      rcases List.mem_cons.mp hn with rfl | hn
      · have hid : n.id = id := h.number hget
        exact hid ▸ List.suffix_refl _
      · cases hparent : m.parent with
        | none =>
          rw [hparent] at hn
          cases hn
        | some parent =>
          rw [hparent] at hn hchain
          have hlt := h.lt_of_isIn (List.mem_of_getElem? hget) (beq_iff_eq.mpr hparent)
          rw [h.number hget] at hlt
          rw [hchain]
          exact (ih parent hlt hn).trans (List.suffix_cons m _)

/-- **A chain depends on earlier nodes only.** -/
theorem chain_congr (h : t.IsSound) (h' : t'.IsSound) {n : Node} (hn : t.get? id = some n)
    (hsame : ∀ i ≤ id, t'.get? i = t.get? i) : t'.chain id = t.chain id := by
  induction id using Nat.strongRecOn generalizing n with
  | _ id ih =>
    rw [h.chain_eq hn, h'.chain_eq ((hsame id (Nat.le_refl id)).trans hn)]
    cases hparent : n.parent with
    | none => rfl
    | some parent =>
      have hlt := h.lt_of_isIn (List.mem_of_getElem? hn) (beq_iff_eq.mpr hparent)
      rw [h.number hn] at hlt
      have hsize : id < t.nodes.length := (List.getElem?_eq_some_iff.mp hn).1
      obtain ⟨p, hp⟩ : ∃ p, t.get? parent = some p :=
        ⟨_, List.getElem?_eq_getElem (Nat.lt_trans hlt hsize)⟩
      exact congrArg (n :: ·)
        (ih parent hlt hp fun i hi => hsame i (Nat.le_trans hi (Nat.le_of_lt hlt)))

/-- **Every chain ends at the root**, which occurs nowhere else in it. -/
theorem IsSound.chain_eq_append_root (h : t.IsSound) (hid : id < t.size) :
    ∃ below r, t.chain id = below ++ [r] ∧ r.id = root ∧ ∀ n ∈ below, n.id ≠ root := by
  induction id using Nat.strongRecOn with
  | _ id ih =>
    obtain ⟨n, hn⟩ : ∃ n, t.get? id = some n := ⟨_, List.getElem?_eq_getElem hid⟩
    have hmem : n ∈ t.nodes := List.mem_of_getElem? hn
    rw [h.chain_eq hn]
    by_cases hroot : n.id = root
    · obtain ⟨r, hr, -, hnone, -⟩ := h.atRoot
      obtain rfl := h.eq_of_id hmem (List.mem_of_getElem? hr) (hroot.trans (h.number hr).symm)
      rw [hnone]
      exact ⟨[], n, rfl, hroot, fun m hm => nomatch hm⟩
    · obtain ⟨-, p, hp, hparent, hlt, -⟩ := h.below n hmem hroot
      obtain ⟨below, r, hchain, hr, hbelow⟩ := ih p.id (h.number hn ▸ hlt) (h.lt_size hp)
      rw [hparent]
      refine ⟨n :: below, r, congrArg (n :: ·) hchain, hr, fun m hm => ?_⟩
      rcases List.mem_cons.mp hm with rfl | hm
      · exact hroot
      · exact hbelow m hm

/-! ### Registration and settings -/

theorem isSound_empty : empty.IsSound where
  number {i n} hn := by
    obtain ⟨hi, rfl⟩ := List.getElem?_eq_some_iff.mp hn
    have hzero : i = 0 := Nat.lt_one_iff.mp hi
    subst hzero
    rfl
  atRoot := ⟨_, rfl, rfl, rfl, rfl⟩
  below n hn hid := absurd (List.mem_singleton.mp hn ▸ rfl) hid

/-- A node that has been registered is the last one. -/
theorem add_eq_ok {schema : String} {name : Option String} {kind : NodeKind}
    (hadd : t.add place schema name kind = .ok (t', id)) :
    id = t.size ∧ t' = ⟨t.nodes ++
      [{ id := t.size, parent := some place, schema, name, kind }]⟩ := by
  rw [add] at hadd
  split at hadd
  · cases hadd
  · obtain ⟨rfl, rfl⟩ := Prod.mk.inj (Except.ok.inj hadd)
    exact ⟨rfl, rfl⟩

/-- **Registering a node keeps a tree sound.** -/
theorem IsSound.add (h : t.IsSound) {schema : String} {name : Option String} {kind : NodeKind}
    {p : Node} (hp : p ∈ t.nodes) (hholds : p.holds = true) (hkind : kind ≠ .root)
    (hadd : t.add p.id schema name kind = .ok (t', id)) : t'.IsSound := by
  obtain ⟨rfl, rfl⟩ := add_eq_ok hadd
  have hold {i : NodeId} (hi : i < t.size) :
      (⟨t.nodes ++ [{ id := t.size, parent := some p.id, schema, name, kind }]⟩ : Tree).get? i =
        t.get? i := List.getElem?_append_left hi
  refine ⟨fun {i n} hn => ?_, ?_, fun n hn hid => ?_⟩
  · rcases Nat.lt_or_ge i t.size with hi | hi
    · exact h.number ((hold hi).symm.trans hn)
    · have hlast : [({ id := t.size, parent := some p.id, schema, name, kind } : Node)][i - t.size]? =
          some n := (List.getElem?_append_right hi).symm.trans hn
      obtain ⟨hzero, rfl⟩ := List.getElem?_eq_some_iff.mp hlast
      have hsame : i - t.size = 0 := Nat.lt_one_iff.mp hzero
      have hi' : t.size = i := Nat.le_antisymm hi (Nat.sub_eq_zero_iff_le.mp hsame)
      simp only [hsame, List.getElem_cons_zero]
      exact hi'
  · obtain ⟨r, hr, hroot⟩ := h.atRoot
    exact ⟨r, (hold (List.getElem?_eq_some_iff.mp hr).1).trans hr, hroot⟩
  · rcases List.mem_append.mp hn with hn | hn
    · obtain ⟨hkind, q, hq, hparent⟩ := h.below n hn hid
      exact ⟨hkind, q, List.mem_append_left _ hq, hparent⟩
    · obtain rfl := List.mem_singleton.mp hn
      exact ⟨hkind, p, List.mem_append_left _ hp, rfl, h.lt_size hp, hholds⟩

/-- A node behind the settings made at a place. -/
def configured (place : NodeId) (ss : List Setting) (n : Node) : Node :=
  if n.id = place then { n with settings := ss.foldl Setting.apply n.settings } else n

section

variable (place : NodeId) (ss : List Setting) (n : Node)

@[simp] theorem configured_id : (configured place ss n).id = n.id := by
  rw [configured]
  split <;> rfl

@[simp] theorem configured_parent : (configured place ss n).parent = n.parent := by
  rw [configured]
  split <;> rfl

@[simp] theorem configured_schema : (configured place ss n).schema = n.schema := by
  rw [configured]
  split <;> rfl

@[simp] theorem configured_name : (configured place ss n).name = n.name := by
  rw [configured]
  split <;> rfl

@[simp] theorem configured_kind : (configured place ss n).kind = n.kind := by
  rw [configured]
  split <;> rfl

@[simp] theorem configured_holds : (configured place ss n).holds = n.holds := by
  rw [Node.holds, configured_kind, Node.holds]

@[simp] theorem configured_nil : configured place [] n = n := by
  rw [configured]
  split <;> rfl

@[simp] theorem configured_append (ss' : List Setting) :
    configured place (ss ++ ss') n = configured place ss' (configured place ss n) := by
  by_cases hid : n.id = place
  · simp [configured, hid, List.foldl_append]
  · simp [configured, hid]

end

theorem nodes_configure (t : Tree) (place : NodeId) (ss : List Setting) :
    (t.configure place ss).nodes = t.nodes.map (configured place ss) := rfl

theorem get?_configure (t : Tree) (place : NodeId) (ss : List Setting) (i : NodeId) :
    (t.configure place ss).get? i = (t.get? i).map (configured place ss) :=
  List.getElem?_map

theorem size_configure (t : Tree) (place : NodeId) (ss : List Setting) :
    (t.configure place ss).size = t.size := List.length_map ..

/-- **Changing settings keeps a tree sound.** -/
theorem IsSound.configure (h : t.IsSound) (place : NodeId) (ss : List Setting) :
    (t.configure place ss).IsSound where
  number {i n} hn := by
    rw [get?_configure] at hn
    obtain ⟨m, hm, rfl⟩ := Option.map_eq_some_iff.mp hn
    rw [configured_id, h.number hm]
  atRoot := by
    obtain ⟨r, hr, hroot⟩ := h.atRoot
    refine ⟨configured place ss r, ?_, ?_⟩
    · rw [get?_configure, hr, Option.map_some]
    · rwa [configured_kind, configured_parent, configured_schema]
  below n hn hid := by
    obtain ⟨m, hm, rfl⟩ := List.mem_map.mp hn
    change (configured place ss m).id ≠ root at hid
    rw [configured_id] at hid
    obtain ⟨hkind, q, hq, hparent, hlt, hholds⟩ := h.below m hm hid
    refine ⟨?_, configured place ss q, List.mem_map_of_mem hq, ?_⟩
    · change (configured place ss m).kind ≠ _
      rwa [configured_kind]
    · change (configured place ss m).parent = _ ∧ _ < (configured place ss m).id ∧ _
      rw [configured_parent, configured_id, configured_id, configured_holds]
      exact ⟨hparent, hlt, hholds⟩

theorem chainIn_configured (place : NodeId) (ss : List Setting) (nodes : List Node) (id : NodeId) :
    chainIn (nodes.map (configured place ss)) id =
      (chainIn nodes id).map (configured place ss) := by
  induction nodes generalizing id with
  | nil => rfl
  | cons n nodes ih =>
    rw [List.map_cons, chainIn, chainIn, configured_id, configured_parent]
    split
    · cases n.parent with
      | none => rfl
      | some parent => exact congrArg _ (ih parent)
    · exact ih id

/-- Changing settings changes the nodes of a chain, and nothing about which they are. -/
theorem chain_configure (t : Tree) (place : NodeId) (ss : List Setting) (id : NodeId) :
    (t.configure place ss).chain id = (t.chain id).map (configured place ss) := by
  rw [chain, nodes_configure, ← List.map_reverse, chainIn_configured, chain]

end

end Tree

end UrlRouting

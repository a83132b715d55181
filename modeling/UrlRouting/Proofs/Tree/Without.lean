import UrlRouting.Proofs.Tree.Sound

/-!
# Trees without some of their nodes

A node can be taken out of a tree, with everything that stands in it (`UrlRouting.Tree.without`).
The other nodes keep their numbers, so something has to be left in place of those that are gone: a
hidden route of the root without a schema and without a name, which no search comes upon.

What is left is a sound tree again (`UrlRouting.Tree.IsSound.without`). The other nodes have the
chains that they had (`UrlRouting.Tree.chain_without`), and with them everything that is looked up
along a chain: binders, patterns and types, and so what they compile to
(`UrlRouting.Tree.compileNode_without`).
-/

namespace UrlRouting

namespace Tree

/-- Is the node with a number in a place: is it the place itself, or below it? -/
def isWithin (t : Tree) (place id : NodeId) : Bool := (t.chain id).any (·.id == place)

/-- What is left of a node that has been taken out. -/
def vacancy (id : NodeId) : Node :=
  { id, parent := some root, schema := "", name := none, kind := .hidden }

/-- A node, unless it is within a place; else what is left of it. -/
def unlessWithin (t : Tree) (place : NodeId) (n : Node) : Node :=
  if t.isWithin place n.id then vacancy n.id else n

/-- **The tree without a place**: without the node and everything that stands in it. -/
def without (t : Tree) (place : NodeId) : Tree := ⟨t.nodes.map (t.unlessWithin place)⟩

section

variable {t : Tree} {n : Node} {place id parent : NodeId}

/-! ### Within a place -/

/-- **A node is within a place** if it is the place, or stands in a node that is within it. -/
theorem IsSound.isWithin_eq (h : t.IsSound) (hn : n ∈ t.nodes) (hin : n.isIn parent = true) :
    t.isWithin place n.id = (n.id == place || t.isWithin place parent) := by
  rw [isWithin, h.chain_eq (h.mem_iff.mp hn), beq_iff_eq.mp hin]
  exact List.any_cons

/-- The root is in no other place. -/
theorem IsSound.isWithin_root (h : t.IsSound) (hplace : place ≠ root) :
    t.isWithin place root = false := by
  obtain ⟨r, hr, -, hparent, -⟩ := h.atRoot
  rw [isWithin, h.chain_eq hr, hparent]
  have hne : (r.id == place) = false := beq_eq_false_iff_ne.mpr (h.number hr ▸ hplace.symm)
  rw [List.any_cons, hne]
  rfl

/-- Along the chain of a node outside of a place, all nodes are outside of it. -/
theorem IsSound.isWithin_parent (h : t.IsSound) (hn : n ∈ t.nodes) (hin : n.isIn parent = true)
    (hout : t.isWithin place n.id = false) : t.isWithin place parent = false := by
  rw [h.isWithin_eq hn hin] at hout
  exact (Bool.or_eq_false_iff.mp hout).2

/-! ### What is left -/

@[simp] theorem unlessWithin_id : (t.unlessWithin place n).id = n.id := by
  rw [unlessWithin]
  split <;> rfl

theorem unlessWithin_eq (h : t.isWithin place n.id = false) : t.unlessWithin place n = n := by
  rw [unlessWithin, h]
  rfl

theorem unlessWithin_of_isWithin (h : t.isWithin place n.id = true) :
    t.unlessWithin place n = vacancy n.id := by
  rw [unlessWithin, if_pos h]

theorem get?_without (t : Tree) (place i : NodeId) :
    (t.without place).get? i = (t.get? i).map (t.unlessWithin place) := List.getElem?_map

/-- Nodes outside of the place are still there. -/
theorem IsSound.get?_without (h : t.IsSound) (hout : t.isWithin place id = false) :
    (t.without place).get? id = t.get? id := by
  rw [Tree.get?_without]
  cases hn : t.get? id with
  | none => rfl
  | some n =>
    obtain rfl := h.number hn
    exact congrArg some (unlessWithin_eq hout)

/-- **A tree without one of its nodes is sound**, unless the node is the root. -/
theorem IsSound.without (h : t.IsSound) (hplace : place ≠ root) : (t.without place).IsSound where
  number {i n} hn := by
    rw [Tree.get?_without] at hn
    obtain ⟨m, hm, rfl⟩ := Option.map_eq_some_iff.mp hn
    rw [unlessWithin_id, h.number hm]
  atRoot := by
    obtain ⟨r, hr, hroot⟩ := h.atRoot
    exact ⟨r, (h.get?_without (h.isWithin_root hplace)).trans hr, hroot⟩
  below n hn hid := by
    obtain ⟨m, hm, rfl⟩ := List.mem_map.mp hn
    rw [unlessWithin_id] at hid ⊢
    obtain ⟨hkind, p, hp, hparent, hlt, hholds⟩ := h.below m hm hid
    cases hwithin : t.isWithin place m.id with
    | true =>
      -- what is left of it stands in the root, which is still there
      obtain ⟨r, hr, hrkind, -⟩ := h.atRoot
      have hrid := h.number hr
      have hkeep : t.unlessWithin place r = r := unlessWithin_eq (hrid ▸ h.isWithin_root hplace)
      rw [unlessWithin_of_isWithin hwithin]
      refine ⟨NodeKind.noConfusion, r, ?_, congrArg some hrid.symm, ?_, ?_⟩
      · exact List.mem_map.mpr ⟨r, List.mem_of_getElem? hr, hkeep⟩
      · exact hrid ▸ Nat.pos_of_ne_zero hid
      · rw [Node.holds, hrkind]
    | false =>
      have hout := h.isWithin_parent hm (beq_iff_eq.mpr hparent) hwithin
      rw [unlessWithin_eq hwithin]
      exact ⟨hkind, p, List.mem_map.mpr ⟨p, hp, unlessWithin_eq hout⟩, hparent, hlt, hholds⟩

/-! ### Upwards -/

/-- **Nodes outside of the place have the chains that they had.** -/
theorem chain_without (h : t.IsSound) (hplace : place ≠ root)
    (hout : t.isWithin place id = false) : (t.without place).chain id = t.chain id := by
  have hsound := h.without hplace
  induction id using Nat.strongRecOn with
  | _ id ih =>
    cases hn : t.get? id with
    | none => rw [h.chain_eq_nil hn, hsound.chain_eq_nil ((h.get?_without hout).trans hn)]
    | some n =>
      have hmem : n ∈ t.nodes := List.mem_of_getElem? hn
      rw [h.chain_eq hn, hsound.chain_eq ((h.get?_without hout).trans hn)]
      cases hparent : n.parent with
      | none => rfl
      | some parent =>
        have hin : n.isIn parent = true := beq_iff_eq.mpr hparent
        have hid := h.number hn
        have hlt : parent < id := hid ▸ h.lt_of_isIn hmem hin
        exact congrArg (n :: ·) (ih parent hlt (h.isWithin_parent hmem hin (hid ▸ hout)))

theorem nearest?_without {α : Type} (h : t.IsSound) (hplace : place ≠ root)
    (hout : t.isWithin place id = false) (pick : Settings → Option α) :
    (t.without place).nearest? id pick = t.nearest? id pick := by
  rw [nearest?, nearest?, chain_without h hplace hout]

/-- **Nodes outside of the place compile to what they did.** -/
theorem compileNode_without (h : t.IsSound) (hplace : place ≠ root)
    (hout : t.isWithin place id = false) (defaultPattern : String) :
    (t.without place).compileNode defaultPattern id = t.compileNode defaultPattern id := by
  have hoverride : (t.without place).override id = t.override id := by
    funext name
    simp only [override, pattern?, typeName?, nearest?_without h hplace hout]
  rw [compileNode, compileNode, h.get?_without hout, compileContext, compileContext, hoverride]

end

end Tree

end UrlRouting

import Mathlib.Data.List.Induction
import Mathlib.Data.List.Nodup
import Mathlib.Data.List.Sort
import UrlRouting.Proofs.Router.Registration

/-!
# The arena of a tree

A tree says of every node where it stands, so what stands in a node has to be picked out of all
nodes. An *arena* keeps it ready: besides each node that may hold others there are lists of what
stands in it, of routes, of hidden routes and of groups (`UrlRouting.Arena`). Registering a node
writes its number at the end of one of the lists of its parent, and a new cell at the end of the
arena (`UrlRouting.Arena.push`).

The arena of a tree is what the registrations of its nodes make, one after the other
(`UrlRouting.Tree.arena`). Tree and arena go together: they register the same nodes and refuse the
same names (`UrlRouting.Tree.IsSound.push_arena`), and they set the same things
(`UrlRouting.Tree.arena_configure`).

What makes an arena a tree (`UrlRouting.Arena.IsTree`) is kept by every registration
(`UrlRouting.Arena.IsTree.insert`), and so it holds for the arena of a sound tree. The lists are
then those that could be picked out of the nodes (`UrlRouting.Tree.IsSound.children_arena`).
-/

namespace UrlRouting

/-- What is in a list with one more element at its end. -/
theorem getElem?_concat {α : Type} (l : List α) (a : α) (k : Nat) :
    (l ++ [a])[k]? = if k = l.length then some a else l[k]? := by
  rcases Nat.lt_trichotomy k l.length with h | rfl | h
  · rw [if_neg (Nat.ne_of_lt h), List.getElem?_append_left h]
  · rw [if_pos rfl, List.getElem?_concat_length]
  · rw [if_neg (Nat.ne_of_gt h), List.getElem?_eq_none (Nat.le_of_lt h), List.getElem?_eq_none]
    rw [List.length_append, List.length_singleton]
    exact h

/-! ### Children -/

/-- Which of its parent's lists a node is in. -/
inductive Bucket where
  /-- Routes that can be matched. -/
  | routes
  /-- Hidden routes. -/
  | hidden
  /-- Groups. -/
  | groups
  deriving DecidableEq

/-- The list for a node. -/
def NodeKind.bucket : NodeKind → Bucket
  | .route _ _ => .routes
  | .hidden => .hidden
  | .group _ | .root => .groups

/-- The numbers of what stands in a node, in the order of registration. -/
structure Children where
  /-- The routes. -/
  routes : List NodeId := []
  /-- The hidden routes. -/
  hidden : List NodeId := []
  /-- The groups. -/
  groups : List NodeId := []

namespace Children

/-- One of the lists. -/
def of (c : Children) : Bucket → List NodeId
  | .routes => c.routes
  | .hidden => c.hidden
  | .groups => c.groups

/-- Writes a number at the end of one of the lists. -/
def push (c : Children) (id : NodeId) : Bucket → Children
  | .routes => { c with routes := c.routes ++ [id] }
  | .hidden => { c with hidden := c.hidden ++ [id] }
  | .groups => { c with groups := c.groups ++ [id] }

@[simp] theorem of_empty (b : Bucket) : ({} : Children).of b = [] := by
  cases b <;> rfl

theorem of_push (c : Children) (id : NodeId) (b b' : Bucket) :
    (c.push id b).of b' = if b' = b then c.of b' ++ [id] else c.of b' := by
  cases b <;> cases b' <;> rfl

end Children

/-! ### Arenas -/

/-- The root and the groups may hold nodes. -/
theorem Node.holds_iff {n : Node} : n.holds = true ↔ n.kind = .root ∨ n.isGroup = true := by
  rw [holds, isGroup]
  cases n.kind <;> simp

/-- A node, and the lists of what stands in it if it may hold nodes. -/
structure Cell where
  /-- The node. -/
  node : Node
  /-- The lists. -/
  children : Option Children

namespace Cell

/-- The cell of a node in which nothing stands yet. -/
def new (n : Node) : Cell := ⟨n, if n.holds then some {} else none⟩

/-- Writes a node into the lists. -/
def adopt (c : Cell) (n : Node) : Cell :=
  { c with children := c.children.map (·.push n.id n.kind.bucket) }

/-- One of the lists; a node that holds nothing has none. -/
def list (c : Cell) (b : Bucket) : List NodeId :=
  match c.children with
  | some lists => lists.of b
  | none => []

@[simp] theorem list_new (n : Node) (b : Bucket) : (new n).list b = [] := by
  rw [list, new]
  cases n.holds with
  | true => exact Children.of_empty b
  | false => rfl

@[simp] theorem isSome_children_new (n : Node) : (new n).children.isSome = n.holds := by
  rw [new]
  cases n.holds <;> rfl

theorem list_adopt {c : Cell} (h : c.children.isSome) (n : Node) (b : Bucket) :
    (c.adopt n).list b = if b = n.kind.bucket then c.list b ++ [n.id] else c.list b := by
  obtain ⟨lists, hlists⟩ := Option.isSome_iff_exists.mp h
  rw [list, list, adopt, hlists]
  exact Children.of_push ..

end Cell

/-- An arena: the cells of nodes, in the order of registration. -/
structure Arena where
  /-- The cells. -/
  cells : List Cell

namespace Arena

/-- The number of cells. -/
def size (a : Arena) : Nat := a.cells.length

/-- The cell with a number. -/
def cell? (a : Arena) (id : NodeId) : Option Cell := a.cells[id]?

/-- The node with a number. -/
def node? (a : Arena) (id : NodeId) : Option Node := (a.cell? id).map (·.node)

/-- One of the lists of the node with a number. -/
def children (a : Arena) (id : NodeId) (b : Bucket) : List NodeId :=
  match a.cell? id with
  | some c => c.list b
  | none => []

/-- All numbers that are listed anywhere. -/
def listed (a : Arena) : List NodeId :=
  (List.range a.size).flatMap fun id =>
    a.children id .routes ++ a.children id .hidden ++ a.children id .groups

/-- Writes a node into the lists of its parent, and its cell behind the others. -/
def insert (a : Arena) (n : Node) : Arena :=
  match n.parent with
  | some parent => ⟨a.cells.modify parent (·.adopt n) ++ [.new n]⟩
  | none => ⟨a.cells ++ [.new n]⟩

/-- Is the name taken by a sibling? The siblings are those in the list for the node. -/
def clashes (a : Arena) (parent : NodeId) (name : String) (kind : NodeKind) : Bool :=
  (a.children parent kind.bucket).any fun id => (a.node? id).any fun n =>
    n.name == some name &&
      match kind with
      | .route method _ => n.answersTo method
      | .hidden => true
      | _ => false

/-- Registers a node below a parent, and gives its number. -/
def push (a : Arena) (parent : NodeId) (schema : String) (name : Option String) (kind : NodeKind) :
    Except RouterError (Arena × NodeId) :=
  match name.filter fun name => a.clashes parent name kind with
  | some taken => .error (.duplicateRouteName taken)
  | none =>
    .ok (a.insert { id := a.size, parent := some parent, schema, name, kind }, a.size)

/-- Changes the settings of the node with a number. -/
def configure (a : Arena) (id : NodeId) (settings : List Setting) : Arena :=
  ⟨a.cells.map fun c => { c with node := Tree.configured id settings c.node }⟩

/-- **An arena that is a tree.** -/
structure IsTree (a : Arena) : Prop where
  /-- The first cell is the root, which has no parent. -/
  atRoot : ∃ n, a.node? Tree.root = some n ∧ n.kind = .root ∧ n.parent = none
  /-- Every other node is no root, and stands in an earlier one that is the root or a group. -/
  below : ∀ {k n}, a.node? k = some n → k ≠ Tree.root → n.kind ≠ .root ∧
    ∃ p m, n.parent = some p ∧ p < k ∧ a.node? p = some m ∧ (m.kind = .root ∨ m.isGroup = true)
  /-- The root and the groups have lists, and no other node has. -/
  holding : ∀ {k c}, a.cell? k = some c → c.children.isSome = c.node.holds
  /-- A list has the nodes that stand in the node and fit the list, and nothing else. -/
  mem_iff : ∀ {k p b}, k ∈ a.children p b ↔
    ∃ n, a.node? k = some n ∧ n.parent = some p ∧ n.kind.bucket = b
  /-- The numbers in a list ascend. -/
  ascending : ∀ p b, (a.children p b).Pairwise (· < ·)

section

variable {a : Arena} {n m : Node} {k p id : NodeId} {b : Bucket}

theorem node?_of_cell? {c : Cell} (h : a.cell? k = some c) : a.node? k = some c.node := by
  rw [node?, h, Option.map_some]

theorem lt_size_of_node? (h : a.node? k = some n) : k < a.size := by
  obtain ⟨c, hc, -⟩ := Option.map_eq_some_iff.mp h
  exact (List.getElem?_eq_some_iff.mp hc).1

/-! ### Registering a node -/

theorem size_insert (a : Arena) (n : Node) : (a.insert n).size = a.size + 1 := by
  rw [insert]
  split <;> simp [size]

/-- The cells after a registration: those before it, of which that of the parent lists the node, and
a new one. -/
theorem cell?_insert (a : Arena) (n : Node) (k : NodeId) : (a.insert n).cell? k =
    if k = a.size then some (.new n)
    else (a.cell? k).map fun c => if n.parent = some k then c.adopt n else c := by
  rw [insert]
  cases hparent : n.parent with
  | none =>
    refine (getElem?_concat a.cells _ k).trans ?_
    simp only [cell?, size, reduceCtorEq, if_false, Option.map_id_fun', id]
  | some parent =>
    refine (getElem?_concat _ _ k).trans ?_
    rw [List.length_modify, List.getElem?_modify]
    simp only [cell?, size, Option.some.injEq, Option.map_eq_map]

theorem node?_insert (a : Arena) (n : Node) (k : NodeId) :
    (a.insert n).node? k = if k = a.size then some n else a.node? k := by
  rw [node?, cell?_insert]
  split
  · rfl
  · rw [Option.map_map]
    refine Option.map_congr fun c _ => ?_
    change (if n.parent = some k then c.adopt n else c).node = c.node
    split <;> rfl

/-- It does not matter whether things are set before a node is registered or behind it. -/
theorem configure_insert (a : Arena) (n : Node) (place : NodeId) (ss : List Setting) :
    (a.insert n).configure place ss =
      (a.configure place ss).insert (Tree.configured place ss n) := by
  have hget (a : Arena) (k : NodeId) : (a.configure place ss).cell? k =
      (a.cell? k).map fun c => { c with node := Tree.configured place ss c.node } :=
    List.getElem?_map
  refine congrArg Arena.mk (List.ext_getElem? fun k => ?_)
  change ((a.insert n).configure place ss).cell? k = ((a.configure place ss).insert _).cell? k
  rw [hget, cell?_insert, cell?_insert, hget, configure, size, size, List.length_map]
  split
  · rw [Option.map_some, Cell.new, Cell.new, Tree.configured_holds]
  · rw [Option.map_map, Option.map_map, Tree.configured_parent]
    refine Option.map_congr fun c _ => ?_
    rw [Function.comp_apply, Function.comp_apply]
    split
    · rw [Cell.adopt, Cell.adopt, Tree.configured_id, Tree.configured_kind]
    · rfl

theorem node?_insert_of_lt (h : k < a.size) : (a.insert n).node? k = a.node? k := by
  rw [node?_insert, if_neg (Nat.ne_of_lt h)]

/-- A node after a registration was there before it, or is the new one. -/
theorem node?_insert_eq_some (hm : (a.insert n).node? k = some m) :
    k = a.size ∧ m = n ∨ a.node? k = some m := by
  rw [node?_insert] at hm
  split at hm
  · next hk => exact .inl ⟨hk, (Option.some.inj hm).symm⟩
  · exact .inr hm

theorem node?_insert_of_node? (hm : a.node? k = some m) : (a.insert n).node? k = some m :=
  (node?_insert_of_lt (lt_size_of_node? hm)).trans hm

/-- Whether a cell has lists is not changed by a registration. -/
theorem isSome_children_insert (hholding : ∀ {k c}, a.cell? k = some c →
    c.children.isSome = c.node.holds) {c : Cell} (hc : (a.insert n).cell? k = some c) :
    c.children.isSome = c.node.holds := by
  rw [cell?_insert] at hc
  split at hc
  · obtain rfl := Option.some.inj hc
    exact Cell.isSome_children_new n
  · obtain ⟨c₀, hc₀, rfl⟩ := Option.map_eq_some_iff.mp hc
    split
    · rw [Cell.adopt, Option.isSome_map]
      exact hholding hc₀
    · exact hholding hc₀

/-- **The lists after a registration** are those before it, and one of them has the new node at its
end. -/
theorem children_insert (hparent : n.parent = some p) {c : Cell} (hc : a.cell? p = some c)
    (hlists : c.children.isSome) (q : NodeId) (b : Bucket) : (a.insert n).children q b =
      if q = p ∧ b = n.kind.bucket then a.children q b ++ [n.id] else a.children q b := by
  have hlt : p < a.size := (List.getElem?_eq_some_iff.mp hc).1
  rw [children, cell?_insert, children]
  by_cases hq : q = a.size
  · -- nothing stands in the new node
    have hnone : a.cell? q = none := List.getElem?_eq_none (Nat.le_of_eq hq.symm)
    have hne : ¬(q = p ∧ b = n.kind.bucket) := fun h => Nat.ne_of_gt (hq ▸ hlt) h.1
    rw [if_pos hq, if_neg hne, hnone]
    exact Cell.list_new n b
  · rw [if_neg hq, hparent]
    by_cases hqp : q = p
    · subst hqp
      rw [hc]
      simpa using Cell.list_adopt hlists n b
    · have hne : ¬some p = some q := fun h => hqp (Option.some.inj h).symm
      simp only [hne, if_false, hqp, false_and, Option.map_id_fun', id]

/-- A list has what it had, and one list the new node. -/
theorem mem_children_insert_iff (hparent : n.parent = some p) {c : Cell} (hc : a.cell? p = some c)
    (hlists : c.children.isSome) {q : NodeId} : k ∈ (a.insert n).children q b ↔
      k ∈ a.children q b ∨ (q = p ∧ b = n.kind.bucket) ∧ k = n.id := by
  rw [children_insert hparent hc hlists]
  split
  · next hqb => simp [hqb]
  · next hqb => simp [hqb]

namespace IsTree

/-- What holds nodes has lists. -/
theorem exists_lists (h : a.IsTree) (hm : a.node? p = some m) (hholds : m.holds = true) :
    ∃ c, a.cell? p = some c ∧ c.children.isSome := by
  obtain ⟨c, hc, rfl⟩ := Option.map_eq_some_iff.mp hm
  exact ⟨c, hc, (h.holding hc).trans hholds⟩

/-- **An arena with nothing but a root is a tree.** -/
theorem of_root (hkind : n.kind = .root) (hparent : n.parent = none) : (insert ⟨[]⟩ n).IsTree := by
  have hcell {k : NodeId} {c : Cell} (hc : (insert ⟨[]⟩ n).cell? k = some c) :
      k = Tree.root ∧ c = .new n := by
    rw [cell?_insert] at hc
    split at hc
    · next hk => exact ⟨hk, (Option.some.inj hc).symm⟩
    · cases hc
  have hnil (p : NodeId) (b : Bucket) : (insert ⟨[]⟩ n).children p b = [] := by
    rw [children]
    split
    · next c hc => rw [(hcell hc).2, Cell.list_new]
    · rfl
  have hnode {k : NodeId} {m : Node} (hm : (insert ⟨[]⟩ n).node? k = some m) :
      k = Tree.root ∧ m = n := by
    obtain ⟨c, hc, rfl⟩ := Option.map_eq_some_iff.mp hm
    rw [(hcell hc).2]
    exact ⟨(hcell hc).1, rfl⟩
  refine ⟨⟨n, by rw [node?_insert]; rfl, hkind, hparent⟩, fun hm hne => absurd (hnode hm).1 hne,
    fun {k c} hc => ?_, fun {k p b} => ?_, fun p b => ?_⟩
  · rw [(hcell hc).2, Cell.isSome_children_new]
    rfl
  · rw [hnil]
    refine ⟨nofun, ?_⟩
    rintro ⟨m, hm, hp, -⟩
    rw [(hnode hm).2, hparent] at hp
    cases hp
  · rw [hnil]
    exact List.Pairwise.nil

/-- A new node keeps the other nodes where they are. -/
theorem below_insert (h : a.IsTree) (hkind : n.kind ≠ .root) (hparent : n.parent = some p)
    (hm : a.node? p = some m) (hholds : m.kind = .root ∨ m.isGroup = true) {k : NodeId} {n' : Node}
    (hn' : (a.insert n).node? k = some n') (hk : k ≠ Tree.root) :
    n'.kind ≠ .root ∧ ∃ p m, n'.parent = some p ∧ p < k ∧ (a.insert n).node? p = some m ∧
      (m.kind = .root ∨ m.isGroup = true) := by
  rcases node?_insert_eq_some hn' with ⟨rfl, rfl⟩ | hn'
  · exact ⟨hkind, p, m, hparent, lt_size_of_node? hm, node?_insert_of_node? hm, hholds⟩
  · obtain ⟨hkind', q, m', hq, hqk, hm', hholds'⟩ := h.below hn' hk
    exact ⟨hkind', q, m', hq, hqk, node?_insert_of_node? hm', hholds'⟩

/-- The lists after a registration are those of what stands in the nodes. -/
theorem mem_children_insert (h : a.IsTree) (hid : n.id = a.size) (hparent : n.parent = some p)
    {c : Cell} (hc : a.cell? p = some c) (hlists : c.children.isSome) {q : NodeId} :
    k ∈ (a.insert n).children q b ↔
      ∃ m, (a.insert n).node? k = some m ∧ m.parent = some q ∧ m.kind.bucket = b := by
  rw [mem_children_insert_iff hparent hc hlists, h.mem_iff]
  constructor
  · rintro (⟨m, hm, hin⟩ | ⟨⟨rfl, rfl⟩, rfl⟩)
    · exact ⟨m, node?_insert_of_node? hm, hin⟩
    · exact ⟨n, by rw [node?_insert, if_pos hid], hparent, rfl⟩
  · rintro ⟨m, hm, hq, hb⟩
    rcases node?_insert_eq_some hm with ⟨rfl, rfl⟩ | hm
    · exact .inr ⟨⟨Option.some.inj (hq.symm.trans hparent), hb.symm⟩, hid.symm⟩
    · exact .inl ⟨m, hm, hq, hb⟩

/-- The new number is greater than all that are listed. -/
theorem ascending_insert (h : a.IsTree) (hid : n.id = a.size) (hparent : n.parent = some p)
    {c : Cell} (hc : a.cell? p = some c) (hlists : c.children.isSome) (q : NodeId) (b : Bucket) :
    ((a.insert n).children q b).Pairwise (· < ·) := by
  rw [children_insert hparent hc hlists]
  split
  · refine List.pairwise_append.mpr ⟨h.ascending q b, List.pairwise_singleton _ _, ?_⟩
    intro k hk k' hk'
    obtain ⟨m, hm, -⟩ := h.mem_iff.mp hk
    rw [List.mem_singleton.mp hk', hid]
    exact lt_size_of_node? hm
  · exact h.ascending q b

/-- **Registering a node keeps an arena a tree**, if its number is the next one and its parent may
hold nodes. -/
theorem insert (h : a.IsTree) (hid : n.id = a.size) (hkind : n.kind ≠ .root)
    (hparent : n.parent = some p) (hm : a.node? p = some m)
    (hholds : m.kind = .root ∨ m.isGroup = true) : (a.insert n).IsTree := by
  obtain ⟨c, hc, hlists⟩ := h.exists_lists hm (Node.holds_iff.mpr hholds)
  obtain ⟨r, hr, hroot⟩ := h.atRoot
  exact ⟨⟨r, node?_insert_of_node? hr, hroot⟩, h.below_insert hkind hparent hm hholds,
    isSome_children_insert h.holding, h.mem_children_insert hid hparent hc hlists,
    h.ascending_insert hid hparent hc hlists⟩

/-! ### Once in all lists -/

theorem nodup_children (h : a.IsTree) (p : NodeId) (b : Bucket) : (a.children p b).Nodup :=
  (h.ascending p b).imp Nat.ne_of_lt

/-- A number that is in two lists is in one: they are the same. -/
theorem eq_of_mem (h : a.IsTree) {q : NodeId} {b' : Bucket} (hk : k ∈ a.children p b)
    (hk' : k ∈ a.children q b') : p = q ∧ b = b' := by
  obtain ⟨n, hn, hp, hb⟩ := h.mem_iff.mp hk
  obtain ⟨n', hn', hq, hb'⟩ := h.mem_iff.mp hk'
  obtain rfl := Option.some.inj (hn.symm.trans hn')
  exact ⟨Option.some.inj (hp.symm.trans hq), hb.symm.trans hb'⟩

theorem mem_listed (h : a.IsTree) : k ∈ a.listed ↔ k ≠ Tree.root ∧ k < a.size := by
  have hbuckets : k ∈ a.listed ↔ ∃ p < a.size, ∃ b, k ∈ a.children p b := by
    simp only [listed, List.mem_flatMap, List.mem_range, List.mem_append]
    refine exists_congr fun p => and_congr_right fun _ => ?_
    constructor
    · rintro ((hk | hk) | hk) <;> exact ⟨_, hk⟩
    · rintro ⟨b, hk⟩
      cases b
      · exact .inl (.inl hk)
      · exact .inl (.inr hk)
      · exact .inr hk
  rw [hbuckets]
  constructor
  · rintro ⟨p, -, b, hk⟩
    obtain ⟨n, hn, hp, -⟩ := h.mem_iff.mp hk
    refine ⟨?_, lt_size_of_node? hn⟩
    rintro rfl
    obtain ⟨r, hr, -, hnone⟩ := h.atRoot
    obtain rfl := Option.some.inj (hr.symm.trans hn)
    rw [hnone] at hp
    cases hp
  · rintro ⟨hroot, hk⟩
    obtain ⟨n, hn⟩ : ∃ n, a.node? k = some n :=
      ⟨_, node?_of_cell? (List.getElem?_eq_getElem hk)⟩
    obtain ⟨-, p, m, hp, -, hm, -⟩ := h.below hn hroot
    exact ⟨p, lt_size_of_node? hm, _, h.mem_iff.mpr ⟨n, hn, hp, rfl⟩⟩

theorem nodup_listed (h : a.IsTree) : a.listed.Nodup := by
  refine List.nodup_flatMap.mpr ⟨fun p _ => ?_, ?_⟩
  · have hapart (b b' : Bucket) (hne : b ≠ b') :
        List.Disjoint (a.children p b) (a.children p b') :=
      fun k hk hk' => hne (h.eq_of_mem hk hk').2
    have hfirst := (h.nodup_children p .routes).append (h.nodup_children p .hidden)
      (hapart _ _ nofun)
    exact hfirst.append (h.nodup_children p .groups)
      (List.disjoint_append_left.mpr ⟨hapart _ _ nofun, hapart _ _ nofun⟩)
  · refine List.nodup_range.imp fun {p q} hne k hk hk' => hne ?_
    have hmem {p : NodeId} (hk : k ∈ a.children p .routes ++ a.children p .hidden ++
        a.children p .groups) : ∃ b, k ∈ a.children p b := by
      rcases List.mem_append.mp hk with hk | hk
      · rcases List.mem_append.mp hk with hk | hk <;> exact ⟨_, hk⟩
      · exact ⟨_, hk⟩
    obtain ⟨b, hk⟩ := hmem hk
    obtain ⟨b', hk'⟩ := hmem hk'
    exact (h.eq_of_mem hk hk').1

/-- **Every number but that of the root is listed exactly once**, and no other one is. -/
theorem count_listed (h : a.IsTree) (k : NodeId) :
    a.listed.count k = if k ≠ Tree.root ∧ k < a.size then 1 else 0 := by
  split
  · next hk => exact List.count_eq_one_of_mem h.nodup_listed (h.mem_listed.mpr hk)
  · next hk => exact List.count_eq_zero_of_not_mem (mt h.mem_listed.mp hk)

end IsTree

end

end Arena

/-! ### The arena of a tree -/

namespace Tree

/-- The arena that the registrations of the nodes of a tree make, one after the other. -/
def arena (t : Tree) : Arena := t.nodes.foldl Arena.insert ⟨[]⟩

section

variable {t : Tree} {n : Node} {nodes : List Node} {parent : NodeId}

theorem arena_concat (nodes : List Node) (n : Node) :
    arena ⟨nodes ++ [n]⟩ = (arena ⟨nodes⟩).insert n :=
  List.foldl_append ..

@[simp] theorem size_arena (t : Tree) : t.arena.size = t.size := by
  obtain ⟨nodes⟩ := t
  induction nodes using List.reverseRecOn with
  | nil => rfl
  | append_singleton nodes n ih =>
    rw [arena_concat, Arena.size_insert, ih, size, size, List.length_append, List.length_singleton]

/-- **Tree and arena have the same nodes.** -/
@[simp] theorem node?_arena (t : Tree) (k : NodeId) : t.arena.node? k = t.get? k := by
  obtain ⟨nodes⟩ := t
  induction nodes using List.reverseRecOn with
  | nil => rfl
  | append_singleton nodes n ih =>
    rw [arena_concat, Arena.node?_insert, ih, size_arena]
    exact (getElem?_concat nodes n k).symm

/-- Without its last node a sound tree is sound, if that was not its only one. -/
theorem IsSound.init (h : IsSound ⟨nodes ++ [n]⟩) (hne : nodes ≠ []) : IsSound ⟨nodes⟩ := by
  have hget {k : NodeId} {m : Node} (hm : nodes[k]? = some m) : (nodes ++ [n])[k]? = some m :=
    (List.getElem?_append_left (List.getElem?_eq_some_iff.mp hm).1).trans hm
  refine ⟨fun hm => h.number (hget hm), ?_, fun m hm hid => ?_⟩
  · obtain ⟨r, hr, hroot⟩ := h.atRoot
    exact ⟨r, (List.getElem?_append_left (List.length_pos_iff.mpr hne)).symm.trans hr, hroot⟩
  · obtain ⟨hkind, p, hp, hparent, hlt, hholds⟩ := h.below m (List.mem_append_left _ hm) hid
    refine ⟨hkind, p, ?_, hparent, hlt, hholds⟩
    -- the last node has the greatest number, so it is not the parent
    rcases List.mem_append.mp hp with hp | hp
    · exact hp
    · have hcross := (List.pairwise_append.mp h.pairwise).2.2 m hm p hp
      exact absurd hcross (Nat.lt_asymm hlt)

/-- **The arena of a sound tree is a tree.** -/
theorem IsSound.isTree_arena (h : t.IsSound) : t.arena.IsTree := by
  obtain ⟨nodes⟩ := t
  induction nodes using List.reverseRecOn with
  | nil =>
    obtain ⟨r, hr, -⟩ := h.atRoot
    cases hr
  | append_singleton nodes n ih =>
    rw [arena_concat]
    have hlast : n.id = nodes.length := h.number List.getElem?_concat_length
    by_cases hne : nodes = []
    · subst hne
      obtain ⟨r, hr, hkind, hparent, -⟩ := h.atRoot
      obtain rfl : n = r := Option.some.inj hr
      exact .of_root hkind hparent
    · have hsound := h.init hne
      have hid : n.id ≠ root := by
        rw [hlast]
        exact (List.length_pos_iff.mpr hne).ne'
      -- the parent of the last node is in front of it, so it is in the arena already
      obtain ⟨hkind, p, hp, hparent, hlt, hholds⟩ := h.below n (by simp) hid
      have hget : (⟨nodes ++ [n]⟩ : Tree).get? p.id = some p := h.mem_iff.mp hp
      refine (ih hsound).insert (hlast.trans (size_arena ⟨nodes⟩).symm) hkind hparent ?_
        (Node.holds_iff.mp hholds)
      rw [node?_arena]
      exact (List.getElem?_append_left (hlast ▸ hlt)).symm.trans hget

/-- **A list is what could be picked out of the nodes**: those that stand there and fit the list. -/
theorem IsSound.children_arena (h : t.IsSound) (p : NodeId) (b : Bucket) :
    t.arena.children p b =
      (t.nodes.filter fun n => n.isIn p && decide (n.kind.bucket = b)).map (·.id) := by
  have htree := h.isTree_arena
  have hids : ((t.nodes.filter fun n => n.isIn p && decide (n.kind.bucket = b)).map
      (·.id)).Pairwise (· < ·) :=
    List.pairwise_map.mpr (h.pairwise.sublist List.filter_sublist)
  refine (htree.ascending p b).eq_of_mem_iff hids fun k => ?_
  rw [htree.mem_iff, List.mem_map]
  constructor
  · rintro ⟨n, hn, hp, hb⟩
    rw [node?_arena] at hn
    refine ⟨n, List.mem_filter.mpr ⟨List.mem_of_getElem? hn, ?_⟩, h.number hn⟩
    rw [Bool.and_eq_true, decide_eq_true_eq]
    exact ⟨beq_iff_eq.mpr hp, hb⟩
  · rintro ⟨n, hn, rfl⟩
    obtain ⟨hn, hfits⟩ := List.mem_filter.mp hn
    rw [Bool.and_eq_true, decide_eq_true_eq] at hfits
    exact ⟨n, (node?_arena t n.id).trans (h.mem_iff.mp hn), beq_iff_eq.mp hfits.1, hfits.2⟩

/-- **The lists of a node that may hold others** are there, and have what stands in it. -/
theorem IsSound.exists_lists (h : t.IsSound) {place : NodeId} (hholds : t.Holds place) :
    ∃ c lists, t.arena.cell? place = some c ∧ c.children = some lists ∧ ∀ b, lists.of b =
      (t.nodes.filter fun n => n.isIn place && decide (n.kind.bucket = b)).map (·.id) := by
  obtain ⟨n, hn, hn'⟩ := hholds
  obtain ⟨c, hc, hlists⟩ := h.isTree_arena.exists_lists ((node?_arena t place).trans hn) hn'
  obtain ⟨lists, hlists⟩ := Option.isSome_iff_exists.mp hlists
  refine ⟨c, lists, hc, hlists, fun b => ?_⟩
  rw [← h.children_arena, Arena.children, hc]
  dsimp only
  rw [Cell.list, hlists]

/-! ### Tree and arena go together -/

/-- The siblings with a name are found in the list of the parent. -/
theorem IsSound.clashes_arena (h : t.IsSound) (name : String) (kind : NodeKind) :
    t.arena.clashes parent name kind = t.clashes parent name kind := by
  rw [Arena.clashes, h.children_arena, List.any_map, List.any_filter, clashes, Bool.eq_iff_iff,
    List.any_eq_true, List.any_eq_true]
  refine exists_congr fun n => and_congr_right fun hn => ?_
  rw [Function.comp_apply, node?_arena, h.mem_iff.mp hn, Option.any_some]
  cases kind with
  | root | group => simp
  | route method action =>
    cases hk : n.kind <;> simp [NodeKind.bucket, Node.answersTo, hk, and_assoc]
  | hidden => cases hk : n.kind <;> simp [NodeKind.bucket, Node.isHidden, hk]

/-- **Tree and arena register alike.** -/
theorem IsSound.push_arena (h : t.IsSound) (schema : String) (name : Option String)
    (kind : NodeKind) : t.arena.push parent schema name kind =
      (t.add parent schema name kind).map fun added => (added.1.arena, added.2) := by
  have hclash : (fun name => t.arena.clashes parent name kind) =
      fun name => t.clashes parent name kind := funext fun name => h.clashes_arena name kind
  rw [Arena.push, Tree.add, hclash, size_arena]
  cases name.filter fun name => t.clashes parent name kind with
  | some taken => rfl
  | none => exact congrArg (fun a => Except.ok (a, t.size)) (arena_concat t.nodes _).symm

/-- **Tree and arena are configured alike.** -/
theorem arena_configure (t : Tree) (place : NodeId) (ss : List Setting) :
    (t.configure place ss).arena = t.arena.configure place ss := by
  obtain ⟨nodes⟩ := t
  induction nodes using List.reverseRecOn with
  | nil => rfl
  | append_singleton nodes n ih =>
    have hconcat : configure ⟨nodes ++ [n]⟩ place ss =
        ⟨(configure ⟨nodes⟩ place ss).nodes ++ [configured place ss n]⟩ :=
      congrArg Tree.mk (List.map_append ..)
    rw [hconcat, arena_concat, arena_concat, ih, Arena.configure_insert]

end

end Tree

end UrlRouting

import UrlRouting.Proofs.Router.Reachable
import UrlRouting.Proofs.Url.Chains

/-!
# Looking up full names

The full name of a route, hidden or not, is its own name behind the prefixes of the groups around
it. Different routes may have one full name: prefixes may be empty, and a name may be cut into
prefixes in several ways. So what a look-up finds is said in two parts, without following it: what
is found has the name, and everything else that has it comes later
(`UrlRouting.Router.find?_firstNamed`).

What comes later is a matter of the nodes from the root downwards
(`UrlRouting.Tree.LookedUpBefore`). They are ordered like words in a dictionary: at the node where
two of them part, routes come before hidden routes and these before groups, and within each of the
three what was registered first comes first.

The look-up goes through the list of nodes, and what stands in a group comes behind it in that list.
So there is one induction, on the nodes that are still to be gone through, and it says of each part
of the look-up what is said of the whole (`UrlRouting.Tree.IsFirst`).
-/

namespace UrlRouting

/-! ### Names and their order -/

namespace Node

variable {n : Node}

/-- When a node has its turn among those of one place: routes, hidden routes, groups. -/
def nameTurn (n : Node) : Nat :=
  match n.kind with
  | .route _ _ => 0
  | .hidden => 1
  | _ => 2

/-- **One node of a place is looked at before another one.** -/
def NamedBefore (n m : Node) : Prop :=
  n.nameTurn < m.nameTurn ∨ n.nameTurn = m.nameTurn ∧ n.id < m.id

theorem nameTurn_of_isRoute (h : n.isRoute = true) : n.nameTurn = 0 := by
  rw [isRoute] at h
  rw [nameTurn]
  split at h
  · next hk => rw [hk]
  · cases h

theorem nameTurn_of_isHidden (h : n.isHidden = true) : n.nameTurn = 1 := by
  rw [isHidden] at h
  rw [nameTurn]
  split at h
  · next hk => rw [hk]
  · cases h

theorem nameTurn_of_isGroup (h : n.isGroup = true) : n.nameTurn = 2 := by
  rw [isGroup] at h
  rw [nameTurn]
  split at h
  · next hk => rw [hk]
  · cases h

end Node

/-! ### Prefixes -/

theorem behind?_eq_some {front cs rest : List Char} (h : behind? front cs = some rest) :
    cs = front ++ rest := by
  induction front generalizing cs with
  | nil => exact Option.some.inj h
  | cons c front ih =>
    cases cs with
    | nil => cases h
    | cons d cs =>
      rw [behind?] at h
      split at h
      · next heq => rw [ih h, heq, List.cons_append]
      · cases h

/-- What is left of a name in a group stands behind the prefix. -/
theorem Node.nameWithin?_eq_some {n : Node} {name rest : String}
    (h : n.nameWithin? name = some rest) : name = n.namePrefix ++ rest := by
  obtain ⟨cs, hcs, rfl⟩ := Option.map_eq_some_iff.mp h
  rw [← String.ofList_toList (s := name), behind?_eq_some hcs, String.ofList_append,
    String.ofList_toList]

theorem fullName_append (name : String) (outer inner : List Node) :
    fullName name (outer ++ inner) = fullName (fullName name inner) outer := by
  induction outer with
  | nil => rfl
  | cons n outer ih => exact congrArg (n.namePrefix ++ ·) ih

/-! ### Rows of nodes -/

namespace Tree

/-- The nodes from the root down to a node. -/
def pathTo (t : Tree) (id : NodeId) : List Node := (t.chain id).reverse

/-- **A route has a full name**, hidden or not: its own name behind the prefixes of what it stands
in, from the outside in. -/
def Named (t : Tree) (id : NodeId) (full : String) : Prop :=
  ∃ n name, t.get? id = some n ∧ (n.isRoute || n.isHidden) = true ∧ n.name = some name ∧
    fullName name (t.chain id).tail.reverse = full

/-- **One node is looked at before another one**: at the first node where the ways to them part, its
own one is. -/
def LookedUpBefore (t : Tree) (id other : NodeId) : Prop :=
  List.Lex Node.NamedBefore (t.pathTo id) (t.pathTo other)

/-- **The nodes lead to a name** from a place: groups, from the outside in, each with its prefix,
and a route with a name, hidden or not. -/
inductive LeadsTo (t : Tree) : NodeId → String → List Node → Prop
  /-- A route in the place. -/
  | own {place : NodeId} {n : Node} {name : String} (mem : n ∈ t.nodes)
      (isIn : n.isIn place = true) (terminal : (n.isRoute || n.isHidden) = true)
      (named : n.name = some name) : LeadsTo t place name [n]
  /-- A group in the place, and what leads on from it. -/
  | group {place : NodeId} {g : Node} {rest : String} {nodes : List Node} (mem : g ∈ t.nodes)
      (isIn : g.isIn place = true) (isGroup : g.isGroup = true)
      (inside : LeadsTo t g.id rest nodes) : LeadsTo t place (g.namePrefix ++ rest) (g :: nodes)

/-! ### The first of some rows -/

/-- **What is found among some rows of nodes**: the first of them, by the number of its last node,
or nothing if there are none. -/
def IsFirst (among : List Node → Prop) : Option NodeId → Prop
  | none => ∀ nodes, ¬among nodes
  | some id => ∃ front last, last.id = id ∧ among (front ++ [last]) ∧
      ∀ nodes, among nodes → nodes ≠ front ++ [last] →
        List.Lex Node.NamedBefore (front ++ [last]) nodes

section

variable {among front back : List Node → Prop} {answer other : Option NodeId}

theorem IsFirst.congr (h : IsFirst front answer) (hsame : ∀ nodes, front nodes ↔ among nodes) :
    IsFirst among answer := by
  obtain rfl : front = among := funext fun nodes => propext (hsame nodes)
  exact h

/-- **What is found among some rows, or else among others** that come behind them, is found among
all of them. -/
theorem IsFirst.or (h : IsFirst front answer) (h' : IsFirst back other)
    (hbefore : ∀ ns ns', front ns → back ns' → List.Lex Node.NamedBefore ns ns') :
    IsFirst (fun ns => front ns ∨ back ns) (answer.or other) := by
  cases answer with
  | some id =>
    obtain ⟨hits, last, hid, hfront, hfirst⟩ := h
    refine ⟨hits, last, hid, .inl hfront, fun nodes hnodes hne => ?_⟩
    exact hnodes.elim (fun hin => hfirst nodes hin hne) fun hin => hbefore _ nodes hfront hin
  | none =>
    rw [Option.none_or]
    exact h'.congr fun ns => (or_iff_right (h ns)).symm

/-- **The first node with a property** is found, if all that have it have their turn together. -/
theorem isFirst_find? {nodes : List Node} (hpairwise : nodes.Pairwise (·.id < ·.id))
    {p : Node → Bool} {turn : Nat} (hturn : ∀ n, p n = true → n.nameTurn = turn) :
    IsFirst (fun ns => ∃ n ∈ nodes, p n = true ∧ ns = [n]) ((nodes.find? p).map (·.id)) := by
  cases hfind : nodes.find? p with
  | none =>
    rintro ns ⟨n, hn, hp, rfl⟩
    exact List.find?_eq_none.mp hfind n hn hp
  | some n =>
    obtain ⟨hp, earlier, later, rfl, hearlier⟩ := List.find?_eq_some_iff_append.mp hfind
    refine ⟨[], n, rfl, ⟨n, List.mem_append_right _ List.mem_cons_self, hp, rfl⟩, ?_⟩
    rintro ns ⟨m, hm, hpm, rfl⟩ hne
    refine .rel (.inr ⟨(hturn n hp).trans (hturn m hpm).symm, ?_⟩)
    rcases List.mem_append.mp hm with hm | hm
    · exact absurd hpm (by simpa using hearlier m hm)
    · rcases List.mem_cons.mp hm with rfl | hm
      · exact absurd rfl hne
      · exact (List.pairwise_cons.mp (List.pairwise_append.mp hpairwise).2.1).1 m hm

end

/-! ### The names of a place -/

variable {t : Tree} {place : NodeId} {n g last : Node} {name rest : String}
  {nodes later front ns ns' : List Node}

/-- The rows of a single node in the place. -/
def OwnRow (nodes : List Node) (place : NodeId) (name : String) (ns : List Node) : Prop :=
  ∃ n ∈ nodes, n.isIn place = true ∧ (n.isRoute || n.isHidden) = true ∧ n.name = some name ∧
    ns = [n]

/-- The rows through a group. -/
def GroupRow (t : Tree) (g : Node) (name : String) (ns : List Node) : Prop :=
  ∃ rest inner, name = g.namePrefix ++ rest ∧ t.LeadsTo g.id rest inner ∧ ns = g :: inner

/-- The rows through the groups of a place among some nodes. -/
def GroupsRow (t : Tree) (nodes : List Node) (place : NodeId) (name : String) (ns : List Node) :
    Prop :=
  ∃ g ∈ nodes, g.isIn place = true ∧ g.isGroup = true ∧ t.GroupRow g name ns

/-- What leads on from a place: its routes and what goes through its groups, as far as these are
among some nodes. -/
theorem leadsTo_iff (hsub : nodes ⊆ t.nodes)
    (hall : ∀ n ∈ t.nodes, n.isIn place = true → n ∈ nodes) :
    (OwnRow nodes place name ns ∨ t.GroupsRow nodes place name ns) ↔ t.LeadsTo place name ns := by
  constructor
  · rintro (⟨n, hn, hin, hterminal, hname, rfl⟩ | ⟨g, hg, hin, hgroup, rest, inner, rfl, h, rfl⟩)
    · exact .own (hsub hn) hin hterminal hname
    · exact .group (hsub hg) hin hgroup h
  · intro h
    cases h with
    | own mem isIn terminal named => exact .inl ⟨_, hall _ mem isIn, isIn, terminal, named, rfl⟩
    | group mem isIn isGroup inside =>
      exact .inr ⟨_, hall _ mem isIn, isIn, isGroup, _, _, rfl, inside, rfl⟩

/-- **The routes of a place come before the hidden ones**, and the first one with the name is
found. -/
theorem ownNamed?_isFirst (hpairwise : nodes.Pairwise (·.id < ·.id)) :
    IsFirst (OwnRow nodes place name) (ownNamed? nodes place name) := by
  have hroutes := isFirst_find? hpairwise
    (p := fun n => n.isRoute && (n.isIn place && n.name == some name)) fun n hn =>
      Node.nameTurn_of_isRoute (Bool.and_eq_true_iff.mp hn).1
  have hhidden := isFirst_find? hpairwise
    (p := fun n => n.isHidden && (n.isIn place && n.name == some name)) fun n hn =>
      Node.nameTurn_of_isHidden (Bool.and_eq_true_iff.mp hn).1
  have heq : ownNamed? nodes place name =
      ((nodes.find? fun n => n.isRoute && (n.isIn place && n.name == some name)).map (·.id)).or
        ((nodes.find? fun n => n.isHidden && (n.isIn place && n.name == some name)).map
          (·.id)) := by
    rw [ownNamed?]
    cases nodes.find? fun n => n.isRoute && (n.isIn place && n.name == some name) <;> rfl
  rw [heq]
  -- every route has its turn before every hidden one, whatever their numbers
  refine (hroutes.or hhidden ?_).congr fun ns => ?_
  · rintro ns ns' ⟨n, -, hn, rfl⟩ ⟨m, -, hm, rfl⟩
    refine .rel (.inl ?_)
    rw [Node.nameTurn_of_isRoute (Bool.and_eq_true_iff.mp hn).1,
      Node.nameTurn_of_isHidden (Bool.and_eq_true_iff.mp hm).1]
    exact Nat.one_pos
  · simp only [OwnRow, Bool.and_eq_true, Bool.or_eq_true, beq_iff_eq]
    constructor
    · rintro (⟨n, hn, ⟨hkind, hin, hname⟩, rfl⟩ | ⟨n, hn, ⟨hkind, hin, hname⟩, rfl⟩)
      · exact ⟨n, hn, hin, .inl hkind, hname, rfl⟩
      · exact ⟨n, hn, hin, .inr hkind, hname, rfl⟩
    · rintro ⟨n, hn, hin, hkind | hkind, hname, rfl⟩
      · exact .inl ⟨n, hn, ⟨hkind, hin, hname⟩, rfl⟩
      · exact .inr ⟨n, hn, ⟨hkind, hin, hname⟩, rfl⟩

/-! ### The names in groups -/

/-- A row through a group is a row in it. -/
theorem isFirst_groupRow {answer : Option NodeId} (hwithin : name = g.namePrefix ++ rest)
    (h : IsFirst (t.LeadsTo g.id rest) answer) : IsFirst (t.GroupRow g name) answer := by
  have hrest {other : String} (heq : name = g.namePrefix ++ other) : other = rest :=
    (String.append_right_inj g.namePrefix).mp (heq.symm.trans hwithin)
  cases answer with
  | none =>
    rintro ns ⟨other, inner, heq, hinner, rfl⟩
    exact h inner (hrest heq ▸ hinner)
  | some id =>
    obtain ⟨front, last, hid, hleads, hfirst⟩ := h
    refine ⟨g :: front, last, hid, ⟨rest, front ++ [last], hwithin, hleads, rfl⟩, ?_⟩
    rintro ns ⟨other, inner, heq, hinner, rfl⟩ hne
    exact .cons (hfirst inner (hrest heq ▸ hinner) fun hsame => hne (hsame ▸ rfl))

theorem groupNamed?_cons : groupNamed? (n :: later) place name =
    (if n.isGroup && n.isIn place then (n.nameWithin? name).bind (lookIn later n.id)
      else none).or (groupNamed? later place name) := by
  rw [groupNamed?]
  cases n.isGroup && n.isIn place with
  | false => rfl
  | true =>
    cases n.nameWithin? name with
    | none => rfl
    | some rest =>
      simp only [if_true, Option.bind_some]
      rw [lookIn]
      cases ownNamed? later n.id rest with
      | some id => rfl
      | none => cases groupNamed? later n.id rest <;> rfl

/-- A place is looked through in order, if its groups are. -/
theorem lookIn_isFirst_of_groups (hpairwise : nodes.Pairwise (·.id < ·.id)) (hsub : nodes ⊆ t.nodes)
    (hall : ∀ n ∈ t.nodes, n.isIn place = true → n ∈ nodes)
    (hgroups : IsFirst (t.GroupsRow nodes place name) (groupNamed? nodes place name)) :
    IsFirst (t.LeadsTo place name) (lookIn nodes place name) := by
  have heq : lookIn nodes place name =
      (ownNamed? nodes place name).or (groupNamed? nodes place name) := by
    rw [lookIn]
    cases ownNamed? nodes place name <;> rfl
  rw [heq]
  refine ((ownNamed?_isFirst hpairwise).or hgroups ?_).congr fun ns => leadsTo_iff hsub hall
  rintro ns ns' ⟨n, -, -, hterminal, -, rfl⟩ ⟨g, -, -, hgroup, rest, inner, -, -, rfl⟩
  refine .rel (.inl ?_)
  rw [Node.nameTurn_of_isGroup hgroup]
  rcases Bool.or_eq_true_iff.mp hterminal with hroute | hhidden
  · rw [Node.nameTurn_of_isRoute hroute]
    exact Nat.zero_lt_two
  · rw [Node.nameTurn_of_isHidden hhidden]
    exact Nat.one_lt_two

theorem groupsRow_cons_iff (h : (n.isGroup && n.isIn place) = true) :
    (t.GroupRow n name ns ∨ t.GroupsRow later place name ns) ↔
      t.GroupsRow (n :: later) place name ns := by
  obtain ⟨hgroup, hin⟩ := Bool.and_eq_true_iff.mp h
  constructor
  · rintro (hrow | ⟨g, hg, hrest⟩)
    · exact ⟨n, List.mem_cons_self, hin, hgroup, hrow⟩
    · exact ⟨g, List.mem_cons_of_mem n hg, hrest⟩
  · rintro ⟨g, hg, hin, hgroup, hrow⟩
    rcases List.mem_cons.mp hg with rfl | hg
    · exact .inl hrow
    · exact .inr ⟨g, hg, hin, hgroup, hrow⟩

theorem groupsRow_cons_of_skip (h : (n.isGroup && n.isIn place) = false) :
    t.GroupsRow later place name ns ↔ t.GroupsRow (n :: later) place name ns := by
  constructor
  · rintro ⟨g, hg, hrest⟩
    exact ⟨g, List.mem_cons_of_mem n hg, hrest⟩
  · rintro ⟨g, hg, hin, hgroup, hrow⟩
    rcases List.mem_cons.mp hg with rfl | hg
    · rw [hin, hgroup] at h
      cases h
    · exact ⟨g, hg, hin, hgroup, hrow⟩

/-- A group comes before groups with greater numbers. -/
theorem lex_groupRow (hgroup : n.isGroup = true) (hlater : ∀ m ∈ later, n.id < m.id)
    (h : t.GroupRow n name ns) (h' : t.GroupsRow later place name ns') :
    List.Lex Node.NamedBefore ns ns' := by
  obtain ⟨rest, inner, -, -, rfl⟩ := h
  obtain ⟨g, hg, -, hgroup', rest', inner', -, -, rfl⟩ := h'
  refine .rel (.inr ⟨?_, hlater g hg⟩)
  rw [Node.nameTurn_of_isGroup hgroup, Node.nameTurn_of_isGroup hgroup']

/-- **The groups of a place are looked through in order**, by induction on the nodes still to be
gone through. -/
theorem groupNamed?_isFirst (hsound : t.IsSound) (hnodes : t.nodes = front ++ nodes) :
    IsFirst (t.GroupsRow nodes place name) (groupNamed? nodes place name) := by
  induction nodes generalizing front place name with
  | nil =>
    rintro ns ⟨g, hg, -⟩
    cases hg
  | cons n later ih =>
    have hlater : t.nodes = (front ++ [n]) ++ later := hnodes.trans (List.append_cons ..)
    have hpairwise := (List.pairwise_append.mp (hnodes ▸ hsound.pairwise)).2.1
    obtain ⟨hbehind, hpairwise⟩ := List.pairwise_cons.mp hpairwise
    rw [groupNamed?_cons]
    cases hgroup : n.isGroup && n.isIn place with
    | false => exact (ih hlater).congr fun _ => groupsRow_cons_of_skip hgroup
    | true =>
      rw [if_pos rfl]
      have hinside : IsFirst (t.GroupRow n name)
          ((n.nameWithin? name).bind (lookIn later n.id)) := by
        cases hwithin : n.nameWithin? name with
        | none =>
          rintro ns ⟨rest, inner, rfl, -⟩
          rw [Node.nameWithin?_append] at hwithin
          cases hwithin
        | some rest =>
          -- what stands in the group comes behind it
          refine isFirst_groupRow (Node.nameWithin?_eq_some hwithin) ?_
          exact lookIn_isFirst_of_groups hpairwise
            (fun m hm => hlater ▸ List.mem_append_right _ hm)
            (fun m hm hin => hsound.mem_later hnodes hm (hsound.lt_of_isIn hm hin)) (ih hlater)
      have hisGroup := (Bool.and_eq_true_iff.mp hgroup).1
      exact (hinside.or (ih hlater) fun _ _ => lex_groupRow hisGroup hbehind).congr fun _ =>
        groupsRow_cons_iff hgroup

/-- **A look-up finds the first row that leads to the name**, or nothing if none does. -/
theorem find?_isFirst (hsound : t.IsSound) (name : String) :
    IsFirst (t.LeadsTo root name) (t.find? name) :=
  lookIn_isFirst_of_groups hsound.pairwise (List.Subset.refl _) (fun _ hn _ => hn)
    (groupNamed?_isFirst hsound (List.nil_append _).symm)

/-! ### Rows and full names -/

theorem LeadsTo.ne_nil (h : t.LeadsTo place name ns) : ns ≠ [] := by
  cases h <;> exact List.cons_ne_nil _ _

theorem LeadsTo.descends (h : t.LeadsTo place name ns) : t.Descends place ns := by
  induction h with
  | own mem isIn terminal named => exact ⟨mem, isIn, trivial⟩
  | group mem isIn isGroup inside ih => exact ⟨mem, isIn, ih⟩

/-- **What the nodes lead to is a route**, and its name behind the prefixes is the name. -/
theorem LeadsTo.exists_own (h : t.LeadsTo place name (front ++ [last])) :
    last ∈ t.nodes ∧ (last.isRoute || last.isHidden) = true ∧
      ∃ own, last.name = some own ∧ fullName own front = name := by
  generalize hall : front ++ [last] = all at h
  induction h generalizing front with
  | own mem isIn terminal named =>
    obtain ⟨rfl, rfl, -⟩ := eq_of_append_cons_eq_singleton hall
    exact ⟨mem, terminal, _, named, rfl⟩
  | group mem isIn isGroup inside ih =>
    cases front with
    | nil => exact absurd (List.cons.inj hall).2.symm inside.ne_nil
    | cons m front =>
      obtain ⟨rfl, hrest⟩ := List.cons.inj hall
      obtain ⟨hlast, hterminal, own, hname, hfull⟩ := ih hrest
      exact ⟨hlast, hterminal, own, hname, congrArg _ hfull⟩

/-- **What leads on from a node that holds others leads there from the root**, too, behind the
groups around it. -/
theorem LeadsTo.from_root (hsound : t.IsSound) (hn : n ∈ t.nodes) (hholds : n.holds = true)
    (h : t.LeadsTo n.id name ns) : ∃ above, t.LeadsTo root (fullName name above) (above ++ ns) := by
  generalize hid : n.id = id at h
  induction id using Nat.strongRecOn generalizing n name ns with
  | _ id ih =>
    by_cases hroot : n.id = root
    · exact ⟨[], hroot ▸ hid ▸ h⟩
    · obtain ⟨hkind, p, hp, hparent, hlt, hpholds⟩ := hsound.below n hn hroot
      have hgroup : n.isGroup = true := by
        rw [Node.holds] at hholds
        rw [Node.isGroup]
        split at hholds
        · next hk => exact absurd hk hkind
        · next hk => rw [hk]
        · cases hholds
      have hup : t.LeadsTo p.id (n.namePrefix ++ name) (n :: ns) :=
        .group hn (beq_iff_eq.mpr hparent) hgroup (hid ▸ h)
      obtain ⟨above, habove⟩ := ih p.id (hid ▸ hlt) hp hpholds rfl hup
      refine ⟨above ++ [n], ?_⟩
      rw [fullName_append, List.append_assoc]
      exact habove

/-- **The routes with a full name** are those that some nodes lead to from the root, and these are
the nodes on the way to them. -/
theorem named_iff (hsound : t.IsSound) {id : NodeId} : t.Named id name ↔
    ∃ front last, last.id = id ∧ t.LeadsTo root name (front ++ [last]) := by
  obtain ⟨r, hr, hkind, hnone, -⟩ := hsound.atRoot
  have hempty : r.namePrefix = "" := by rw [Node.namePrefix, hkind]
  have hroot : t.chain root = [r] := by rw [hsound.chain_eq hr, hnone]
  -- the root stands in front of every way, and has no prefix
  have hfull {front : List Node} {last : Node} {own full : String}
      (h : t.LeadsTo root full (front ++ [last])) :
      fullName own (t.chain last.id).tail.reverse = fullName own front := by
    rw [h.descends.chain_eq hsound, hroot]
    simp [fullName, hempty]
  constructor
  · rintro ⟨n, own, hn, hterminal, hname, rfl⟩
    have hmem : n ∈ t.nodes := List.mem_of_getElem? hn
    have hid : n.id = id := hsound.number hn
    have hne : n.id ≠ root := by
      rintro hroot
      obtain rfl := hsound.eq_of_id hmem (List.mem_of_getElem? hr)
        (hroot.trans (hsound.number hr).symm)
      simp [Node.isRoute, Node.isHidden, hkind] at hterminal
    obtain ⟨-, p, hp, hparent, -, hholds⟩ := hsound.below n hmem hne
    obtain ⟨above, habove⟩ := LeadsTo.from_root hsound hp hholds
      (.own hmem (beq_iff_eq.mpr hparent) hterminal hname)
    refine ⟨above, n, hid, ?_⟩
    rwa [← hid, hfull habove]
  · rintro ⟨front, last, rfl, h⟩
    obtain ⟨hmem, hterminal, own, hname, rfl⟩ := h.exists_own
    exact ⟨last, own, hsound.mem_iff.mp hmem, hterminal, hname, hfull h⟩

theorem LeadsTo.pathTo_eq (hsound : t.IsSound) (h : t.LeadsTo root name (front ++ [last])) :
    t.pathTo last.id = (t.chain root).reverse ++ (front ++ [last]) := by
  rw [pathTo, h.descends.chain_eq hsound, List.reverse_append, List.reverse_reverse]

/-- **A look-up finds the first route with the full name**, or nothing if there is none. -/
theorem find?_named (hsound : t.IsSound) (name : String) :
    match t.find? name with
    | none => ∀ id, ¬t.Named id name
    | some id => t.Named id name ∧
      ∀ other, t.Named other name → other ≠ id → t.LookedUpBefore id other := by
  have hfirst := find?_isFirst hsound name
  cases hfind : t.find? name with
  | none =>
    rw [hfind] at hfirst
    intro id hid
    obtain ⟨front, last, -, hleads⟩ := (named_iff hsound).mp hid
    exact hfirst _ hleads
  | some id =>
    rw [hfind] at hfirst
    obtain ⟨front, last, rfl, hleads, hbefore⟩ := hfirst
    refine ⟨(named_iff hsound).mpr ⟨front, last, rfl, hleads⟩, fun other hother hne => ?_⟩
    obtain ⟨front', last', rfl, hleads'⟩ := (named_iff hsound).mp hother
    rw [LookedUpBefore, hleads.pathTo_eq hsound, hleads'.pathTo_eq hsound]
    refine List.Lex.append_left _ (hbefore _ hleads' fun hsame => hne ?_) _
    exact congrArg Node.id (List.cons.inj (List.append_inj' hsame rfl).2).1

end Tree

/-! ### Routers -/

namespace Router

/-- **A name is looked up in order.** Of all routes with the full name, hidden or not, a router that
operations lead to finds the one that is looked at first, and it finds nothing only if there is
none. -/
theorem find?_firstNamed {r : Router} (hr : r.Reachable) (name : String) :
    match r.tree.find? name with
    | none => ∀ id, ¬r.tree.Named id name
    | some id => r.tree.Named id name ∧
      ∀ other, r.tree.Named other name → other ≠ id → r.tree.LookedUpBefore id other :=
  Tree.find?_named hr.isSound.tree name

/-- A router with two groups, of which the first one has a part of the prefix of the second one. In
the second one there are a hidden route and a route with one name. -/
def ofPrefixes : Router :=
  ((new {}).runAll [
    .group "/a" (some "a") (.step false (.route "/b" (some "b") none (.identifier "") []) .done),
    .group "/c" (some "a.") (.step false (.hidden "/d" "b" [])
      (.step false (.route "/e" (some "b") none (.identifier "") []) .done))]).1

theorem find?_firstNamed_ofPrefixes : ofPrefixes.Reachable ∧
    ofPrefixes.tree.find? "a.b" = some 5 ∧ ofPrefixes.tree.Named 4 "a.b" ∧
      ofPrefixes.tree.LookedUpBefore 5 4 := by
  have hr : ofPrefixes.Reachable := ⟨{}, _, rfl⟩
  have hfind : ofPrefixes.tree.find? "a.b" = some 5 := by rfl
  have hnamed : ofPrefixes.tree.Named 4 "a.b" := ⟨_, "b", rfl, rfl, rfl, by rfl⟩
  have hfirst := find?_firstNamed hr "a.b"
  rw [hfind] at hfirst
  exact ⟨hr, hfind, hnamed, hfirst.2 4 hnamed (by decide)⟩

end Router

end UrlRouting

import UrlRouting.Proofs.Router.Trees

/-!
# Settings are local

Eight things are inherited, each by itself: the host, the error action, the hook, the factory, and
for every parameter name the two directions of its binder, its pattern and its type. Such a thing is
an *aspect* of the settings (`UrlRouting.Aspect`), and a setter gives a value to some aspects
(`UrlRouting.Setting.gives`): to one of them, but a binder to both directions, and a namespace to
none, since namespaces add up.

What is set on a node is inherited by the nodes below it, as long as no node on the way says something
about the same aspect (`UrlRouting.Tree.Inherits`). A setter changes what is in force at its node and
where that is inherited, for the aspects that it gives a value, and nothing else
(`UrlRouting.Tree.Reachable.inForce_configure`).
-/

namespace UrlRouting

/-! ### Aspects -/

/-- A thing that is inherited by itself. -/
inductive Aspect where
  /-- The host. -/
  | host
  /-- The error action. -/
  | errorAction
  /-- The hook. -/
  | hook
  /-- The factory. -/
  | factory
  /-- The binder of a parameter towards actions. -/
  | input (name : String)
  /-- The binder of a parameter towards urls. -/
  | output (name : String)
  /-- The pattern of a parameter. -/
  | pattern (name : String)
  /-- The type of a parameter. -/
  | typeName (name : String)
  deriving DecidableEq

namespace Aspect

/-- What can be set. -/
def Content : Aspect → Type
  | .host | .pattern _ | .typeName _ => String
  | .errorAction => Action
  | .hook => Hook
  | .factory => ControllerFactory
  | .input _ | .output _ => Transform

/-- What is set on one node. -/
def on (s : Settings) : (a : Aspect) → Option a.Content
  | .host => s.host
  | .errorAction => s.errorAction
  | .hook => s.hook
  | .factory => s.factory
  | .input name => s.binders.input? name
  | .output name => s.binders.output? name
  | .pattern name => s.patterns.lookup name
  | .typeName name => s.types.lookup name

/-- What is in force at a node. -/
def inForce (t : Tree) (id : NodeId) : (a : Aspect) → Option a.Content
  | .host => t.host? id
  | .errorAction => t.errorAction? id
  | .hook => t.hook? id
  | .factory => t.factory? id
  | .input name => t.binderIn? id name
  | .output name => t.binderOut? id name
  | .pattern name => t.pattern? id name
  | .typeName name => t.typeName? id name

/-- What is in force is what the nearest node sets. -/
theorem inForce_eq (t : Tree) (id : NodeId) (a : Aspect) :
    a.inForce t id = t.nearest? id fun s => a.on s := by
  cases a <;> rfl

end Aspect

/-- The value that a setter gives to an aspect. -/
def Setting.gives : Setting → (a : Aspect) → Option a.Content
  | .host schema, .host => some schema
  | .errorAction action, .errorAction => some action
  | .hook translate, .hook => some translate
  | .factory make, .factory => some make
  | .bind name f _, .input other => if other = name then some f else none
  | .bind name _ g, .output other => if other = name then some g else none
  | .bindIn name f, .input other => if other = name then some f else none
  | .bindOut name g, .output other => if other = name then some g else none
  | .pattern name regex, .pattern other => if other = name then some regex else none
  | .paramType name typeName, .typeName other => if other = name then some typeName else none
  | _, _ => none

/-- What is set for a name, behind what has been set last. -/
theorem lookup_cons_or {α : Type} (l : List (String × α)) (name other : String) (v : α) :
    ((name, v) :: l).lookup other = (if other = name then some v else none).or (l.lookup other) := by
  by_cases h : other = name
  · simp [h]
  · simp [List.lookup_cons, beq_eq_false_iff_ne.mpr h, h]

/-- **What a setter does on its node**: it gives what it gives, and leaves the rest as it was. -/
theorem Setting.on_apply (s : Settings) (st : Setting) (a : Aspect) :
    a.on (apply s st) = (st.gives a).or (a.on s) := by
  -- parameters are looked up by name, and everything else is by itself
  cases a with
  | input | output | pattern | typeName => cases st <;> first | rfl | exact lookup_cons_or ..
  | host | errorAction | hook | factory => cases st <;> rfl

/-! ### Walking up -/

namespace Tree

section

variable {t : Tree} {id place : NodeId} {n : Node} {a : Aspect} {st : Setting}

/-- **A node inherits what is set at a place**: it is the place, or it stands in a node that inherits it
and says nothing about the aspect itself. -/
inductive Inherits (t : Tree) (a : Aspect) (place : NodeId) : NodeId → Prop where
  /-- The place itself. -/
  | here {n : Node} : t.get? place = some n → Inherits t a place place
  /-- What stands in a node. -/
  | inside {id parent : NodeId} {n : Node} : t.get? id = some n → a.on n.settings = none →
      n.parent = some parent → Inherits t a place parent → Inherits t a place id

/-- Only what stands below a place inherits it. -/
theorem IsSound.le_of_inherits (h : t.IsSound) (hinherits : t.Inherits a place id) : place ≤ id := by
  induction hinherits with
  | here => exact Nat.le_refl _
  | inside hn _ hparent _ ih =>
    have hlt := h.lt_of_isIn (List.mem_of_getElem? hn) (beq_iff_eq.mpr hparent)
    rw [h.number hn] at hlt
    exact Nat.le_of_lt (Nat.lt_of_le_of_lt ih hlt)

/-- **The nearest node that sets something** is the node itself, or else it is looked for from its
parent upwards. -/
theorem IsSound.nearest?_eq {α : Type} (h : t.IsSound) (hn : t.get? id = some n)
    (pick : Settings → Option α) :
    t.nearest? id pick = (pick n.settings).or (n.parent.bind fun parent => t.nearest? parent pick) := by
  rw [nearest?, h.chain_eq hn, List.findSome?_cons]
  rcases hpick : pick n.settings with _ | v
  · rcases n.parent with _ | parent <;> rfl
  · rfl

theorem IsSound.nearest?_eq_none {α : Type} (h : t.IsSound) (hn : t.get? id = none)
    (pick : Settings → Option α) : t.nearest? id pick = none := by
  rw [nearest?, h.chain_eq_nil hn, List.findSome?_nil]

/-- What a setter does not give is inherited as before. -/
theorem nearest?_configure_of_none (t : Tree) (place : NodeId) (hnone : st.gives a = none)
    (id : NodeId) : ((t.configure place [st]).nearest? id fun s => a.on s) =
      t.nearest? id fun s => a.on s := by
  rw [nearest?, nearest?, chain_configure, List.findSome?_map]
  refine congrArg (fun f => List.findSome? f (t.chain id)) (funext fun n => ?_)
  rw [Function.comp_apply, configured]
  split
  · change a.on (st.apply n.settings) = _
    rw [Setting.on_apply, hnone, Option.none_or]
  · rfl

/-- **Where a setter is heard**, it counts. -/
theorem IsSound.nearest?_configure_of_inherits (h : t.IsSound) {v : a.Content}
    (hgives : st.gives a = some v) (hinherits : t.Inherits a place id) :
    ((t.configure place [st]).nearest? id fun s => a.on s) = some v := by
  have h' := h.configure place [st]
  induction hinherits with
  | @here n hn =>
    have hn' : (t.configure place [st]).get? place = some (configured place [st] n) := by
      rw [get?_configure, hn, Option.map_some]
    rw [h'.nearest?_eq hn', configured, if_pos (h.number hn)]
    change (a.on (st.apply n.settings)).or _ = _
    rw [Setting.on_apply, hgives, Option.some_or, Option.some_or]
  | @inside id parent n hn hnone hparent hinherits ih =>
    -- a node that is further down is not the one that the setter is called on
    have hlt := h.lt_of_isIn (List.mem_of_getElem? hn) (beq_iff_eq.mpr hparent)
    rw [h.number hn] at hlt
    have hne : id ≠ place := Nat.ne_of_gt (Nat.lt_of_le_of_lt (h.le_of_inherits hinherits) hlt)
    have hn' : (t.configure place [st]).get? id = some n := by
      rw [get?_configure_of_ne [st] h hne, hn]
    rw [h'.nearest?_eq hn', hnone, Option.none_or, hparent]
    exact ih

/-- **Where it is not heard**, everything is inherited as before: up to the first node that says
something nothing has changed, and if nobody says anything the place is not on the way. -/
theorem IsSound.nearest?_configure_of_not_inherits (h : t.IsSound) (hinherits : ¬t.Inherits a place id) :
    ((t.configure place [st]).nearest? id fun s => a.on s) = t.nearest? id fun s => a.on s := by
  have h' := h.configure place [st]
  induction id using Nat.strongRecOn with
  | _ id ih =>
    rcases hn : t.get? id with _ | n
    · have hn' : (t.configure place [st]).get? id = none := by
        rw [get?_configure, hn, Option.map_none]
      rw [h.nearest?_eq_none hn, h'.nearest?_eq_none hn']
    · have hne : id ≠ place := by
        rintro rfl
        exact hinherits (.here hn)
      have hn' : (t.configure place [st]).get? id = some n := by
        rw [get?_configure_of_ne [st] h hne, hn]
      rw [h.nearest?_eq hn, h'.nearest?_eq hn']
      rcases hsays : a.on n.settings with _ | v
      · rcases hparent : n.parent with _ | parent
        · rfl
        · have hlt := h.lt_of_isIn (List.mem_of_getElem? hn) (beq_iff_eq.mpr hparent)
          rw [h.number hn] at hlt
          exact ih parent hlt fun habove => hinherits (.inside hn hsays hparent habove)
      · rfl

/-- Namespaces add up, and are left alone by setters of other things. -/
theorem qualifiers_configure (t : Tree) (place : NodeId) (hst : ∀ name, st ≠ .qualifier name)
    (id : NodeId) : (t.configure place [st]).qualifiers id = t.qualifiers id := by
  have hsame (n : Node) : (configured place [st] n).settings.qualifier = n.settings.qualifier := by
    rw [configured]
    split
    · cases st with
      | qualifier name => exact absurd rfl (hst name)
      | _ => rfl
    · rfl
  rw [qualifiers, qualifiers, chain_configure, ← List.map_reverse, List.filterMap_map]
  simp only [Function.comp_def, hsame]

/-- **Settings are local, and the nearest one counts.** After a setter has been called on a node of
a reachable tree, what it gives is in force wherever it is inherited: at the node, and at every node
below it from which on the way up no node says something about the same aspect. Elsewhere everything
that it gives is in force as before, everything that it does not give is in force as before
everywhere, and so are the namespaces, unless it sets one. -/
theorem Reachable.inForce_configure (h : t.Reachable) (place : NodeId) (st : Setting) :
    (∀ a v, st.gives a = some v → ∀ id,
      (t.Inherits a place id → a.inForce (t.configure place [st]) id = some v) ∧
        (¬t.Inherits a place id → a.inForce (t.configure place [st]) id = a.inForce t id)) ∧
      (∀ a, st.gives a = none → ∀ id,
        a.inForce (t.configure place [st]) id = a.inForce t id) ∧
      ((∀ name, st ≠ .qualifier name) → ∀ id,
        (t.configure place [st]).qualifiers id = t.qualifiers id ∧
          ∀ separator name,
            (t.configure place [st]).qualify id separator name = t.qualify id separator name) := by
  refine ⟨fun a v hgives id => ⟨fun hinherits => ?_, fun hinherits => ?_⟩, fun a hnone id => ?_,
    fun hst id => ⟨qualifiers_configure t place hst id, fun separator name => ?_⟩⟩
  · rw [Aspect.inForce_eq]
    exact h.isSound.nearest?_configure_of_inherits hgives hinherits
  · rw [Aspect.inForce_eq, Aspect.inForce_eq]
    exact h.isSound.nearest?_configure_of_not_inherits hinherits
  · rw [Aspect.inForce_eq, Aspect.inForce_eq]
    exact nearest?_configure_of_none t place hnone id
  · rw [qualify, qualify, qualifiers_configure t place hst id]

/-- A binder is set on the root: below it, a group says nothing about it, and a route in the group
has a binder of its own towards actions. -/
theorem Reachable.inForce_configure_bind :
    let t := ((Router.new {}).runAll [.group "/g" none (.step false
      (.route "/x/\x7bn\x7d" none none (.identifier "A@x") [.bindIn "n" fun _ => .ok .null]) .done)]).1.tree
    let t' := t.configure root [.bind "n" .ok .ok]
    (Aspect.output "n").inForce t' 2 = some .ok ∧
      (Aspect.input "n").inForce t' 2 = (Aspect.input "n").inForce t 2 ∧
      (Aspect.input "n").inForce t' 1 = some .ok ∧
      (Aspect.output "m").inForce t' 2 = (Aspect.output "m").inForce t 2 ∧
      t'.qualifiers 2 = t.qualifiers 2 := by
  intro t t'
  obtain ⟨hgiven, hother, hnames⟩ := Reachable.inForce_configure
    (Router.tree_reachable {} _ : t.Reachable) root (.bind "n" .ok .ok)
  have hown : ¬t.Inherits (.input "n") root 2 := by
    rintro (_ | ⟨hn, hnone, -, -⟩)
    obtain rfl := Option.some.inj hn
    exact Option.some_ne_none (fun _ => .ok .null : Transform) hnone
  refine ⟨(hgiven (.output "n") .ok rfl 2).1 ?_, (hgiven (.input "n") .ok rfl 2).2 hown,
    (hgiven (.input "n") .ok rfl 1).1 ?_, hother (.output "m") rfl 2, (hnames ?_ 2).1⟩
  · exact .inside rfl rfl rfl (.inside rfl rfl rfl (.here rfl))
  · exact .inside rfl rfl rfl (.here rfl)
  · exact fun name h => Setting.noConfusion h

end

end Tree

end UrlRouting

import Mathlib
import UrlRouting.Proofs.Url.Matched
import UrlRouting.Proofs.Url.Tails

/-!
# What the front of a url does not depend on

Values are looked up by their names, and they are taken out by their names, so that it should not
matter to the front of a url in which order they come, or which values there are that no schema
declares. It does matter to a binder towards urls for a parameter that has no value, since this is
handed all the values that remain.

Without such binders nothing depends on more than the values of the names that are declared. That is
said of two runs at once. What two runs come to *agrees* if it is the same error, or if it is related
(`UrlRouting.Agree`), and agreement is carried from one piece of a run to the next one. What is
related on the way are values that are the same for the names that matter
(`UrlRouting.Params.AlikeOn`), although each schema takes some of them out.

So two urls agree up to their tails if the values of one of them are those of the other one in
another order, with an undeclared one more or not (`UrlRouting.Router.same_front`).
-/

namespace UrlRouting

/-! ### Two runs -/

/-- **Two outcomes agree** if they are the same error, or answers that are related. -/
inductive Agree {ε α : Type} (R : α → α → Prop) : Except ε α → Except ε α → Prop
  /-- Two answers. -/
  | ok {a b : α} (related : R a b) : Agree R (.ok a) (.ok b)
  /-- The same error. -/
  | error (e : ε) : Agree R (.error e) (.error e)

namespace Agree

variable {ε α β : Type} {R : α → α → Prop} {S : β → β → Prop} {x y : Except ε α}
  {f g : α → Except ε β}

/-- The same outcome agrees with itself. -/
theorem refl (x : Except ε α) : Agree Eq x x := by
  cases x with
  | ok a => exact .ok rfl
  | error e => exact .error e

/-- **What goes on from agreement in agreement** agrees. -/
theorem bind (h : Agree R x y) (hf : ∀ a b, R a b → Agree S (f a) (g b)) :
    Agree S (x >>= f) (y >>= g) := by
  cases h with
  | ok related => exact hf _ _ related
  | error e => exact .error e

/-- The same piece of two runs. -/
theorem bind_same (x : Except ε α) (hf : ∀ a, Agree S (f a) (g a)) :
    Agree S (x >>= f) (x >>= g) :=
  (refl x).bind fun a _ hab => hab ▸ hf a

theorem map_eq {k : α → β} (h : Agree R x y) (hk : ∀ a b, R a b → k a = k b) :
    x.map k = y.map k := by
  cases h with
  | ok related => exact congrArg Except.ok (hk _ _ related)
  | error e => rfl

end Agree

/-! ### Values that are the same where it matters -/

namespace Params

variable {p q : Params} {names : List String} {name : String}

/-- Dropping what counts as not given. -/
theorem get?_given_eq (h : p.names.Nodup) (name : String) :
    p.given.get? name = (p.get? name).filter fun v => !v.isVoid := by
  cases hv : p.get? name with
  | none => exact get?_given_eq_none hv
  | some v =>
    rw [Option.filter_some]
    cases hvoid : v.isVoid with
    | false => exact get?_given hv hvoid
    | true => exact get?_given_of_isVoid h hv hvoid

theorem get?_eraseAll_of_mem (h : p.names.Nodup) (hname : name ∈ names) :
    (p.eraseAll names).get? name = none := by
  rw [get?_eq_none_iff, names_eraseAll, List.Nodup.mem_sdiff_iff h]
  exact fun hmem => hmem.2 hname

/-- **Values that are the same for some names.** -/
structure AlikeOn (names : List String) (p q : Params) : Prop where
  /-- There is one value for a name at most. -/
  nodup : p.names.Nodup
  /-- There is one value for a name at most. -/
  nodup' : q.names.Nodup
  /-- The values are the same. -/
  get? : ∀ name ∈ names, p.get? name = q.get? name

namespace AlikeOn

theorem given (h : AlikeOn names p q) : AlikeOn names p.given q.given := by
  refine ⟨nodup_filter h.nodup _, nodup_filter h.nodup' _, fun name hname => ?_⟩
  rw [get?_given_eq h.nodup, get?_given_eq h.nodup', h.get? name hname]

theorem eraseAll (h : AlikeOn names p q) (used : List String) :
    AlikeOn names (p.eraseAll used) (q.eraseAll used) := by
  refine ⟨names_eraseAll p used ▸ h.nodup.diff, names_eraseAll q used ▸ h.nodup'.diff,
    fun name hname => ?_⟩
  by_cases hused : name ∈ used
  · rw [get?_eraseAll_of_mem h.nodup hused, get?_eraseAll_of_mem h.nodup' hused]
  · rw [get?_eraseAll hused, get?_eraseAll hused, h.get? name hname]

end AlikeOn

/-- **Values that are others only in what does not matter**: they come in another order, or there is
one more, of a name that is neither there nor among the given ones. -/
inductive Varies (names : List String) (p q : Params) : Prop
  /-- Another order. -/
  | permuted (perm : q.entries.Perm p.entries)
  /-- One value more. -/
  | extended {other : String} {v : Value} (fresh : other ∉ p.names) (undeclared : other ∉ names)
      (perm : q.entries.Perm ((other, v) :: p.entries))

theorem get?_eq_of_perm (h : p.names.Nodup) (hperm : q.entries.Perm p.entries) (name : String) :
    p.get? name = q.get? name := by
  have h' : q.names.Nodup := (hperm.map _).nodup_iff.mpr h
  refine Option.ext fun v => ?_
  rw [get?_eq_some_iff h, get?_eq_some_iff h', hperm.mem_iff]

theorem Varies.alikeOn (h : p.names.Nodup) (hvaries : Varies names p q) : AlikeOn names p q := by
  cases hvaries with
  | permuted perm =>
    exact ⟨h, (perm.map _).nodup_iff.mpr h, fun name _ => get?_eq_of_perm h perm name⟩
  | @extended other v fresh undeclared perm =>
    have hmore : (mk ((other, v) :: p.entries)).names.Nodup := List.nodup_cons.mpr ⟨fresh, h⟩
    refine ⟨h, (perm.map _).nodup_iff.mpr hmore, fun name hname => ?_⟩
    rw [← get?_eq_of_perm hmore perm]
    have hne : (name == other) = false := beq_eq_false_iff_ne.mpr fun heq => undeclared (heq ▸ hname)
    rw [Params.get?, Params.get?, List.lookup_cons, hne]

end Params

/-! ### Rows -/

/-- Rows that are written alike, and leave values that are the same for some names. -/
structure Filled.AlikeOn (names : List String) (a b : Filled) : Prop where
  /-- The texts are the same. -/
  text : a.text = b.text
  /-- The values that remain. -/
  params : a.params.AlikeOn names b.params
  /-- The names are the same. -/
  used : a.used = b.used
  /-- Something is missing in both rows, or in none of them. -/
  missing : a.missing = b.missing

theorem Filled.AlikeOn.left {names : List String} {a b : Filled} (h : a.AlikeOn names b) :
    a.left.AlikeOn names b.left := by
  rw [Filled.left, Filled.left, h.used]
  exact h.params.eraseAll b.used

section Rows

variable {ctx : FillContext} {names : List String} {p q : Params}

/-- Without a binder, a parameter depends on the value of its name. -/
theorem ParamSpec.resolve_congr {spec : ParamSpec} (h : p.get? spec.name = q.get? spec.name) :
    spec.resolve none p = spec.resolve none q := by
  unfold resolve
  rw [h]
  cases q.get? spec.name <;> rfl

/-- **A row depends on the values of the names in it**, if there are no binders. -/
theorem Template.fill_agree (row : Template) (houtput : ∀ name, ctx.output name = none)
    (hspecs : ∀ spec ∈ ctx.specs, spec.name ∈ names) (required : Bool) (h : p.AlikeOn names q) :
    Agree (Filled.AlikeOn names) (row.fill ctx required p) (row.fill ctx required q) := by
  induction row generalizing required p q with
  | done => exact .ok ⟨rfl, h, rfl, rfl⟩
  | literal text rest ih =>
    refine (ih required h).bind fun a b hab => .ok ⟨?_, hab.params, hab.used, hab.missing⟩
    dsimp only
    rw [hab.text]
  | param index optional rest ih =>
    refine (ih required h).bind fun a b hab => ?_
    obtain ⟨text, left, used, missing⟩ := a
    obtain ⟨_, left', _, _⟩ := b
    obtain ⟨rfl, hleft, rfl, rfl⟩ := hab
    cases hspec : ctx.specs[index]? with
    | none => exact .ok ⟨rfl, hleft, rfl, rfl⟩
    | some spec =>
      have hname : spec.name ∈ names := hspecs spec (List.mem_of_getElem? hspec)
      dsimp only
      cases missing with
      | true => exact .ok ⟨rfl, hleft, rfl, rfl⟩
      | false =>
        have hresolve := ParamSpec.resolve_congr (hleft.get? _ hname)
        rw [if_neg Bool.false_ne_true, if_neg Bool.false_ne_true, houtput, hresolve]
        refine .bind_same _ fun s => .bind_same _ fun emission => ?_
        cases emission <;> exact .ok ⟨rfl, hleft, rfl, rfl⟩
  | segment inner rest ih1 ih2 =>
    refine (ih2 required h).bind fun a b hab => (ih1 false hab.params).bind fun c d hcd => ?_
    refine .ok ⟨?_, hcd.left, hab.used, hab.missing⟩
    dsimp only
    rw [hab.text, hcd.text, hcd.missing]

end Rows

/-! ### Paths and hosts -/

/-- A text that has been written, and values that are the same for some names. -/
def WrittenAlike (names : List String) (f g : String × Params) : Prop :=
  f.1 = g.1 ∧ f.2.AlikeOn names g.2

namespace Tree

variable {t : Tree} {view : View} {options : Options} {id : NodeId} {names : List String}
  {p q : Params} {absolute : Bool}

/-- A schema depends on the values of the names that it declares. -/
theorem fillSchema_agree {s : Schema} {ctx : CompileContext} {c : CompiledSchema} {route : String}
    (hc : s.compile ctx = .ok c) (houtput : ∀ name, t.binderOut? id name = none)
    (hnames : ∀ name ∈ s.params.map (·.name), name ∈ names) (h : p.AlikeOn names q) :
    Agree (WrittenAlike names) (t.fillSchema id route c p) (t.fillSchema id route c q) := by
  obtain ⟨-, rfl⟩ := Schema.compile_eq_ok_iff.mp hc
  have hspecs : ∀ spec ∈ s.specs ctx, spec.name ∈ names := by
    intro spec hspec
    exact hnames _ (Schema.names_specs s ctx ▸ List.mem_map_of_mem hspec)
  refine (Template.fill_agree _ houtput hspecs true h.given).bind fun a b hab => ?_
  exact .ok ⟨hab.text, hab.left⟩

/-- **A path depends on the values of the names along it.** -/
theorem pathOf_agree {nodes : List Node} (hnodes : ∀ n ∈ nodes, ∃ ctx, view n.id = n.compile ctx)
    (houtput : ∀ n ∈ nodes, ∀ name, t.binderOut? n.id name = none)
    (hnames : ∀ name ∈ (alongPath nodes).flatMap Node.names, name ∈ names) (h : p.AlikeOn names q) :
    Agree (WrittenAlike names) (t.pathOf view nodes p).outcome (t.pathOf view nodes q).outcome := by
  induction nodes generalizing p q with
  | nil => exact .ok ⟨rfl, h⟩
  | cons n above ih =>
    obtain ⟨⟨ctx, hview⟩, hnodes⟩ := List.forall_mem_cons.mp hnodes
    obtain ⟨hown, houtput⟩ := List.forall_mem_cons.mp houtput
    rw [alongPath, List.flatMap_cons] at hnames
    obtain ⟨hnamesOwn, hnames⟩ := List.forall_mem_append.mp hnames
    rw [pathOf, pathOf, Consult.outcome_bind, Consult.outcome_bind]
    cases hcompiled : (Consult.node view n.id).outcome with
    | error e => exact .error e
    | ok compiled =>
      have hcompile : n.compile ctx = .ok compiled := hview ▸ Consult.node_eq_ok.mp hcompiled
      obtain ⟨s, hs, hc⟩ := Node.exists_compile hcompile
      have hdeclared : n.names = s.params.map (·.name) := by
        rw [Node.names, Node.declared, Schema.declaredIn_eq hs]
      have hfill : Agree (WrittenAlike names) (t.fillSchema n.id n.schema compiled.schema p)
          (t.fillSchema n.id n.schema compiled.schema q) :=
        fillSchema_agree hc hown (hdeclared ▸ hnamesOwn) h
      change Agree _ (Consult.outcome (_ >>= _)) (Consult.outcome (_ >>= _))
      rw [Consult.outcome_bind, Consult.outcome_bind]
      -- what is left agrees, too, and that is all that the nodes above look at
      refine hfill.bind fun a b hab => ?_
      obtain ⟨own, left⟩ := a
      obtain ⟨_, left'⟩ := b
      obtain ⟨rfl, hleft⟩ := hab
      cases above with
      | nil => exact .ok ⟨rfl, hleft⟩
      | cons parent above =>
        rw [List.takeWhile_cons] at hnames
        dsimp only
        cases hgroup : parent.isGroup with
        | false => exact .ok ⟨rfl, hleft⟩
        | true =>
          rw [hgroup, if_pos rfl] at hnames
          rw [if_pos rfl, if_pos rfl, Consult.outcome_bind, Consult.outcome_bind]
          refine (ih hnodes houtput hnames hleft).bind fun c d hcd => .ok ⟨?_, hcd.2⟩
          rw [hcd.1]

/-- A host depends on the values of the names in its schema. -/
theorem hostText_agree {schema : String} (houtput : ∀ name, t.binderOut? id name = none)
    (hnames : ∀ name ∈ (Schema.declaredIn schema).map (·.name), name ∈ names)
    (h : p.AlikeOn names q) :
    Agree (WrittenAlike names) (t.hostText options id schema p) (t.hostText options id schema q) := by
  rw [hostText, hostText]
  cases hcompiled : CompiledSchema.ofText schema (t.compileContext id options.defaultPattern) with
  | error e => exact .error _
  | ok c =>
    obtain ⟨s, hs, hc⟩ := CompiledSchema.exists_compile hcompiled
    rw [Schema.declaredIn_eq hs] at hnames
    have hfill : Agree (WrittenAlike names) (t.fillSchema id schema c p)
        (t.fillSchema id schema c q) :=
      fillSchema_agree hc houtput hnames h
    exact hfill.bind fun a b hab => .ok ⟨congrArg (withScheme · options.secure) hab.1, hab.2⟩

/-- **The front of a url depends on the values of the names in its schemas.** -/
theorem urlFront_agree (hnodes : ∀ n ∈ t.chain id, ∃ ctx, view n.id = n.compile ctx)
    (houtput : ∀ n ∈ t.chain id, ∀ name, t.binderOut? n.id name = none)
    (hown : ∀ name, t.binderOut? id name = none)
    (h : p.AlikeOn (t.urlNames options id absolute) q) :
    Agree (WrittenAlike (t.urlNames options id absolute))
      (t.urlFront view options id p absolute).outcome
      (t.urlFront view options id q absolute).outcome := by
  have hpath : Agree (WrittenAlike (t.urlNames options id absolute))
      (t.pathOf view (t.chain id) p.given).outcome (t.pathOf view (t.chain id) q.given).outcome :=
    pathOf_agree hnodes houtput (fun name hname => List.mem_append_left _ hname) h.given
  rw [urlFront, urlFront, Consult.outcome_bind, Consult.outcome_bind]
  refine hpath.bind fun a b hab => ?_
  obtain ⟨path, left⟩ := a
  obtain ⟨_, left'⟩ := b
  obtain ⟨rfl, hleft⟩ := hab
  dsimp only
  rw [Consult.outcome_bind, Consult.outcome_bind]
  cases hschema : t.hostSchema? options id absolute with
  | error e => exact .error e
  | ok schema? =>
    cases schema? with
    | none => exact .ok ⟨rfl, hleft⟩
    | some schema =>
      have hnames : ∀ name ∈ (Schema.declaredIn schema).map (·.name),
          name ∈ t.urlNames options id absolute := by
        intro name hname
        refine List.mem_append_right _ ?_
        rw [hostNames, hschema]
        exact hname
      change Agree _ (Consult.outcome (_ >>= _)) (Consult.outcome (_ >>= _))
      rw [Consult.outcome_bind, Consult.outcome_bind]
      refine (hostText_agree hown hnames hleft).bind fun c d hcd => .ok ⟨?_, hcd.2⟩
      dsimp only
      rw [hcd.1]

/-- Without binders towards urls along a chain there is none in force at its node. -/
theorem binderOut?_eq_none (hbinders : ∀ n ∈ t.chain id, n.settings.binders.outputs = [])
    (name : String) : t.binderOut? id name = none := by
  refine List.findSome?_eq_none_iff.mpr fun n hn => ?_
  change n.settings.binders.outputs.lookup name = none
  rw [hbinders n hn]
  rfl

end Tree

namespace Router

variable {r : Router} {id : NodeId} {name : String} {p q : Params} {absolute : Bool}

/-- **What a url does not depend on.** If there are no binders towards urls along the chain of a
node, the order of the values does not matter to its url, and neither does a further value whose
name is declared by none of its schemas: with both values the url is the same error, or the same
front with a tail each. -/
theorem same_front (hr : r.Reachable) (hid : r.tree.find? name = some id)
    (hbinders : ∀ n ∈ r.tree.chain id, n.settings.binders.outputs = []) (hnodup : p.names.Nodup)
    (hvaries : p.Varies (r.tree.urlNames r.options id absolute) q) :
    ∃ front : Except RouterError String,
      (r.tree.urlFront r.view r.options id p absolute).outcome.map (·.1) = front ∧
      (r.tree.urlFront r.view r.options id q absolute).outcome.map (·.1) = front ∧
      (r.url name p absolute).outcome = front.map
        (· ++ Form.tail r.options (p.leaving (r.tree.urlNames r.options id absolute))) ∧
      (r.url name q absolute).outcome = front.map
        (· ++ Form.tail r.options (q.leaving (r.tree.urlNames r.options id absolute))) := by
  have hsound := hr.isSound
  -- each node of the chain has a part of the chain above it
  have houtput : ∀ n ∈ r.tree.chain id, ∀ name, r.tree.binderOut? n.id name = none := fun n hn =>
    Tree.binderOut?_eq_none fun m hm => hbinders m ((hsound.tree.chain_suffix hn).subset hm)
  have halike := hvaries.alikeOn hnodup
  have hagree := Tree.urlFront_agree hsound.view_chain houtput (Tree.binderOut?_eq_none hbinders)
    halike
  have hsame := hagree.map_eq (k := Prod.fst) fun f g hfg => hfg.1
  exact ⟨_, rfl, hsame.symm, hsound.outcome_url hid hnodup,
    (hsound.outcome_url hid halike.nodup').trans (hsame ▸ rfl)⟩

/-- The values of a search the other way round, and a page. -/
def searchWithPage : Params := ⟨(("page", .int 2) :: searchValues.entries).reverse⟩

/-- Neither the order nor the page makes a difference in front of the tail. -/
theorem same_front_with_page :
    searchOnHost.tree.find? "search" = some 2 ∧
      (∀ n ∈ searchOnHost.tree.chain 2, n.settings.binders.outputs = []) ∧
      searchValues.names.Nodup ∧
      searchValues.Varies (searchOnHost.tree.urlNames searchOnHost.options 2 false) searchWithPage ∧
      ∃ front : Except RouterError String, front = .ok "http://eu.example.com/en/search" ∧
        (searchOnHost.url "search" searchValues false).outcome = front.map
          (· ++ Form.tail searchOnHost.options
            (searchValues.leaving (searchOnHost.tree.urlNames searchOnHost.options 2 false))) ∧
        (searchOnHost.url "search" searchWithPage false).outcome = front.map
          (· ++ Form.tail searchOnHost.options
            (searchWithPage.leaving (searchOnHost.tree.urlNames searchOnHost.options 2 false))) := by
  have hid : searchOnHost.tree.find? "search" = some 2 := by rfl
  have hbinders : ∀ n ∈ searchOnHost.tree.chain 2, n.settings.binders.outputs = [] := by
    have hall : (searchOnHost.tree.chain 2).map (·.settings.binders.outputs) = [[], [], []] := by rfl
    intro n hn
    have hmem := List.mem_map_of_mem (f := (·.settings.binders.outputs)) hn
    rw [hall] at hmem
    simpa only [List.mem_cons, List.not_mem_nil, or_false, or_self] using hmem
  have hnodup : searchValues.names.Nodup := by decide
  have hnames : searchOnHost.tree.urlNames searchOnHost.options 2 false = ["lang", "region"] := by cbv
  have hvaries : searchValues.Varies
      (searchOnHost.tree.urlNames searchOnHost.options 2 false) searchWithPage := by
    rw [hnames]
    exact .extended (by decide) (by decide) (List.reverse_perm _)
  have hreachable : searchOnHost.Reachable := ⟨{}, _, rfl⟩
  obtain ⟨front, hfront, -, hu, hu'⟩ := same_front hreachable hid hbinders hnodup hvaries
  rw [urlFront_searchOnHost] at hfront
  exact ⟨hid, hbinders, hnodup, hvaries, front, hfront.symm, hu, hu'⟩

end Router

end UrlRouting

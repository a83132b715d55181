import UrlRouting.Proofs.Tree.Sound

/-!
# What the compiled schema of a node depends on

A schema is compiled with the patterns and the types that are set on the node and above it. Of these
only those matter that a parameter asks for: the pattern set for its name if it has no validator,
and the type set for its name if it names none (`UrlRouting.Parameter.AsksAlike`). The nearest node
that sets them answers, so a setting of the root is heard only where no node below it speaks first
(`UrlRouting.Setting.Reaches`). Other settings of the root do not change what a node compiles to
(`UrlRouting.Tree.compileNode_configure_root`), and nodes that come later never do
(`UrlRouting.Tree.compileNode_congr`).
-/

namespace UrlRouting

/-! ### What a parameter asks for -/

/-- **Two contexts say the same about a parameter**, as far as it does not speak for itself. -/
structure Parameter.AsksAlike (p : Parameter) (ctx ctx' : CompileContext) : Prop where
  /-- The pattern, for a parameter without a validator. -/
  pattern : p.validator = none →
    (ctx.overrides p.name).pattern = (ctx'.overrides p.name).pattern
  /-- The type, for a parameter that names none. -/
  typeName : p.typeName = none →
    (ctx.overrides p.name).typeName = (ctx'.overrides p.name).typeName

section Congruence

variable {p : Parameter} {ctx ctx' : CompileContext}

theorem Parameter.resolve_congr (h : p.AsksAlike ctx ctx')
    (hdefault : ctx.defaultPattern = ctx'.defaultPattern) (seen : List String) :
    p.resolve ctx seen = p.resolve ctx' seen := by
  have hpattern : p.validator.or (ctx.overrides p.name).pattern =
      p.validator.or (ctx'.overrides p.name).pattern := by
    cases hv : p.validator with
    | none => rw [h.pattern hv]
    | some _ => rfl
  have htype : p.typeName.or (ctx.overrides p.name).typeName =
      p.typeName.or (ctx'.overrides p.name).typeName := by
    cases hn : p.typeName with
    | none => rw [h.typeName hn]
    | some _ => rfl
  have hwith (type : Option ParamType) : p.resolveWith ctx type = p.resolveWith ctx' type := by
    rw [resolveWith, resolveWith, hpattern, hdefault]
  simp only [resolve, htype, hwith]

theorem Schema.compileParts_congr {s : Schema} (h : ∀ p ∈ s.params, p.AsksAlike ctx ctx')
    (hdefault : ctx.defaultPattern = ctx'.defaultPattern) (front : List ParamSpec) :
    s.compileParts ctx front = s.compileParts ctx' front := by
  induction s generalizing front with
  | done => rfl
  | literal text rest ih => rw [compileParts, compileParts, ih h]
  | param p rest ih =>
    have hp := h p List.mem_cons_self
    have hrest := ih fun q hq => h q (List.mem_cons_of_mem p hq)
    simp only [compileParts, p.resolve_congr hp hdefault, hrest]
  | segment inner rest ih1 ih2 =>
    have hinner := ih1 fun q hq => h q (List.mem_append_left _ hq)
    have hrest := ih2 fun q hq => h q (List.mem_append_right _ hq)
    simp only [compileParts, hinner, hrest]

/-- The parameters of a text that is a schema. -/
def Schema.declaredIn (text : String) : List Parameter :=
  match Schema.ofText text with
  | .ok s => s.params
  | .error _ => []

theorem Schema.declaredIn_eq {text : String} {s : Schema} (h : Schema.ofText text = .ok s) :
    declaredIn text = s.params := by
  rw [declaredIn, h]

theorem CompiledSchema.ofText_congr {text : String}
    (h : ∀ p ∈ Schema.declaredIn text, p.AsksAlike ctx ctx')
    (hdefault : ctx.defaultPattern = ctx'.defaultPattern) : ofText text ctx = ofText text ctx' := by
  rw [ofText, ofText]
  cases hs : Schema.ofText text with
  | error e => rfl
  | ok s =>
    rw [Schema.declaredIn_eq hs] at h
    simp only [Schema.compile, Schema.compileParts_congr h hdefault]

/-- The parameters that a node declares. -/
def Node.declared (n : Node) : List Parameter := Schema.declaredIn n.schema

/-- **A node compiles to the same** in contexts that say the same about what it declares. -/
theorem Node.compile_congr {n n' : Node} (hschema : n'.schema = n.schema) (hkind : n'.kind = n.kind)
    (h : ∀ p ∈ n.declared, p.AsksAlike ctx ctx')
    (hdefault : ctx.defaultPattern = ctx'.defaultPattern) : n'.compile ctx = n.compile ctx' := by
  rw [compile, compile, hschema, CompiledSchema.ofText_congr h hdefault]
  have hsource (fragment : String) : n'.matcherSource? fragment = n.matcherSource? fragment := by
    rw [matcherSource?, matcherSource?, hkind]
  simp only [hsource]

end Congruence

/-! ### Settings of the root -/

section Settings

variable {name : String} {s : Settings} {ss : List Setting}

/-- Settings of other things leave the pattern of a name alone. -/
theorem Setting.lookup_patterns (h : ∀ regex, .pattern name regex ∉ ss) :
    (ss.foldl Setting.apply s).patterns.lookup name = s.patterns.lookup name := by
  induction ss generalizing s with
  | nil => rfl
  | cons st ss ih =>
    rw [List.foldl_cons, ih fun regex hmem => h regex (List.mem_cons_of_mem _ hmem)]
    cases st with
    | pattern other regex =>
      have hne : (name == other) = false := beq_eq_false_iff_ne.mpr fun heq =>
        h regex (heq ▸ List.mem_cons_self)
      rw [apply, List.lookup_cons, hne]
    | _ => rfl

/-- What is set for a name stays set. -/
theorem Setting.lookup_patterns_eq_none
    (h : (ss.foldl Setting.apply s).patterns.lookup name = none) : s.patterns.lookup name = none := by
  induction ss generalizing s with
  | nil => exact h
  | cons st ss ih =>
    have hone := ih h
    cases st with
    | pattern other regex =>
      rw [apply, List.lookup_cons] at hone
      split at hone
      · cases hone
      · exact hone
    | _ => exact hone

theorem Setting.lookup_types_eq_none
    (h : (ss.foldl Setting.apply s).types.lookup name = none) : s.types.lookup name = none := by
  induction ss generalizing s with
  | nil => exact h
  | cons st ss ih =>
    have hone := ih h
    cases st with
    | paramType other typeName =>
      rw [apply, List.lookup_cons] at hone
      split at hone
      · cases hone
      · exact hone
    | _ => exact hone

/-- Settings of other things leave the type of a name alone. -/
theorem Setting.lookup_types (h : ∀ typeName, .paramType name typeName ∉ ss) :
    (ss.foldl Setting.apply s).types.lookup name = s.types.lookup name := by
  induction ss generalizing s with
  | nil => rfl
  | cons st ss ih =>
    rw [List.foldl_cons, ih fun typeName hmem => h typeName (List.mem_cons_of_mem _ hmem)]
    cases st with
    | paramType other typeName =>
      have hne : (name == other) = false := beq_eq_false_iff_ne.mpr fun heq =>
        h typeName (heq ▸ List.mem_cons_self)
      rw [apply, List.lookup_cons, hne]
    | _ => rfl

end Settings

/-- **A setting of the root reaches a parameter** at a node: it is about something that neither the
parameter says nor a node between the root and it. -/
def Setting.Reaches (t : Tree) (id : NodeId) (p : Parameter) : Setting → Prop
  | .pattern name _ => name = p.name ∧ p.validator = none ∧
      ∀ n ∈ t.chain id, n.id ≠ Tree.root → n.settings.patterns.lookup name = none
  | .paramType name _ => name = p.name ∧ p.typeName = none ∧
      ∀ n ∈ t.chain id, n.id ≠ Tree.root → n.settings.types.lookup name = none
  | _ => False

namespace Tree

variable {t t' : Tree} {id : NodeId} {ss : List Setting} {p : Parameter}

/-- What settings of the root leave alone, or what a node below it decides, is inherited as
before. -/
theorem nearest?_configure_root {α : Type} (pick : Settings → Option α) (h : t.IsSound)
    (hid : id < t.size)
    (hpick : (∃ n ∈ t.chain id, n.id ≠ root ∧ (pick n.settings).isSome) ∨
      ∀ s, pick (ss.foldl Setting.apply s) = pick s) :
    (t.configure root ss).nearest? id pick = t.nearest? id pick := by
  obtain ⟨below, r, hchain, hr, hbelow⟩ := h.chain_eq_append_root hid
  have hsame : below.map (configured root ss) = below :=
    (List.map_congr_left fun n hn => if_neg (hbelow n hn)).trans (List.map_id below)
  rw [nearest?, nearest?, chain_configure, hchain, List.map_append, hsame, List.findSome?_append,
    List.findSome?_append]
  rcases hpick with ⟨n, hn, hne, hsome⟩ | hpick
  · -- the node that decides stands below the root
    have hn : n ∈ below := by
      rw [hchain] at hn
      rcases List.mem_append.mp hn with hn | hn
      · exact hn
      · exact absurd (List.mem_singleton.mp hn ▸ hr) hne
    have hfound : (below.findSome? fun m => pick m.settings).isSome :=
      List.findSome?_isSome_iff.mpr ⟨n, hn, hsome⟩
    rw [Option.or_of_isSome hfound, Option.or_of_isSome hfound]
  · have hroot : pick (configured root ss r).settings = pick r.settings := by
      rw [configured, if_pos hr]
      exact hpick r.settings
    rw [List.map_singleton, List.findSome?_singleton, List.findSome?_singleton, hroot]

/-- Settings of the root that do not reach a parameter leave alone what is said about it. -/
theorem asksAlike_configure_root (h : t.IsSound) (hid : id < t.size)
    (hfar : ∀ st ∈ ss, ¬st.Reaches t id p) (defaultPattern : String) :
    p.AsksAlike ((t.configure root ss).compileContext id defaultPattern)
      (t.compileContext id defaultPattern) where
  pattern hv := by
    refine nearest?_configure_root (·.patterns.lookup p.name) h hid ?_
    by_cases hbelow : ∃ n ∈ t.chain id, n.id ≠ root ∧ (n.settings.patterns.lookup p.name).isSome
    · exact .inl hbelow
    · refine .inr fun s => Setting.lookup_patterns fun regex hmem => hfar _ hmem ⟨rfl, hv, ?_⟩
      exact fun n hn hne => Option.not_isSome_iff_eq_none.mp fun hsome => hbelow ⟨n, hn, hne, hsome⟩
  typeName hv := by
    refine nearest?_configure_root (·.types.lookup p.name) h hid ?_
    by_cases hbelow : ∃ n ∈ t.chain id, n.id ≠ root ∧ (n.settings.types.lookup p.name).isSome
    · exact .inl hbelow
    · refine .inr fun s => Setting.lookup_types fun regex hmem => hfar _ hmem ⟨rfl, hv, ?_⟩
      exact fun n hn hne => Option.not_isSome_iff_eq_none.mp fun hsome => hbelow ⟨n, hn, hne, hsome⟩

/-- **Settings of the root that do not reach a parameter of a node** do not change what the node
compiles to. -/
theorem compileNode_configure_root (h : t.IsSound)
    (hfar : ∀ n ∈ t.get? id, ∀ p ∈ n.declared, ∀ st ∈ ss, ¬st.Reaches t id p)
    (defaultPattern : String) :
    (t.configure root ss).compileNode defaultPattern id = t.compileNode defaultPattern id := by
  rw [compileNode, compileNode, get?_configure]
  cases hn : t.get? id with
  | none => rfl
  | some n =>
    have hid : id < t.size := (List.getElem?_eq_some_iff.mp hn).1
    exact Node.compile_congr (configured_schema root ss n) (configured_kind root ss n)
      (fun p hp => asksAlike_configure_root h hid (hfar n hn p hp) defaultPattern) rfl

/-- **What a node compiles to depends on earlier nodes only.** -/
theorem compileNode_congr (h : t.IsSound) (h' : t'.IsSound) (hid : id < t.size)
    (hsame : ∀ i ≤ id, t'.get? i = t.get? i) (defaultPattern : String) :
    t'.compileNode defaultPattern id = t.compileNode defaultPattern id := by
  obtain ⟨n, hn⟩ : ∃ n, t.get? id = some n := ⟨_, List.getElem?_eq_getElem hid⟩
  have hcontext : t'.compileContext id defaultPattern = t.compileContext id defaultPattern := by
    have hoverride : t'.override id = t.override id := by
      funext name
      rw [override, override, pattern?, pattern?, typeName?, typeName?, nearest?, nearest?,
        nearest?, nearest?, chain_congr h h' hn hsame]
    rw [compileContext, compileContext, hoverride]
  rw [compileNode, compileNode, hsame id (Nat.le_refl id), hn, hcontext]

end Tree

end UrlRouting

import Mathlib.Data.List.Nodup
import UrlRouting.Schema.Compile

/-!
# The parts of a compiled schema

A schema is compiled from the left to the right, and what is known of the parameters so far is
handed on. The result can be said without any order: each parameter by itself has a specification
(`UrlRouting.Parameter.spec`), and the text and the template of a schema follow from its parts and
the number of parameters in front of it (`UrlRouting.Schema.fragment`,
`UrlRouting.Schema.template`). That a schema compiles means that each parameter can be resolved by
itself (`UrlRouting.Parameter.Resolves`), and that no two have one name. That is
`UrlRouting.Schema.compileParts_eq_ok_iff`, after which nothing needs to look at the compiler again.
-/

namespace UrlRouting

/-! ### Parameters -/

namespace Parameter

variable {p : Parameter} {ctx : CompileContext} {seen : List String}

/-- The name of the type of a parameter: its own one, or the one set for it. -/
def typeName? (p : Parameter) (ctx : CompileContext) : Option String :=
  p.typeName.or (ctx.overrides p.name).typeName

/-- The type of a parameter. -/
def type? (p : Parameter) (ctx : CompileContext) : Option ParamType :=
  (p.typeName? ctx).bind ParamType.ofName?

/-- The text of the validator of a parameter: its own one or the one set for it, rewritten, or that
of its type. -/
def source? (p : Parameter) (ctx : CompileContext) : Option String :=
  ((p.validator.or (ctx.overrides p.name).pattern).map Pattern.ofValidator).or
    ((p.type? ctx).map ParamType.pattern)

/-- The pattern of a parameter: its validator, or else the default one. -/
def pattern (p : Parameter) (ctx : CompileContext) : String :=
  (p.source? ctx).getD ctx.defaultPattern

/-- **The specification of a parameter**, whatever stands in front of it. -/
def spec (p : Parameter) (ctx : CompileContext) : ParamSpec :=
  ⟨p.name, p.default, p.type? ctx, (p.source? ctx).bind Validator.ofSource?, p.pattern ctx⟩

/-- **A parameter that can be resolved**: its type exists, and its validator is an expression. -/
structure Resolves (p : Parameter) (ctx : CompileContext) : Prop where
  /-- The type exists. -/
  type : ∀ name ∈ p.typeName? ctx, (ParamType.ofName? name).isSome
  /-- The validator is an expression. -/
  validator : ∀ source ∈ p.source? ctx, (Validator.ofSource? source).isSome

/-- The validator of a parameter is the one with its text. -/
theorem source_of_validator {val : Validator} (hval : (p.spec ctx).validator = some val) :
    Validator.ofSource? val.source = some val := by
  obtain ⟨source, -, hof⟩ := Option.bind_eq_some_iff.mp hval
  obtain ⟨r, -, rfl⟩ := Option.map_eq_some_iff.mp hof
  exact hof

theorem resolveWith_eq_ok_iff {r : ParamSpec} :
    p.resolveWith ctx (p.type? ctx) = .ok r ↔
      (∀ source ∈ p.source? ctx, (Validator.ofSource? source).isSome) ∧ r = p.spec ctx := by
  rw [spec, pattern, resolveWith, ← source?]
  cases p.source? ctx with
  | none =>
    constructor
    · intro h
      cases h
      exact ⟨fun _ hs => absurd hs (Option.not_mem_none _), rfl⟩
    · rintro ⟨-, rfl⟩
      rfl
  | some source =>
    cases hv : Validator.ofSource? source with
    | none =>
      constructor
      · intro h
        simp only [hv] at h
        cases h
      · rintro ⟨h, -⟩
        have hsome := h source rfl
        rw [hv] at hsome
        cases hsome
    | some v =>
      constructor
      · intro h
        simp only [hv] at h
        cases h
        refine ⟨fun source' hs => ?_, ?_⟩
        · obtain rfl := Option.mem_some.mp hs
          rw [hv]
          rfl
        · simp [hv]
      · rintro ⟨-, rfl⟩
        simp [hv]

/-- **Resolving a parameter** gives its specification, unless its name has been seen. -/
theorem resolve_eq_ok_iff {r : ParamSpec} :
    p.resolve ctx seen = .ok r ↔ p.name ∉ seen ∧ p.Resolves ctx ∧ r = p.spec ctx := by
  unfold resolve
  by_cases hseen : p.name ∈ seen
  · rw [if_pos (List.contains_iff_mem.mpr hseen)]
    simp [hseen]
  · rw [if_neg (mt List.contains_iff_mem.mp hseen), ← typeName?]
    cases hname : p.typeName? ctx with
    | none =>
      have htype : p.type? ctx = none := by
        rw [type?, hname]
        rfl
      have hnone : ∀ n, n ∉ p.typeName? ctx := by
        rw [hname]
        exact fun _ => Option.not_mem_none _
      rw [← htype, resolveWith_eq_ok_iff]
      exact ⟨fun h => ⟨hseen, ⟨fun n hn => (hnone n hn).elim, h.1⟩, h.2⟩,
        fun h => ⟨h.2.1.validator, h.2.2⟩⟩
    | some name =>
      cases hof : ParamType.ofName? name with
      | none =>
        constructor
        · intro h
          simp only [hof] at h
          cases h
        · rintro ⟨-, h, -⟩
          have hsome := h.type name hname
          rw [hof] at hsome
          cases hsome
      | some type =>
        have htype : p.type? ctx = some type := by rw [type?, hname, Option.bind_some, hof]
        simp only [hof]
        rw [← htype, resolveWith_eq_ok_iff]
        refine ⟨fun h => ⟨hseen, ⟨fun n hn => ?_, h.1⟩, h.2⟩, fun h => ⟨h.2.1.validator, h.2.2⟩⟩
        obtain rfl : name = n := by
          rw [hname] at hn
          exact Option.mem_some.mp hn
        rw [hof]
        rfl

/-- **Parameters that can be resolved** behind others with some names: each of them by itself, and
their names are distinct and new. -/
structure AllResolve (ps : List Parameter) (ctx : CompileContext) (seen : List String) : Prop where
  /-- Each of them can be resolved. -/
  each : ∀ p ∈ ps, p.Resolves ctx
  /-- Their names are distinct. -/
  nodup : (ps.map (·.name)).Nodup
  /-- Their names are new. -/
  fresh : ∀ name ∈ ps.map (·.name), name ∉ seen

theorem allResolve_nil (ctx : CompileContext) (seen : List String) : AllResolve [] ctx seen :=
  ⟨List.forall_mem_nil _, List.nodup_nil, List.forall_mem_nil _⟩

theorem allResolve_append_iff {ps qs : List Parameter} :
    AllResolve (ps ++ qs) ctx seen ↔
      AllResolve ps ctx seen ∧ AllResolve qs ctx (seen ++ ps.map (·.name)) := by
  constructor
  · rintro ⟨heach, hnodup, hfresh⟩
    rw [List.map_append] at hnodup hfresh
    obtain ⟨hps, hqs, hdisjoint⟩ := List.nodup_append.mp hnodup
    refine ⟨⟨fun p hp => heach p (List.mem_append_left qs hp), hps,
      fun n hn => hfresh n (List.mem_append_left _ hn)⟩,
      fun p hp => heach p (List.mem_append_right ps hp), hqs, fun n hn hmem => ?_⟩
    rcases List.mem_append.mp hmem with hmem | hmem
    · exact hfresh n (List.mem_append_right _ hn) hmem
    · exact hdisjoint n hmem n hn rfl
  · rintro ⟨⟨heach, hnodup, hfresh⟩, heach', hnodup', hfresh'⟩
    refine ⟨fun p hp => ?_, ?_, fun n hn => ?_⟩
    · rcases List.mem_append.mp hp with hp | hp
      · exact heach p hp
      · exact heach' p hp
    · rw [List.map_append]
      refine List.nodup_append.mpr ⟨hnodup, hnodup', fun a ha b hb heq => ?_⟩
      exact hfresh' b hb (List.mem_append_right seen (heq ▸ ha))
    · rw [List.map_append] at hn
      rcases List.mem_append.mp hn with hn | hn
      · exact hfresh n hn
      · exact fun hmem => hfresh' n hn (List.mem_append_left _ hmem)

theorem allResolve_cons_iff {ps : List Parameter} :
    AllResolve (p :: ps) ctx seen ↔
      (p.name ∉ seen ∧ p.Resolves ctx) ∧ AllResolve ps ctx (seen ++ [p.name]) := by
  have hsingle : AllResolve [p] ctx seen ↔ p.name ∉ seen ∧ p.Resolves ctx :=
    ⟨fun h => ⟨h.fresh p.name List.mem_cons_self, h.each p List.mem_cons_self⟩,
      fun h => ⟨fun q hq => List.mem_singleton.mp hq ▸ h.2, List.nodup_singleton _,
        fun n hn => List.mem_singleton.mp hn ▸ h.1⟩⟩
  rw [← List.singleton_append, allResolve_append_iff, hsingle]
  rfl

end Parameter

/-! ### Schemas -/

namespace Schema

/-- The text of a schema behind so many parameters. -/
def fragment (ctx : CompileContext) : Schema → Nat → String
  | .done, _ => ""
  | .literal text rest, k => Regex.escape text ++ rest.fragment ctx k
  | .param p rest, k => (p.spec ctx).fragment k p.optional ++ rest.fragment ctx (k + 1)
  | .segment inner rest, k =>
    "(?:" ++ inner.fragment ctx k ++ ")?" ++ rest.fragment ctx (k + inner.params.length)

/-- The template of a schema behind so many parameters. -/
def template : Schema → Nat → Template
  | .done, _ => .done
  | .literal text rest, k => .literal text (rest.template k)
  | .param p rest, k => .param k p.optional (rest.template (k + 1))
  | .segment inner rest, k =>
    .segment (inner.template k) (rest.template (k + inner.params.length))

/-- The specifications of the parameters. -/
def specs (s : Schema) (ctx : CompileContext) : List ParamSpec := s.params.map (·.spec ctx)

/-- The compiled parts of a schema behind some parameters. -/
def parts (s : Schema) (ctx : CompileContext) (front : List ParamSpec) : CompiledParts :=
  ⟨s.fragment ctx front.length, s.template front.length, front ++ s.specs ctx⟩

/-- The compiled form of a schema. -/
def compiled (s : Schema) (ctx : CompileContext) : CompiledSchema :=
  ⟨s.fragment ctx 0, s.specs ctx, s.template 0⟩

variable {ctx : CompileContext} {s : Schema} {front : List ParamSpec}

theorem names_specs (s : Schema) (ctx : CompileContext) :
    (s.specs ctx).map (·.name) = s.params.map (·.name) := by
  rw [specs, List.map_map]
  rfl

theorem bind_eq_ok_iff {ε α β : Type} {x : Except ε α} {f : α → Except ε β} {b : β} :
    (x >>= f) = .ok b ↔ ∃ a, x = .ok a ∧ f a = .ok b := by
  cases x with
  | error e => exact ⟨fun h => (nomatch h), fun ⟨_, h, _⟩ => (nomatch h)⟩
  | ok a =>
    constructor
    · exact fun h => ⟨a, rfl, h⟩
    · rintro ⟨_, ⟨⟩, h⟩
      exact h

theorem parts_done : done.parts ctx front = ⟨"", .done, front⟩ := by
  rw [parts]
  simp [specs, params, fragment, template]

/-- The parts of a schema that begins with a parameter, from those of the rest behind it. -/
theorem parts_param (p : Parameter) (rest : Schema) :
    (param p rest).parts ctx front =
      let behind := rest.parts ctx (front ++ [p.spec ctx])
      ⟨(p.spec ctx).fragment front.length p.optional ++ behind.fragment,
        .param front.length p.optional behind.template, behind.params⟩ := by
  have hlength : (front ++ [p.spec ctx]).length = front.length + 1 := List.length_append
  have happend : front ++ [p.spec ctx] ++ rest.specs ctx = front ++ (param p rest).specs ctx :=
    List.append_assoc ..
  rw [parts, parts, ← happend, hlength]
  rfl

/-- The parts of a schema that begins with a segment, from those of the segment and of the rest
behind it. -/
theorem parts_segment (inner rest : Schema) :
    (segment inner rest).parts ctx front =
      let inside := inner.parts ctx front
      let behind := rest.parts ctx inside.params
      ⟨"(?:" ++ inside.fragment ++ ")?" ++ behind.fragment,
        .segment inside.template behind.template, behind.params⟩ := by
  have hlength : (front ++ inner.specs ctx).length = front.length + inner.params.length := by
    rw [List.length_append, specs, List.length_map]
  have happend : front ++ inner.specs ctx ++ rest.specs ctx =
      front ++ (segment inner rest).specs ctx := by
    rw [List.append_assoc, specs, specs, specs, params, List.map_append]
  dsimp only
  rw [parts, parts, parts, ← happend, hlength]
  rfl

/-- The names in front of the rest of a row, behind a parameter. -/
theorem names_front_param (front : List ParamSpec) (p : Parameter) (ctx : CompileContext) :
    (front ++ [p.spec ctx]).map (·.name) = front.map (·.name) ++ [p.name] :=
  List.map_append

/-- The names in front of the rest of a row, behind a segment. -/
theorem names_parts (inner : Schema) (ctx : CompileContext) (front : List ParamSpec) :
    (inner.parts ctx front).params.map (·.name) =
      front.map (·.name) ++ inner.params.map (·.name) := by
  rw [parts, List.map_append, names_specs]

/-- **Compiling the parts of a schema** gives what they are by themselves. -/
theorem compileParts_eq_ok_iff {result : CompiledParts} :
    s.compileParts ctx front = .ok result ↔
      Parameter.AllResolve s.params ctx (front.map (·.name)) ∧ result = s.parts ctx front := by
  induction s generalizing front result with
  | done =>
    rw [parts_done, compileParts, Except.ok.injEq]
    exact ⟨fun h => ⟨Parameter.allResolve_nil _ _, h.symm⟩, fun h => h.2.symm⟩
  | literal text rest ih =>
    rw [compileParts, bind_eq_ok_iff]
    constructor
    · rintro ⟨behind, hbehind, h⟩
      obtain ⟨hresolve, rfl⟩ := ih.mp hbehind
      cases h
      exact ⟨hresolve, rfl⟩
    · rintro ⟨hresolve, rfl⟩
      exact ⟨_, ih.mpr ⟨hresolve, rfl⟩, rfl⟩
  | param p rest ih =>
    rw [compileParts, bind_eq_ok_iff, parts_param]
    change _ ↔ Parameter.AllResolve (p :: rest.params) ctx _ ∧ _
    rw [Parameter.allResolve_cons_iff, ← names_front_param front p ctx]
    constructor
    · rintro ⟨r, hr, h⟩
      obtain ⟨hnew, hp, rfl⟩ := Parameter.resolve_eq_ok_iff.mp hr
      obtain ⟨behind, hbehind, h⟩ := bind_eq_ok_iff.mp h
      obtain ⟨hrest, rfl⟩ := ih.mp hbehind
      exact ⟨⟨⟨hnew, hp⟩, hrest⟩, (Except.ok.inj h).symm⟩
    · rintro ⟨⟨⟨hnew, hp⟩, hrest⟩, rfl⟩
      exact ⟨_, Parameter.resolve_eq_ok_iff.mpr ⟨hnew, hp, rfl⟩,
        bind_eq_ok_iff.mpr ⟨_, ih.mpr ⟨hrest, rfl⟩, rfl⟩⟩
  | segment inner rest ih1 ih2 =>
    rw [compileParts, bind_eq_ok_iff, parts_segment]
    change _ ↔ Parameter.AllResolve (inner.params ++ rest.params) ctx _ ∧ _
    rw [Parameter.allResolve_append_iff, ← names_parts inner ctx front]
    constructor
    · rintro ⟨inside, hinside, h⟩
      obtain ⟨hinner, rfl⟩ := ih1.mp hinside
      obtain ⟨behind, hbehind, h⟩ := bind_eq_ok_iff.mp h
      obtain ⟨hrest, rfl⟩ := ih2.mp hbehind
      exact ⟨⟨hinner, hrest⟩, (Except.ok.inj h).symm⟩
    · rintro ⟨⟨hinner, hrest⟩, rfl⟩
      exact ⟨_, ih1.mpr ⟨hinner, rfl⟩, bind_eq_ok_iff.mpr ⟨_, ih2.mpr ⟨hrest, rfl⟩, rfl⟩⟩

/-- **Compiling a schema** gives its compiled form, if its parameters can be resolved. -/
theorem compile_eq_ok_iff {c : CompiledSchema} :
    s.compile ctx = .ok c ↔ Parameter.AllResolve s.params ctx [] ∧ c = s.compiled ctx := by
  have hparts (result : CompiledParts) : s.compileParts ctx [] = .ok result ↔
      Parameter.AllResolve s.params ctx [] ∧ result = s.parts ctx [] := compileParts_eq_ok_iff
  unfold compile
  cases h : s.compileParts ctx [] with
  | error e =>
    refine ⟨fun hc => (nomatch hc), fun hc => ?_⟩
    have hok := (hparts _).mpr ⟨hc.1, rfl⟩
    rw [h] at hok
    cases hok
  | ok result =>
    obtain ⟨hresolve, rfl⟩ := (hparts _).mp h
    constructor
    · intro hc
      cases hc
      exact ⟨hresolve, rfl⟩
    · rintro ⟨-, rfl⟩
      rfl

end Schema

theorem CompiledSchema.ofText_eq_ok_iff {text : String} {ctx : CompileContext}
    {c : CompiledSchema} :
    ofText text ctx = .ok c ↔ ∃ s, Schema.ofText text = .ok s ∧
      Parameter.AllResolve s.params ctx [] ∧ c = s.compiled ctx := by
  unfold ofText
  cases Schema.ofText text with
  | error e => exact ⟨fun h => (nomatch h), fun ⟨_, h, _⟩ => (nomatch h)⟩
  | ok s =>
    have hcompile : s.compile ctx = .ok c ↔ _ := Schema.compile_eq_ok_iff
    simp only [Except.ok.injEq, exists_eq_left']
    rw [← hcompile]
    cases s.compile ctx with
    | error fault => exact ⟨fun h => (nomatch h), fun h => (nomatch h)⟩
    | ok c' => exact ⟨fun h => congrArg Except.ok (Except.ok.inj h),
        fun h => congrArg Except.ok (Except.ok.inj h)⟩

end UrlRouting

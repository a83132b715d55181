import Mathlib
import UrlRouting.Proofs.Schema.Parts

/-!
# What a schema is rejected for

A schema that has been read is rejected for one of its parameters. A parameter may be at fault in
three ways: its name has occurred before, its type does not exist, or its validator does not compile
(`UrlRouting.Parameter.Fails`). Several of these may hold of one parameter, and several parameters
may be at fault, in segments or outside of them. What is reported is the first way, of the first
parameter from the left, however the segments are nested (`UrlRouting.Schema.compile_eq_error_iff`).

A fault in one parameter does not depend on those behind it, but a name that occurs twice is the
fault of the later one. So the parameters in front of the one that is reported are fine among
themselves (`UrlRouting.Parameter.FirstFault`), and nothing is known of those behind it.
-/

namespace UrlRouting

/-! ### One parameter -/

namespace Parameter

variable {p : Parameter} {ctx : CompileContext} {seen : List String} {fault : SchemaFault}

/-- **What is wrong with a parameter** behind others with some names, and how it is reported. -/
inductive Fails (p : Parameter) (ctx : CompileContext) (seen : List String) : SchemaFault → Prop where
  /-- Its name has occurred before. -/
  | duplicate (old : p.name ∈ seen) : Fails p ctx seen (.duplicateParameter p.name)
  /-- Its name is new, and its type does not exist. -/
  | unknownType {typeName : String} (new : p.name ∉ seen) (type : p.typeName? ctx = some typeName)
      (unknown : ParamType.ofName? typeName = none) :
      Fails p ctx seen (.unknownType p.name typeName)
  /-- Its name is new, its type exists if it has one, and its validator does not compile. -/
  | invalidPattern {source : String} (new : p.name ∉ seen)
      (known : ∀ typeName ∈ p.typeName? ctx, (ParamType.ofName? typeName).isSome)
      (validator : p.source? ctx = some source) (invalid : Validator.ofSource? source = none) :
      Fails p ctx seen (.invalidPattern p.name)

/-- **A parameter is fine or it fails.** -/
theorem resolves_or_fails (p : Parameter) (ctx : CompileContext) (seen : List String) :
    p.name ∉ seen ∧ p.Resolves ctx ∨ ∃ fault, p.Fails ctx seen fault := by
  by_cases hseen : p.name ∈ seen
  · exact .inr ⟨_, .duplicate hseen⟩
  by_cases htype : ∀ typeName ∈ p.typeName? ctx, (ParamType.ofName? typeName).isSome
  · by_cases hvalidator : ∀ source ∈ p.source? ctx, (Validator.ofSource? source).isSome
    · exact .inl ⟨hseen, htype, hvalidator⟩
    · push Not at hvalidator
      obtain ⟨source, hsource, hinvalid⟩ := hvalidator
      exact .inr ⟨_, .invalidPattern hseen htype hsource (Option.not_isSome_iff_eq_none.mp hinvalid)⟩
  · push Not at htype
    obtain ⟨typeName, hname, hunknown⟩ := htype
    exact .inr ⟨_, .unknownType hseen hname (Option.not_isSome_iff_eq_none.mp hunknown)⟩

/-- **A parameter that fails is not resolved**, and this is what is reported. -/
theorem Fails.resolve_eq (h : p.Fails ctx seen fault) : p.resolve ctx seen = .error fault := by
  cases h with
  | duplicate old => exact if_pos (List.contains_iff_mem.mpr old)
  | unknownType new type unknown =>
    unfold resolve
    rw [if_neg (mt List.contains_iff_mem.mp new), ← typeName?, type]
    dsimp only
    rw [unknown]
  | @invalidPattern source new known validator invalid =>
    have hresolve : p.resolveWith ctx (p.type? ctx) = .error (.invalidPattern p.name) := by
      rw [resolveWith, ← source?, validator]
      dsimp only
      rw [invalid]
    unfold resolve
    rw [if_neg (mt List.contains_iff_mem.mp new), ← typeName?]
    rw [type?] at hresolve
    cases hname : p.typeName? ctx with
    | none => rwa [hname] at hresolve
    | some typeName =>
      obtain ⟨type, hof⟩ := Option.isSome_iff_exists.mp (known typeName hname)
      rw [hname, Option.bind_some, hof] at hresolve
      dsimp only
      rw [hof]
      exact hresolve

theorem resolve_eq_error_iff : p.resolve ctx seen = .error fault ↔ p.Fails ctx seen fault := by
  refine ⟨fun h => ?_, Fails.resolve_eq⟩
  rcases p.resolves_or_fails ctx seen with ⟨hnew, hresolves⟩ | ⟨other, hfails⟩
  · rw [resolve_eq_ok_iff.mpr ⟨hnew, hresolves, rfl⟩] at h
    cases h
  · rw [hfails.resolve_eq] at h
    cases h
    exact hfails

/-! ### The first of several parameters -/

/-- **Parameters of which one cannot be resolved** behind others with some names: those in front of it
can, and this is what is wrong with it. -/
def FirstFault (ps : List Parameter) (ctx : CompileContext) (seen : List String)
    (fault : SchemaFault) : Prop :=
  ∃ before p behind, ps = before ++ p :: behind ∧ AllResolve before ctx seen ∧
    p.resolve ctx (seen ++ before.map (·.name)) = .error fault

theorem firstFault_append {ps qs : List Parameter} (h : FirstFault (ps ++ qs) ctx seen fault) :
    FirstFault ps ctx seen fault ∨
      AllResolve ps ctx seen ∧ FirstFault qs ctx (seen ++ ps.map (·.name)) fault := by
  obtain ⟨before, p, behind, heq, hbefore, hp⟩ := h
  rcases List.append_eq_append_iff.mp heq with ⟨front, rfl, rfl⟩ | ⟨_ | ⟨q, front⟩, rfl, hqs⟩
  · obtain ⟨hps, hfront⟩ := allResolve_append_iff.mp hbefore
    refine Or.inr ⟨hps, front, p, behind, rfl, hfront, ?_⟩
    rwa [List.append_assoc, ← List.map_append]
  · refine Or.inr ⟨by rwa [List.append_nil], [], p, behind, hqs.symm, allResolve_nil _ _, ?_⟩
    rwa [List.append_nil, List.map_nil, List.append_nil]
  · obtain ⟨rfl, rfl⟩ := List.cons.inj hqs
    exact Or.inl ⟨before, p, front, rfl, hbefore, hp⟩

/-- **Parameters are all fine or there is a first one at fault.** -/
theorem allResolve_or_firstFault (ps : List Parameter) (ctx : CompileContext) (seen : List String) :
    AllResolve ps ctx seen ∨ ∃ fault, FirstFault ps ctx seen fault := by
  induction ps generalizing seen with
  | nil => exact .inl (allResolve_nil ctx seen)
  | cons p ps ih =>
    rcases p.resolves_or_fails ctx seen with hp | ⟨fault, hfails⟩
    · rcases ih (seen ++ [p.name]) with hps | ⟨fault, before, q, behind, rfl, hbefore, hq⟩
      · exact .inl (allResolve_cons_iff.mpr ⟨hp, hps⟩)
      · refine .inr ⟨fault, p :: before, q, behind, rfl, allResolve_cons_iff.mpr ⟨hp, hbefore⟩, ?_⟩
        rwa [List.append_assoc] at hq
    · refine .inr ⟨fault, [], p, ps, rfl, allResolve_nil ctx seen, ?_⟩
      rw [List.map_nil, List.append_nil]
      exact hfails.resolve_eq

/-- Nothing is seen in front of the first parameter of a schema. -/
theorem allResolve_iff {ps : List Parameter} :
    AllResolve ps ctx [] ↔ (ps.map (·.name)).Nodup ∧ ∀ p ∈ ps, p.Resolves ctx :=
  ⟨fun h => ⟨h.nodup, h.each⟩, fun h => ⟨h.2, h.1, fun _ _ => List.not_mem_nil⟩⟩

end Parameter

/-! ### Schemas -/

namespace Schema

variable {ctx : CompileContext} {s : Schema} {front : List ParamSpec} {fault : SchemaFault}

theorem bind_eq_error_of_ok {ε α β : Type} {x : Except ε α} {f : α → Except ε β} {a : α} {e : ε}
    (hx : x = .ok a) (hf : f a = .error e) : (x >>= f) = .error e := by
  subst hx
  exact hf

/-- **A schema does not compile** if one of its parameters cannot be resolved, and the first of them
is the one that is reported. -/
theorem compileParts_eq_error (h : Parameter.FirstFault s.params ctx (front.map (·.name)) fault) :
    s.compileParts ctx front = .error fault := by
  induction s generalizing front with
  | done =>
    obtain ⟨before, p, behind, heq, -⟩ := h
    exact absurd heq.symm (List.append_ne_nil_of_right_ne_nil _ (List.cons_ne_nil _ _))
  | literal text rest ih =>
    rw [compileParts, ih h]
    rfl
  | param p rest ih =>
    rw [compileParts]
    have hcons : Parameter.FirstFault ([p] ++ rest.params) ctx (front.map (·.name)) fault := h
    -- it is this parameter, or one of the rest, and then this one can be resolved
    rcases Parameter.firstFault_append hcons with hp | ⟨hp, hrest⟩
    · obtain ⟨_ | ⟨q, before⟩, r, behind, heq, -, hfault⟩ := hp
      · obtain ⟨rfl, -⟩ := List.cons.inj heq
        rw [List.map_nil, List.append_nil] at hfault
        rw [hfault]
        rfl
      · have hnil := (List.cons.inj heq).2
        exact absurd hnil.symm (List.append_ne_nil_of_right_ne_nil _ (List.cons_ne_nil _ _))
    · obtain ⟨hp, -⟩ := Parameter.allResolve_cons_iff.mp hp
      refine bind_eq_error_of_ok (Parameter.resolve_eq_ok_iff.mpr ⟨hp.1, hp.2, rfl⟩) ?_
      rw [ih (names_front_param front p ctx ▸ hrest)]
      rfl
  | segment inner rest ih1 ih2 =>
    rw [compileParts]
    rcases Parameter.firstFault_append h with hinner | ⟨hinner, hrest⟩
    · rw [ih1 hinner]
      rfl
    · refine bind_eq_error_of_ok (compileParts_eq_ok_iff.mpr ⟨hinner, rfl⟩) ?_
      rw [ih2 (names_parts inner ctx front ▸ hrest)]
      rfl

theorem compile_eq_error (h : Parameter.FirstFault s.params ctx [] fault) :
    s.compile ctx = .error fault := by
  have hparts : s.compileParts ctx [] = .error fault := compileParts_eq_error h
  rw [compile, hparts]
  rfl

/-- **A schema is rejected for its first fault**, and for nothing else. -/
theorem compile_eq_error_iff :
    s.compile ctx = .error fault ↔ Parameter.FirstFault s.params ctx [] fault := by
  refine ⟨fun h => ?_, compile_eq_error⟩
  rcases Parameter.allResolve_or_firstFault s.params ctx [] with hall | ⟨other, hfirst⟩
  · rw [compile_eq_ok_iff.mpr ⟨hall, rfl⟩] at h
    cases h
  · rw [compile_eq_error hfirst] at h
    cases h
    exact hfirst

/-- A text that has been read is rejected for what its schema is rejected for. -/
theorem ofText_compile {text : String} (h : ofText text = .ok s) (ctx : CompileContext) :
    CompiledSchema.ofText text ctx = (s.compile ctx).mapError (⟨text, ·⟩) := by
  rw [CompiledSchema.ofText, h]
  dsimp only
  cases s.compile ctx <;> rfl

/-- **When a schema compiles, and what it is rejected for.** It compiles just if no two of its
parameters have one name, in segments or outside of them, and each of them has a type that exists, or
none, and a validator that compiles, or none; its type being its own one or else the one set for it,
and its validator its own one, or else the one set for it, or else that of its type. Otherwise it is
rejected for the first of its parameters from the left of which one of these is not so: for its name
if that has occurred before, else for its type, else for its validator. What is said of a text is
what is said of its schema. -/
theorem compile_outcome (s : Schema) (ctx : CompileContext) :
    ((∃ c, s.compile ctx = .ok c) ↔
      (s.params.map (·.name)).Nodup ∧ ∀ p ∈ s.params, p.Resolves ctx) ∧
    (∀ fault, s.compile ctx = .error fault ↔
      ∃ before p behind, s.params = before ++ p :: behind ∧
        ((before.map (·.name)).Nodup ∧ ∀ q ∈ before, q.Resolves ctx) ∧
        p.Fails ctx (before.map (·.name)) fault) ∧
    ∀ text, ofText text = .ok s → ∀ e, CompiledSchema.ofText text ctx = .error e ↔
      e.schema = text ∧ s.compile ctx = .error e.fault := by
  refine ⟨?_, fun fault => ?_, fun text hs e => ?_⟩
  · simp only [compile_eq_ok_iff, Parameter.allResolve_iff, exists_and_left, exists_eq, and_true]
  · rw [compile_eq_error_iff, Parameter.FirstFault]
    simp only [Parameter.allResolve_iff, Parameter.resolve_eq_error_iff, List.nil_append]
  · rw [ofText_compile hs]
    obtain ⟨schema, found⟩ := e
    cases s.compile ctx with
    | ok c =>
      constructor
      · intro h
        cases h
      · rintro ⟨-, h⟩
        cases h
    | error fault =>
      constructor
      · intro h
        cases h
        exact ⟨rfl, rfl⟩
      · rintro ⟨rfl, h⟩
        cases h
        rfl

/-- Three parameters of which two are at fault: the one in the segment has a type that does not exist
and a validator that is no expression, and the one behind it has the name of the first one. -/
def threeFaults : Schema :=
  .literal "/" (.param ⟨"a", none, none, none, false⟩
    (.segment (.literal "/" (.param ⟨"b", none, some "date", some "[", false⟩ .done))
      (.literal "/" (.param ⟨"a", none, none, none, false⟩ .done))))

/-- Of these faults the type is reported. -/
theorem compile_outcome_type :
    ofText "/\x7ba\x7d[/\x7bb#date|[\x7d]/\x7ba\x7d" = .ok threeFaults ∧
      CompiledSchema.ofText "/\x7ba\x7d[/\x7bb#date|[\x7d]/\x7ba\x7d" {} =
        .error ⟨"/\x7ba\x7d[/\x7bb#date|[\x7d]/\x7ba\x7d", .unknownType "b" "date"⟩ := by
  have hs : ofText "/\x7ba\x7d[/\x7bb#date|[\x7d]/\x7ba\x7d" = .ok threeFaults := by cbv
  obtain ⟨-, hfault, htext⟩ := compile_outcome threeFaults {}
  refine ⟨hs, (htext _ hs _).mpr ⟨rfl, (hfault _).mpr ⟨[⟨"a", none, none, none, false⟩], _, _, rfl,
    ⟨List.nodup_singleton _, fun q hq => ?_⟩, .unknownType (by decide) rfl (by decide)⟩⟩⟩
  obtain rfl := List.mem_singleton.mp hq
  exact ⟨fun _ hname => absurd hname (Option.not_mem_none _),
    fun _ hsource => absurd hsource (Option.not_mem_none _)⟩

end Schema

end UrlRouting

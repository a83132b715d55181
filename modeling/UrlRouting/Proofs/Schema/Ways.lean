import UrlRouting.Proofs.Regex.Captures
import UrlRouting.Proofs.Regex.Whole
import UrlRouting.Proofs.Schema.Parts

/-!
# The ways of a schema

The expression of a schema is read from a text in which literals are escaped and patterns stand in
groups of their own. Here the ways through it are said in terms of the schema
(`UrlRouting.Schema.ways`): a literal reads its text, a parameter captures what its pattern reads,
and an optional part is gone through if that leads on, and else left out. That these are the ways of
the expression is `UrlRouting.Schema.fragment_traces`, by induction on the schema. It needs no more
of a pattern than that it is an expression by itself (`UrlRouting.Parameter.StandsAlone`).

What a way says is about the captures of the schema (`UrlRouting.Schema.notes_ways`): those of its
parameters, by number, and those that patterns name themselves. If the patterns are plain, too
(`UrlRouting.Parameter.IsPlain`), there are none of the latter, and notes are only about the
parameters of the schema (`UrlRouting.Schema.trail_omits`).
-/

namespace UrlRouting

open Regex Regex.Ways

/-! ### Names of captures -/

theorem captureName_injective {i j : Nat} (h : captureName i = captureName j) : i = j := by
  have htoList := congrArg String.toList h
  simp only [captureName, String.toList_append] at htoList
  exact Nat.repr_injective (String.toList_injective (List.append_cancel_left htoList))

theorem isNameChar_of_isDigit {c : Char} (h : c.isDigit = true) : isNameChar false c = true := by
  have hrange : 0x30 ≤ c.toNat ∧ c.toNat ≤ 0x39 := by
    simp only [Char.isDigit, Bool.and_eq_true, decide_eq_true_eq] at h
    exact h
  have hdigit : Text.isDigit c = true := by
    simp [Text.isDigit, Text.digitRanges, Text.inRanges, hrange]
  simp [isNameChar, Text.isNumeral, hdigit]

theorem isName_captureName (i : Nat) : isName (captureName i).toList = true := by
  have hp : isNameChar true 'p' = true := by decide
  rw [captureName, String.toList_append]
  refine Bool.and_eq_true_iff.mpr ⟨hp, List.all_eq_true.mpr fun c hc => isNameChar_of_isDigit ?_⟩
  rw [Nat.toString_eq_repr, Nat.repr_eq_ofList_toDigits, String.toList_ofList] at hc
  exact Nat.isDigit_of_mem_toDigits (by decide) (by decide) hc

namespace Parameter

/-- The expression of the pattern of a parameter. -/
def expr (p : Parameter) (ctx : CompileContext) : Expr :=
  match Syntax.read? (p.pattern ctx) with
  | some s => s.expr
  | none => .set .nothing

/-- **A parameter with a plain pattern**: it is an expression by itself, without conditions on
places and captures. -/
def IsPlain (p : Parameter) (ctx : CompileContext) : Prop :=
  ∃ s, Syntax.ofText? (p.pattern ctx) = some s ∧ s.isPlain = true

/-- The capture of a parameter with a number. -/
def capture (p : Parameter) (ctx : CompileContext) (k : Nat) : Expr :=
  .capture (some (captureName k)) (p.expr ctx)

/-- The ways of a parameter with a number. -/
def ways (p : Parameter) (ctx : CompileContext) (k : Nat) (P : Position) : List Way :=
  if p.optional then (p.capture ctx k).ways P ++ stay P else (p.capture ctx k).ways P

variable {p : Parameter} {ctx : CompileContext}

/-- **A parameter with a pattern that is an expression by itself.** -/
def StandsAlone (p : Parameter) (ctx : CompileContext) : Prop :=
  (Syntax.read? (p.pattern ctx)).isSome

/-- The names of the captures in the pattern of a parameter. -/
def innerNames (p : Parameter) (ctx : CompileContext) : List String :=
  match Syntax.read? (p.pattern ctx) with
  | some s => s.names
  | none => []

theorem IsPlain.exists_read? (h : p.IsPlain ctx) : ∃ s, Syntax.read? (p.pattern ctx) = some s ∧
    s.isPlain = true ∧ p.expr ctx = s.expr := by
  obtain ⟨s, hs, hplain⟩ := h
  have hread := (Option.filter_eq_some_iff.mp hs).1
  refine ⟨s, hread, hplain, ?_⟩
  rw [expr, hread]

theorem IsPlain.isPlain_expr (h : p.IsPlain ctx) : (p.expr ctx).isPlain = true := by
  obtain ⟨s, -, hplain, hexpr⟩ := h.exists_read?
  exact hexpr ▸ Syntax.isPlain_expr hplain

theorem IsPlain.standsAlone (h : p.IsPlain ctx) : p.StandsAlone ctx := by
  obtain ⟨s, hread, -, -⟩ := h.exists_read?
  rw [StandsAlone, hread]
  rfl

theorem IsPlain.innerNames_eq (h : p.IsPlain ctx) : p.innerNames ctx = [] := by
  obtain ⟨s, hread, hplain, -⟩ := h.exists_read?
  rw [innerNames, hread]
  exact Syntax.names_eq_nil hplain

/-- **The text of a parameter** traces its capture. -/
theorem StandsAlone.traces (h : p.StandsAlone ctx) (k : Nat) :
    Syntax.Traces ((p.spec ctx).fragment k p.optional).toList (p.ways ctx k)
      (captureName k :: p.innerNames ctx) := by
  obtain ⟨s, hread⟩ := Option.isSome_iff_exists.mp h
  have hcloses : Syntax.Closes (p.pattern ctx).toList s :=
    Syntax.closes_of_read? (by rwa [String.ofList_toList])
  have hopens := Syntax.opens_capture (isName_captureName k)
  rw [String.ofList_toList] at hopens
  have hmeans := Syntax.means_capture (some (captureName k)) s
  have hnames : (Syntax.group (.capture (some (captureName k))) s).names =
      captureName k :: p.innerNames ctx := by
    rw [Syntax.names, innerNames, hread]
  have hcapture : p.capture ctx k = .capture (some (captureName k)) s.expr := by
    rw [capture, expr, hread]
  rw [← hnames, ParamSpec.fragment]
  cases hopt : p.optional with
  | false =>
    have hways : p.ways ctx k = (p.capture ctx k).ways := by
      funext P
      simp [ways, hopt]
    rw [hways, hcapture]
    simpa [String.toList_append, spec] using hcloses.traces hopens hmeans
  | true =>
    have hways : p.ways ctx k = fun P => (p.capture ctx k).ways P ++ stay P := by
      funext P
      simp [ways, hopt]
    rw [hways, hcapture]
    simpa [String.toList_append, spec] using hcloses.traces_optional hopens hmeans

/-- The notes that the pattern of a parameter takes are about its names of groups. -/
theorem notes_expr (p : Parameter) (ctx : CompileContext) (P : Position) :
    Notes (· ∈ p.innerNames ctx) ((p.expr ctx).ways P) := by
  rw [expr, innerNames]
  split
  · next s hread => exact Syntax.notes_expr s P
  · have hplain : (Expr.set .nothing).isPlain = true := rfl
    intro w hw n hn
    rw [Expr.trail_eq_nil hplain hw] at hn
    cases hn

/-- The capture of a plain parameter notes where it begins and ends, and nothing else. -/
theorem IsPlain.mem_capture_iff (h : p.IsPlain ctx) {k : Nat} {P : Position} {w : Way} :
    w ∈ (p.capture ctx k).ways P ↔ ∃ Q, (∃ v ∈ (p.expr ctx).ways P, v.stop = Q) ∧
      w = ⟨[.opened (captureName k) P.rest, .closed (captureName k) Q.rest], Q⟩ := by
  have htrail {v : Way} (hv : v ∈ (p.expr ctx).ways P) : v.trail = [] :=
    Expr.trail_eq_nil h.isPlain_expr hv
  constructor
  · intro hw
    obtain ⟨v, hv, rfl⟩ := List.mem_map.mp hw
    refine ⟨v.stop, ⟨v, hv, rfl⟩, ?_⟩
    rw [htrail hv]
    rfl
  · rintro ⟨_, ⟨v, hv, rfl⟩, rfl⟩
    refine List.mem_map.mpr ⟨v, hv, ?_⟩
    rw [htrail hv]
    rfl

/-- The ways of a parameter are those of its capture, and staying if it is optional. -/
theorem mem_ways_iff {k : Nat} {P : Position} {w : Way} :
    w ∈ p.ways ctx k P ↔
      w ∈ (p.capture ctx k).ways P ∨ p.optional = true ∧ w = ⟨[], P⟩ := by
  rw [ways]
  split
  · rename_i hopt
    rw [List.mem_append, stay, List.mem_singleton]
    simp [hopt]
  · rename_i hopt
    simp [hopt]

/-- **The notes on a way of a parameter** are about its capture, and those in its pattern. -/
theorem notes_ways (p : Parameter) (ctx : CompileContext) (k : Nat) (P : Position) :
    Notes (· ∈ captureName k :: p.innerNames ctx) (p.ways ctx k P) := by
  intro w hw n hn
  rcases mem_ways_iff.mp hw with hw | ⟨-, rfl⟩
  · obtain ⟨v, hv, rfl⟩ := List.mem_map.mp hw
    rcases List.mem_append.mp hn with hn | hn
    · rcases List.mem_append.mp hn with hn | hn
      · obtain rfl := List.mem_singleton.mp hn
        exact List.mem_cons_self
      · exact List.mem_cons_of_mem _ (notes_expr p ctx P v hv n hn)
    · obtain rfl := List.mem_singleton.mp hn
      exact List.mem_cons_self
  · cases hn

theorem IsPlain.trail_omits (h : p.IsPlain ctx) {k i : Nat} {P : Position} {w : Way}
    (hw : w ∈ p.ways ctx k P) (hi : i ≠ k) : w.trail.Omits (captureName i) := by
  intro n hn hname
  have hmem := notes_ways p ctx k P w hw n hn
  rw [h.innerNames_eq, List.mem_singleton, hname] at hmem
  exact hi (captureName_injective hmem)

end Parameter

namespace Schema

/-- **The ways of a schema** behind so many parameters. -/
def ways (ctx : CompileContext) : Schema → Nat → Position → List Way
  | .done, _, P => stay P
  | .literal text rest, k, P => extend ((Expr.word text.toList).ways P) (rest.ways ctx k)
  | .param p rest, k, P => extend (p.ways ctx k P) (rest.ways ctx (k + 1))
  | .segment inner rest, k, P =>
    extend (inner.ways ctx k P ++ stay P) (rest.ways ctx (k + inner.params.length))

/-- The names of so many captures, behind so many others. -/
def captureNames (k n : Nat) : List String := (List.range' k n).map captureName

theorem captureNames_append (k m n : Nat) :
    captureNames k m ++ captureNames (k + m) n = captureNames k (m + n) := by
  rw [captureNames, captureNames, captureNames, ← List.map_append, List.range'_append_1]

theorem nodup_captureNames (k n : Nat) : (captureNames k n).Nodup :=
  (List.nodup_range' ..).map fun _ _ => captureName_injective

/-- The names of all captures of a schema behind so many parameters, those in the patterns
included. -/
def allNames (ctx : CompileContext) : Schema → Nat → List String
  | .done, _ => []
  | .literal _ rest, k => rest.allNames ctx k
  | .param p rest, k => captureName k :: p.innerNames ctx ++ rest.allNames ctx (k + 1)
  | .segment inner rest, k =>
    inner.allNames ctx k ++ rest.allNames ctx (k + inner.params.length)

variable {ctx : CompileContext} {s : Schema}

/-- The text of a segment is an optional group, and the text of the rest. -/
theorem toList_fragment_segment (inner rest : Schema) (k : Nat) :
    (fragment ctx (segment inner rest) k).toList =
      "(?:".toList ++ (fragment ctx inner k).toList ++ [')', '?'] ++
        (fragment ctx rest (k + inner.params.length)).toList := by
  simp [fragment, String.toList_append]

/-- **The text of a schema traces its ways**, if all its patterns are expressions by themselves. -/
theorem fragment_traces (h : ∀ p ∈ s.params, p.StandsAlone ctx) (k : Nat) :
    Syntax.Traces (s.fragment ctx k).toList (s.ways ctx k) (s.allNames ctx k) := by
  induction s generalizing k with
  | done => exact Syntax.traces_nil
  | literal text rest ih =>
    have hrest := (Syntax.traces_escape text.toList).append (ih h k)
    rw [fragment, String.toList_append, escape, String.toList_ofList]
    exact hrest
  | param p rest ih =>
    have hp := (h p List.mem_cons_self).traces k
    have hrest := hp.append (ih (fun q hq => h q (List.mem_cons_of_mem p hq)) (k + 1))
    rw [fragment, String.toList_append]
    exact hrest
  | segment inner rest ih1 ih2 =>
    obtain ⟨s, hcloses, hways, hnames⟩ :=
      (ih1 (fun p hp => h p (List.mem_append_left _ hp)) k).closes
    have hinner := hcloses.traces_optional Syntax.opens_plain (Syntax.means_group s)
    have hrest := hinner.append
      (ih2 (fun p hp => h p (List.mem_append_right _ hp)) (k + inner.params.length))
    have hgroup : (Syntax.group (.plain ⟨[], []⟩) s).names = inner.allNames ctx k := hnames
    rw [hgroup] at hrest
    rw [toList_fragment_segment]
    have hsegment : (segment inner rest).ways ctx k = fun P =>
        extend (s.expr.ways P ++ stay P) (rest.ways ctx (k + inner.params.length)) := by
      funext P
      rw [ways, hways]
    rw [hsegment]
    exact hrest

/-- With plain patterns, the captures are those of the parameters. -/
theorem allNames_eq (h : ∀ p ∈ s.params, p.IsPlain ctx) (k : Nat) :
    s.allNames ctx k = captureNames k s.params.length := by
  induction s generalizing k with
  | done => rfl
  | literal text rest ih => exact ih h k
  | param p rest ih =>
    rw [allNames, (h p List.mem_cons_self).innerNames_eq,
      ih (fun q hq => h q (List.mem_cons_of_mem p hq))]
    exact (captureNames_append k 1 _).trans (congrArg (captureNames k) (Nat.add_comm 1 _))
  | segment inner rest ih1 ih2 =>
    rw [allNames, ih1 (fun p hp => h p (List.mem_append_left _ hp)),
      ih2 (fun p hp => h p (List.mem_append_right _ hp)), captureNames_append,
      ← List.length_append]
    rfl

/-- Ways of a schema lead forward. -/
theorem leads_ways (s : Schema) (ctx : CompileContext) (k : Nat) (P : Position) :
    Leads P (s.ways ctx k P) := by
  induction s generalizing k P with
  | done => exact leads_stay P
  | literal text rest ih => exact (Expr.leads_ways _ P).extend (ih k)
  | param p rest ih =>
    refine Leads.extend (fun w hw => ?_) (ih (k + 1))
    rcases Parameter.mem_ways_iff.mp hw with hw | ⟨-, rfl⟩
    · exact Expr.leads_ways _ P w hw
    · exact ⟨[], Position.Reads.refl P⟩
  | segment inner rest ih1 ih2 =>
    refine Leads.extend (fun w hw => ?_) (ih2 (k + inner.params.length))
    rcases List.mem_append.mp hw with hw | hw
    · exact ih1 k P w hw
    · exact leads_stay P w hw

/-- **The notes on a way of a schema** are about its captures. -/
theorem notes_ways (s : Schema) (ctx : CompileContext) (k : Nat) (P : Position) :
    Notes (· ∈ s.allNames ctx k) (s.ways ctx k P) := by
  induction s generalizing k P with
  | done => exact notes_stay P
  | literal text rest ih =>
    have hword : (Expr.word text.toList).isPlain = true := rfl
    have hnone : Notes (· ∈ rest.allNames ctx k) ((Expr.word text.toList).ways P) := by
      intro w hw n hn
      rw [Expr.trail_eq_nil hword hw] at hn
      cases hn
    exact hnone.extend (ih k)
  | param p rest ih =>
    refine Notes.extend (fun w hw n hn => ?_) fun Q w hw n hn => ?_
    · exact List.mem_append_left _ (Parameter.notes_ways p ctx k P w hw n hn)
    · exact List.mem_append_right _ (ih (k + 1) Q w hw n hn)
  | segment inner rest ih1 ih2 =>
    refine Notes.extend (fun w hw n hn => List.mem_append_left _ ?_) fun Q w hw n hn => ?_
    · rcases List.mem_append.mp hw with hw | hw
      · exact ih1 k P w hw n hn
      · exact notes_stay P w hw n hn
    · exact List.mem_append_right _ (ih2 (k + inner.params.length) Q w hw n hn)

/-- The captures of the parameters are among those of a schema. -/
theorem captureNames_subset_allNames (s : Schema) (ctx : CompileContext) (k : Nat) :
    captureNames k s.params.length ⊆ s.allNames ctx k := by
  induction s generalizing k with
  | done => exact fun _ hn => hn
  | literal text rest ih => exact ih k
  | param p rest ih =>
    have hsplit : captureNames k (param p rest).params.length =
        captureNames k 1 ++ captureNames (k + 1) rest.params.length :=
      (congrArg (captureNames k) (Nat.add_comm _ 1)).trans (captureNames_append k 1 _).symm
    rw [hsplit]
    refine List.append_subset.mpr ⟨fun n hn => ?_, fun n hn => ?_⟩
    · obtain rfl := List.mem_singleton.mp hn
      exact List.mem_append_left _ List.mem_cons_self
    · exact List.mem_append_right _ (ih (k + 1) hn)
  | segment inner rest ih1 ih2 =>
    have hsplit : captureNames k (segment inner rest).params.length =
        captureNames k inner.params.length ++
          captureNames (k + inner.params.length) rest.params.length := by
      rw [captureNames_append, ← List.length_append]
      rfl
    rw [hsplit]
    refine List.append_subset.mpr ⟨fun n hn => ?_, fun n hn => ?_⟩
    · exact List.mem_append_left _ (ih1 k hn)
    · exact List.mem_append_right _ (ih2 (k + inner.params.length) hn)

theorem mem_captureNames_iff {i k n : Nat} : captureName i ∈ captureNames k n ↔ k ≤ i ∧ i < k + n := by
  rw [captureNames, List.mem_map_of_injective fun _ _ => captureName_injective, List.mem_range'_1]

/-- With plain patterns, no way says anything about the parameters of others. -/
theorem trail_omits (h : ∀ p ∈ s.params, p.IsPlain ctx) {k i : Nat} {P : Position} {w : Way}
    (hw : w ∈ s.ways ctx k P) (hi : i < k ∨ k + s.params.length ≤ i) :
    w.trail.Omits (captureName i) := by
  intro n hn hname
  have hmem := notes_ways s ctx k P w hw n hn
  rw [allNames_eq h, hname, mem_captureNames_iff] at hmem
  omega

end Schema

/-! ### Whole paths -/

/-- The text of the expression that whole paths are matched with. -/
def CompiledSchema.whole (c : CompiledSchema) : String := "^" ++ c.fragment ++ "$"

/-- **The expression for whole paths** is read from its text, if all patterns are expressions by
themselves. It takes the first way that leads to the end of the path. -/
theorem Schema.whole_traces {ctx : CompileContext} {s : Schema}
    (h : ∀ p ∈ s.params, p.StandsAlone ctx) :
    ∃ t, Syntax.read? (s.compiled ctx).whole = some t ∧ t.names = s.allNames ctx 0 ∧
      ∀ path, t.expr.find? path =
        ((s.ways ctx 0 (.start path.toList)).find? Way.isWhole).map (·.trail) := by
  have hwhole : String.ofList (['^'] ++ (s.fragment ctx 0).toList ++ ['$']) =
      (s.compiled ctx).whole := by
    refine String.toList_injective ?_
    simp [CompiledSchema.whole, compiled, String.toList_append]
  rw [← hwhole]
  exact (fragment_traces h 0).whole

/-- **The match of a schema** is the first way that goes from the start of a path to its end. The
names of the captures are distinct, so that it compiles if it keeps the limits. -/
theorem Schema.whole_read? {ctx : CompileContext} {s : Schema}
    (h : ∀ p ∈ s.params, p.IsPlain ctx) : ∃ t, Syntax.read? (s.compiled ctx).whole = some t ∧
      Regex.compile? (s.compiled ctx).whole =
        (if t.depth ≤ Syntax.depthLimit ∧ t.expr.fits then
          some ⟨(s.compiled ctx).whole, t.expr⟩ else none) ∧
      ∀ path, t.expr.find? path =
        ((s.ways ctx 0 (.start path.toList)).find? Way.isWhole).map (·.trail) := by
  obtain ⟨t, ht, hnames, hfind⟩ := whole_traces fun p hp => (h p hp).standsAlone
  rw [allNames_eq h] at hnames
  have hnodup : t.names.Nodup := hnames ▸ nodup_captureNames 0 _
  refine ⟨t, ht, ?_, hfind⟩
  simp only [compile?_eq_ite ht, hnodup, true_and]

end UrlRouting

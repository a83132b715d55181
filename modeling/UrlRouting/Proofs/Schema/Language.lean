import Mathlib
import UrlRouting.Proofs.Schema.Depth

/-!
# The language of a schema

A schema says which paths it means without any expression: a literal means its text, a parameter
every text that its pattern matches as a whole, an optional part what it would mean, or nothing,
and a row means the texts of its parts one behind the other (`UrlRouting.Schema.language`). How a
path of the language falls into such texts, and which of them belong to the parameters, is a
relation of its own (`UrlRouting.Schema.Splits`).

The compiled schema means the same. Between anchors, its expression matches exactly the paths of the
language, and what it captures splits the path into the texts of the parameters
(`UrlRouting.CompiledSchema.match_iff_mem_language`). One direction is the soundness of each way
(`UrlRouting.Schema.splits_of_mem_ways`), the other says that there is a way for each split
(`UrlRouting.Schema.exists_way_of_splits`); both are inductions on the schema, with the number of
the parameters in front.
-/

namespace UrlRouting

open Regex Regex.Ways
open scoped Computability

/-! ### Languages and splits -/

/-- The texts that a parameter may have, if it has one: those that its pattern matches as a whole.
-/
def Parameter.texts (p : Parameter) (ctx : CompileContext) : Language Char :=
  wholeTexts (p.pattern ctx)

/-- **A pattern that reads alone**: it is an expression by itself, and whatever it reads anywhere, it
matches as a whole, too. A pattern with a condition on what stands around it may not. -/
def Pattern.ReadsAlone (pattern : String) : Prop :=
  ∃ s, Syntax.read? pattern = some s ∧
    ∀ P, ∀ w ∈ s.expr.ways P, ∀ x, P.Reads x w.stop → x ∈ wholeTexts pattern

theorem Pattern.readsAlone_of_isPlain {pattern : String} {s : Syntax}
    (h : Syntax.read? pattern = some s) (hplain : s.isPlain = true) : ReadsAlone pattern := by
  refine ⟨s, h, fun P w hw x hx => ?_⟩
  obtain ⟨y, hy, hreads⟩ := (Expr.spells_ways (Syntax.isPlain_expr hplain) P w.stop).mp ⟨w, hw, rfl⟩
  rw [wholeTexts_eq h hplain]
  exact hreads.unique hx ▸ hy

namespace Parameter

variable {p : Parameter} {ctx : CompileContext} {P : Position} {w : Way} {x : List Char}

/-- A parameter with a pattern that reads alone. -/
def ReadsAlone (p : Parameter) (ctx : CompileContext) : Prop := Pattern.ReadsAlone (p.pattern ctx)

theorem ReadsAlone.standsAlone (h : p.ReadsAlone ctx) : p.StandsAlone ctx := by
  obtain ⟨s, hread, -⟩ := h
  exact Option.isSome_iff_exists.mpr ⟨s, hread⟩

theorem ReadsAlone.mem_texts (h : p.ReadsAlone ctx) (hw : w ∈ (p.expr ctx).ways P)
    (hx : P.Reads x w.stop) : x ∈ p.texts ctx := by
  obtain ⟨s, hread, hall⟩ := h
  rw [expr, hread] at hw
  exact hall P w hw x hx

theorem IsPlain.readsAlone (h : p.IsPlain ctx) : p.ReadsAlone ctx := by
  obtain ⟨s, hread, hplain, -⟩ := h.exists_read?
  exact Pattern.readsAlone_of_isPlain hread hplain

end Parameter

namespace Schema

/-- **The language of a schema.** -/
def language (ctx : CompileContext) : Schema → Language Char
  | .done => 1
  | .literal text rest => {text.toList} * rest.language ctx
  | .param p rest =>
    (if p.optional then p.texts ctx + 1 else p.texts ctx) * rest.language ctx
  | .segment inner rest => (inner.language ctx + 1) * rest.language ctx

/-- **A path splits into the texts of the parameters of a schema**, given from left to right, and
what stands between them. A parameter that is left out has no text. -/
inductive Splits (ctx : CompileContext) : Schema → List Char → List (Option String) → Prop
  /-- No parts are left. -/
  | done : Splits ctx .done [] []
  /-- A literal is there. -/
  | literal {text : String} {rest : Schema} {y : List Char} {texts : List (Option String)}
      (more : Splits ctx rest y texts) : Splits ctx (.literal text rest) (text.toList ++ y) texts
  /-- A parameter is there. -/
  | param {p : Parameter} {rest : Schema} {x : String} {y : List Char}
      {texts : List (Option String)} (text : x.toList ∈ p.texts ctx)
      (more : Splits ctx rest y texts) :
      Splits ctx (.param p rest) (x.toList ++ y) (some x :: texts)
  /-- An optional parameter is left out. -/
  | noParam {p : Parameter} {rest : Schema} {y : List Char} {texts : List (Option String)}
      (optional : p.optional = true) (more : Splits ctx rest y texts) :
      Splits ctx (.param p rest) y (none :: texts)
  /-- A segment is there. -/
  | segment {inner rest : Schema} {x y : List Char} {texts texts' : List (Option String)}
      (inside : Splits ctx inner x texts) (more : Splits ctx rest y texts') :
      Splits ctx (.segment inner rest) (x ++ y) (texts ++ texts')
  /-- A segment is left out. -/
  | noSegment {inner rest : Schema} {y : List Char} {texts : List (Option String)}
      (more : Splits ctx rest y texts) :
      Splits ctx (.segment inner rest) y (List.replicate inner.params.length none ++ texts)

variable {ctx : CompileContext} {s : Schema} {x : List Char} {texts : List (Option String)}

/-- What a parameter may read is one of its texts, or nothing if it may be left out. -/
theorem mem_paramLanguage_iff {p : Parameter} {z : List Char} :
    z ∈ (if p.optional then p.texts ctx + 1 else p.texts ctx) ↔
      z ∈ p.texts ctx ∨ p.optional = true ∧ z = [] := by
  split
  · rename_i hopt
    rw [Language.mem_add, Language.mem_one, hopt]
    exact or_congr_right (and_iff_right rfl).symm
  · rename_i hopt
    exact (or_iff_left fun h => hopt h.1).symm

/-- What a segment may read is what its inside may read, or nothing. -/
theorem mem_segmentLanguage_iff {inner : Schema} {z : List Char} :
    z ∈ inner.language ctx + 1 ↔ z ∈ inner.language ctx ∨ z = [] := by
  rw [Language.mem_add, Language.mem_one]

theorem exists_splits_of_mem_language (hx : x ∈ s.language ctx) :
    ∃ texts, s.Splits ctx x texts := by
  induction s generalizing x with
  | done =>
    obtain rfl := (Language.mem_one x).mp hx
    exact ⟨[], .done⟩
  | literal text rest ih =>
    obtain ⟨_, rfl, y, hy, rfl⟩ := Language.mem_mul.mp hx
    obtain ⟨texts, hrest⟩ := ih hy
    exact ⟨texts, .literal hrest⟩
  | param p rest ih =>
    obtain ⟨z, hz, y, hy, rfl⟩ := Language.mem_mul.mp hx
    obtain ⟨texts, hrest⟩ := ih hy
    rcases mem_paramLanguage_iff.mp hz with hz | ⟨hopt, rfl⟩
    · obtain ⟨z, rfl⟩ : ∃ t : String, t.toList = z := ⟨String.ofList z, String.toList_ofList⟩
      exact ⟨_, .param hz hrest⟩
    · exact ⟨_, .noParam hopt hrest⟩
  | segment inner rest ih1 ih2 =>
    obtain ⟨z, hz, y, hy, rfl⟩ := Language.mem_mul.mp hx
    obtain ⟨texts, hrest⟩ := ih2 hy
    rcases mem_segmentLanguage_iff.mp hz with hz | rfl
    · obtain ⟨texts', hinner⟩ := ih1 hz
      exact ⟨_, .segment hinner hrest⟩
    · exact ⟨_, .noSegment hrest⟩

theorem Splits.mem_language (h : s.Splits ctx x texts) : x ∈ s.language ctx := by
  induction h with
  | done => exact Language.nil_mem_one
  | literal _ ih => exact Language.append_mem_mul rfl ih
  | param htext _ ih =>
    exact Language.append_mem_mul (mem_paramLanguage_iff.mpr (Or.inl htext)) ih
  | noParam hopt _ ih =>
    exact Language.append_mem_mul (mem_paramLanguage_iff.mpr (Or.inr ⟨hopt, rfl⟩)) ih
  | segment _ _ ih1 ih2 =>
    exact Language.append_mem_mul (mem_segmentLanguage_iff.mpr (Or.inl ih1)) ih2
  | noSegment _ ih =>
    exact Language.append_mem_mul (mem_segmentLanguage_iff.mpr (Or.inr rfl)) ih

/-- **The paths of the language are those that can be split.** -/
theorem mem_language_iff : x ∈ s.language ctx ↔ ∃ texts, s.Splits ctx x texts :=
  ⟨exists_splits_of_mem_language, fun ⟨_, h⟩ => h.mem_language⟩

/-- **Every text of a split is one that the pattern of its parameter matches.** -/
theorem Splits.texts_mem (h : s.Splits ctx x texts) :
    List.Forall₂ (fun p t => ∀ z ∈ t, String.toList z ∈ p.texts ctx) s.params texts := by
  have hnone (p : Parameter) : ∀ z ∈ (none : Option String), String.toList z ∈ p.texts ctx :=
    fun _ hz => nomatch hz
  induction h with
  | done => exact .nil
  | literal _ ih => exact ih
  | param htext _ ih => exact .cons (fun z hz => Option.mem_some.mp hz ▸ htext) ih
  | noParam _ _ ih => exact .cons (hnone _) ih
  | segment _ _ ih1 ih2 => exact List.rel_append ih1 ih2
  | @noSegment inner rest y texts _ ih =>
    refine List.rel_append ?_ ih
    induction inner.params with
    | nil => exact .nil
    | cons p ps ih => exact .cons (hnone p) ih

end Schema

/-! ### Captures -/

/-- The texts that a trail gives so many parameters, behind so many others. -/
def Regex.Trail.texts (t : Trail) (k n : Nat) : List (Option String) :=
  (List.range' k n).map fun i => t.text? (captureName i)

namespace Schema

section Captures

variable {t u : Trail} {k m n : Nat}

theorem texts_append (t : Trail) (k m n : Nat) :
    t.texts k (m + n) = t.texts k m ++ t.texts (k + m) n := by
  rw [Trail.texts, Trail.texts, Trail.texts, ← List.map_append, List.range'_append_1]

theorem texts_congr (h : ∀ i, k ≤ i → i < k + n →
    t.text? (captureName i) = u.text? (captureName i)) : t.texts k n = u.texts k n :=
  List.map_congr_left fun i hi => h i (List.mem_range'_1.mp hi).1 (List.mem_range'_1.mp hi).2

/-- Two trails about different parameters give the texts of both. -/
theorem texts_trails (ht : ∀ i, k + m ≤ i → i < k + m + n → t.Omits (captureName i))
    (hu : ∀ i, k ≤ i → i < k + m → u.Omits (captureName i)) :
    Trail.texts (t ++ u) k (m + n) = t.texts k m ++ u.texts (k + m) n := by
  rw [texts_append]
  congr 1
  · exact texts_congr fun i hi hi' => Trail.text?_append_left (hu i hi hi')
  · exact texts_congr fun i hi hi' => Trail.text?_append_right (ht i hi hi')

theorem texts_nil (k n : Nat) : Trail.texts [] k n = List.replicate n none := by
  refine List.map_eq_replicate_iff.mpr ?_ |>.trans (by rw [List.length_range'])
  exact fun _ _ => rfl

/-- What a capture takes notes of inside does not change its text. -/
theorem texts_around {p : Parameter} {ctx : CompileContext} {P : Position} {w : Way}
    (hk : captureName k ∉ p.innerNames ctx) (hw : w ∈ (p.expr ctx).ways P) {x : List Char}
    (hreads : P.Reads x w.stop) :
    Trail.texts (.opened (captureName k) P.rest :: w.trail ++ [.closed (captureName k) w.stop.rest])
      k 1 = [some (String.ofList x)] := by
  have homits : w.trail.Omits (captureName k) :=
    fun n hn hname => hk (hname ▸ Parameter.notes_expr p ctx P w hw n hn)
  have htext := Trail.text?_capture homits x w.stop.rest
  rw [← hreads.1] at htext
  exact congrArg (fun t => [t]) htext

end Captures

/-! ### Names of their own -/

section Owns

variable {names more : List String} {k m n i : Nat} {w u : Way} {ws us : List Way}

/-- **Ways that take notes under names of their own**, among them those of so many parameters. -/
structure Owns (names : List String) (k n : Nat) (ws : List Way) : Prop where
  /-- The notes. -/
  notes : Notes (· ∈ names) ws
  /-- The parameters. -/
  subset : captureNames k n ⊆ names

theorem owns_ways (s : Schema) (ctx : CompileContext) (k : Nat) (P : Position) :
    Owns (s.allNames ctx k) k s.params.length (s.ways ctx k P) :=
  ⟨notes_ways s ctx k P, captureNames_subset_allNames s ctx k⟩

theorem owns_word (text : List Char) (k : Nat) (P : Position) :
    Owns [] k 0 ((Expr.word text).ways P) := by
  refine ⟨fun w hw n hn => ?_, List.nil_subset _⟩
  have hplain : (Expr.word text).isPlain = true := rfl
  rw [Expr.trail_eq_nil hplain hw] at hn
  cases hn

theorem owns_parameter (p : Parameter) (ctx : CompileContext) (k : Nat) (P : Position) :
    Owns (captureName k :: p.innerNames ctx) k 1 (p.ways ctx k P) :=
  ⟨Parameter.notes_ways p ctx k P, fun _ hn => List.mem_singleton.mp hn ▸ List.mem_cons_self⟩

theorem owns_segment (inner : Schema) (ctx : CompileContext) (k : Nat) (P : Position) :
    Owns (inner.allNames ctx k) k inner.params.length (inner.ways ctx k P ++ stay P) := by
  refine ⟨fun w hw => ?_, captureNames_subset_allNames inner ctx k⟩
  rcases List.mem_append.mp hw with hw | hw
  · exact notes_ways inner ctx k P w hw
  · exact notes_stay P w hw

/-- What owns other names says nothing about a parameter. -/
theorem Owns.omits (h : Owns names k n ws) (hw : w ∈ ws) (hi : captureName i ∉ names) :
    w.trail.Omits (captureName i) :=
  fun note hnote hname => hi (hname ▸ h.notes w hw note hnote)

theorem Owns.mem_names (h : Owns names k n ws) (hk : k ≤ i) (hn : i < k + n) :
    captureName i ∈ names :=
  h.subset (mem_captureNames_iff.mpr ⟨hk, hn⟩)

/-- **Names that are all different are kept apart**: two ways behind each other say of the
parameters what they say by themselves. -/
theorem Owns.texts_behind (hws : Owns names k m ws) (hus : Owns more (k + m) n us)
    (hnodup : (names ++ more).Nodup) (hw : w ∈ ws) (hu : u ∈ us) :
    Trail.texts (w.trail ++ u.trail) k (m + n) =
      w.trail.texts k m ++ u.trail.texts (k + m) n := by
  obtain ⟨-, -, hdisjoint⟩ := List.nodup_append.mp hnodup
  refine texts_trails (fun i hi hi' => hws.omits hw fun hmem => ?_) fun i hi hi' =>
    hus.omits hu fun hmem => ?_
  · exact hdisjoint _ hmem _ (hus.mem_names hi hi') rfl
  · exact hdisjoint _ (hws.mem_names hi hi') _ hmem rfl

end Owns

/-! ### The ways split the path -/

section Ways

variable {ctx : CompileContext} {s : Schema} {k : Nat} {P Q : Position} {w : Way}

/-- The two trails of a way through a part with so many parameters and one through the rest. -/
theorem texts_behind {rest : Schema} {v u : Way} {m : Nat}
    (h : ∀ p ∈ rest.params, p.IsPlain ctx)
    (hv : ∀ i, k + m ≤ i → v.trail.Omits (captureName i)) (hu : u ∈ rest.ways ctx (k + m) P) :
    (behind v.trail u).trail.texts k (m + rest.params.length) =
      v.trail.texts k m ++ u.trail.texts (k + m) rest.params.length :=
  texts_trails (fun i hi _ => hv i hi) fun _ _ hi => trail_omits h hu (Or.inl hi)

/-- The capture of a parameter gives its text. -/
theorem texts_capture {x : List Char} (h : P.Reads x Q) :
    Trail.texts [.opened (captureName k) P.rest, .closed (captureName k) Q.rest] k 1 =
      [some (String.ofList x)] := by
  have htext := Trail.text?_capture (Trail.omits_nil (captureName k)) x Q.rest
  rw [← h.1] at htext
  exact congrArg (fun t => [t]) htext

theorem texts_eq {p : Parameter} (h : p.IsPlain ctx) : p.texts ctx = (p.expr ctx).language := by
  obtain ⟨t, hread, hplain, hexpr⟩ := h.exists_read?
  rw [hexpr]
  exact wholeTexts_eq hread hplain

/-- A way of a literal. -/
theorem mem_word_iff {text : List Char} {w : Way} :
    w ∈ (Expr.word text).ways P ↔ ∃ Q, P.Reads text Q ∧ w = ⟨[], Q⟩ := by
  constructor
  · intro hw
    have hword : (Expr.word text).isPlain = true := rfl
    obtain ⟨_, rfl, hreads⟩ := (Expr.spells_word text P w.stop).mp ⟨w, hw, rfl⟩
    refine ⟨w.stop, hreads, ?_⟩
    rw [← Expr.trail_eq_nil hword hw]
  · rintro ⟨Q, hreads, rfl⟩
    obtain ⟨w, hw, rfl⟩ := (Expr.spells_word text P Q).mpr ⟨text, rfl, hreads⟩
    have hword : (Expr.word text).isPlain = true := rfl
    rw [← Expr.trail_eq_nil hword hw]
    exact hw

theorem length_params_param (p : Parameter) (rest : Schema) :
    (param p rest).params.length = 1 + rest.params.length :=
  Nat.add_comm _ 1

theorem length_params_segment (inner rest : Schema) :
    (segment inner rest).params.length = inner.params.length + rest.params.length :=
  List.length_append

/-- **A way of a parameter captures one of its texts**, or leaves it out. -/
theorem exists_text_of_mem_ways {p : Parameter} (hp : p.ReadsAlone ctx)
    (hk : captureName k ∉ p.innerNames ctx) (hw : w ∈ p.ways ctx k P) :
    (∃ x : String, P.Reads x.toList w.stop ∧ x.toList ∈ p.texts ctx ∧
      w.trail.texts k 1 = [some x]) ∨ p.optional = true ∧ w = ⟨[], P⟩ := by
  rcases Parameter.mem_ways_iff.mp hw with hw | ⟨hopt, rfl⟩
  · obtain ⟨o, ho, rfl⟩ := List.mem_map.mp hw
    obtain ⟨x, hreads⟩ := Expr.leads_ways _ P o ho
    refine Or.inl ⟨String.ofList x, ?_, ?_, texts_around hk ho hreads⟩
    · rwa [String.toList_ofList]
    · rw [String.toList_ofList]
      exact hp.mem_texts ho hreads
  · exact Or.inr ⟨hopt, rfl⟩

/-- **A way of a schema splits what it reads** into the texts that it captures, if its patterns read
alone and no name is given twice. -/
theorem splits_of_readsAlone (h : ∀ p ∈ s.params, p.ReadsAlone ctx)
    (hnodup : (s.allNames ctx k).Nodup) (hw : w ∈ s.ways ctx k P) :
    ∃ x, P.Reads x w.stop ∧ s.Splits ctx x (w.trail.texts k s.params.length) := by
  induction s generalizing k P w with
  | done =>
    obtain rfl := List.mem_singleton.mp hw
    exact ⟨[], Position.Reads.refl P, .done⟩
  | literal text rest ih =>
    obtain ⟨v, hv, u, hu, rfl⟩ := mem_extend_iff.mp hw
    obtain ⟨Q, hQ, rfl⟩ := mem_word_iff.mp hv
    obtain ⟨y, hy, hsplits⟩ := ih h hnodup hu
    exact ⟨text.toList ++ y, hQ.trans hy, .literal hsplits⟩
  -- the names of the captures are apart, so that the two trails can be told apart in one
  | param p rest ih =>
    obtain ⟨v, hv, u, hu, rfl⟩ := mem_extend_iff.mp hw
    obtain ⟨hp, hrest⟩ := List.forall_mem_cons.mp h
    obtain ⟨hnames, hmore, -⟩ := List.nodup_append.mp hnodup
    obtain ⟨y, hy, hsplits⟩ := ih hrest hmore hu
    have htexts := (owns_parameter p ctx k P).texts_behind (owns_ways rest ctx (k + 1) v.stop)
      hnodup hv hu
    rw [length_params_param]
    change ∃ x, _ ∧ (param p rest).Splits ctx x (Trail.texts (v.trail ++ u.trail) _ _)
    rw [htexts]
    rcases exists_text_of_mem_ways hp (List.nodup_cons.mp hnames).1 hv with
      ⟨x, hx, htext, hcapture⟩ | ⟨hopt, rfl⟩
    · rw [hcapture]
      exact ⟨x.toList ++ y, hx.trans hy, .param htext hsplits⟩
    · exact ⟨y, hy, .noParam hopt hsplits⟩
  | segment inner rest ih1 ih2 =>
    obtain ⟨v, hv, u, hu, rfl⟩ := mem_extend_iff.mp hw
    obtain ⟨hinner, hrest⟩ := List.forall_mem_append.mp h
    obtain ⟨hnames, hmore, -⟩ := List.nodup_append.mp hnodup
    obtain ⟨y, hy, hsplits⟩ := ih2 hrest hmore hu
    have htexts := (owns_segment inner ctx k P).texts_behind (owns_ways rest ctx _ v.stop)
      hnodup hv hu
    rw [length_params_segment]
    change ∃ x, _ ∧ (segment inner rest).Splits ctx x (Trail.texts (v.trail ++ u.trail) _ _)
    rw [htexts]
    rcases List.mem_append.mp hv with hv | hv
    · obtain ⟨x, hx, hsplits'⟩ := ih1 hinner hnames hv
      exact ⟨x ++ y, hx.trans hy, .segment hsplits' hsplits⟩
    · obtain rfl := List.mem_singleton.mp hv
      rw [texts_nil]
      exact ⟨y, hy, .noSegment hsplits⟩

/-- A way of a schema with plain patterns splits what it reads into the texts that it captures. -/
theorem splits_of_mem_ways (h : ∀ p ∈ s.params, p.IsPlain ctx) (hw : w ∈ s.ways ctx k P) :
    ∃ x, P.Reads x w.stop ∧ s.Splits ctx x (w.trail.texts k s.params.length) :=
  splits_of_readsAlone (fun p hp => (h p hp).readsAlone)
    (allNames_eq h k ▸ nodup_captureNames k _) hw

/-- **A way of a part and one of the rest behind it are a way of both**, which captures what they
capture. -/
theorem exists_way_behind {rest : Schema} {ws : List Way} {v : Way} {m : Nat}
    {texts : List (Option String)} (h : ∀ p ∈ rest.params, p.IsPlain ctx) (hv : v ∈ ws)
    (homits : ∀ i, k + m ≤ i → v.trail.Omits (captureName i))
    (hmore : ∃ u ∈ rest.ways ctx (k + m) v.stop, u.stop = Q ∧
      u.trail.texts (k + m) rest.params.length = texts) :
    ∃ w ∈ extend ws (rest.ways ctx (k + m)), w.stop = Q ∧
      w.trail.texts k (m + rest.params.length) = v.trail.texts k m ++ texts := by
  obtain ⟨u, hu, rfl, rfl⟩ := hmore
  exact ⟨_, mem_extend_iff.mpr ⟨v, hv, u, hu, rfl⟩, rfl, texts_behind h homits hu⟩

/-- **Every split of a text is captured** by some way that reads the text. -/
theorem exists_way_of_splits (h : ∀ p ∈ s.params, p.IsPlain ctx) {x : List Char}
    {texts : List (Option String)} (hs : s.Splits ctx x texts) (hP : P.Reads x Q) :
    ∃ w ∈ s.ways ctx k P, w.stop = Q ∧ w.trail.texts k s.params.length = texts := by
  induction hs generalizing k P Q with
  | done =>
    obtain rfl := Position.reads_nil_iff.mp hP
    exact ⟨_, List.mem_singleton_self _, rfl, rfl⟩
  | literal _ ih =>
    obtain ⟨R, hR, hQ⟩ := Position.reads_append_iff.mp hP
    obtain ⟨u, hu, rfl, htexts⟩ := ih h hQ
    exact ⟨_, mem_extend_iff.mpr ⟨_, mem_word_iff.mpr ⟨R, hR, rfl⟩, u, hu, rfl⟩, rfl, htexts⟩
  | @param p rest x y texts htext _ ih =>
    obtain ⟨hp, hrest⟩ := List.forall_mem_cons.mp h
    obtain ⟨R, hR, hQ⟩ := Position.reads_append_iff.mp hP
    have hexpr := (Expr.spells_ways hp.isPlain_expr P R).mpr ⟨_, texts_eq hp ▸ htext, hR⟩
    have hv : _ ∈ p.ways ctx k P :=
      Parameter.mem_ways_iff.mpr (Or.inl (hp.mem_capture_iff.mpr ⟨R, hexpr, rfl⟩))
    have hway := exists_way_behind (k := k) (m := 1) hrest hv
      (fun i hi => hp.trail_omits hv (by omega)) (ih hrest hQ)
    rwa [texts_capture hR, String.ofList_toList, ← length_params_param p rest] at hway
  | @noParam p rest y texts hopt _ ih =>
    have hrest := (List.forall_mem_cons.mp h).2
    have hv : ⟨[], P⟩ ∈ p.ways ctx k P := Parameter.mem_ways_iff.mpr (Or.inr ⟨hopt, rfl⟩)
    have hway := exists_way_behind (k := k) (m := 1) hrest hv (fun _ _ => Trail.omits_nil _)
      (ih hrest hP)
    rwa [texts_nil, ← length_params_param p rest] at hway
  | @segment inner rest x y texts texts' _ _ ih1 ih2 =>
    obtain ⟨hinner, hrest⟩ := List.forall_mem_append.mp h
    obtain ⟨R, hR, hQ⟩ := Position.reads_append_iff.mp hP
    obtain ⟨v, hv, rfl, rfl⟩ := ih1 (k := k) hinner hR
    rw [length_params_segment]
    exact exists_way_behind hrest (List.mem_append_left _ hv)
      (fun i hi => trail_omits hinner hv (Or.inr hi)) (ih2 hrest hQ)
  | @noSegment inner rest y texts _ ih =>
    have hrest := (List.forall_mem_append.mp h).2
    have hv : ⟨[], P⟩ ∈ inner.ways ctx k P ++ stay P :=
      List.mem_append_right _ (List.mem_singleton_self _)
    have hway := exists_way_behind (k := k) (m := inner.params.length) hrest hv
      (fun _ _ => Trail.omits_nil _) (ih hrest hP)
    rwa [texts_nil, ← length_params_segment inner rest] at hway

end Ways

end Schema

/-! ### The compiled schema -/

/-- **A compiled schema matches the language of its schema.** Between anchors, its text is an
expression, which compiles if it keeps the limits on its depth and its size. It matches the paths of
the language and no others; and what it captures splits the path, so that every text is one that the
pattern of its parameter matches as a whole. -/
theorem CompiledSchema.match_iff_mem_language {text : String} {ctx : CompileContext} {s : Schema}
    {c : CompiledSchema} (hs : Schema.ofText text = .ok s) (hc : ofText text ctx = .ok c)
    (hplain : ∀ spec ∈ c.params, ∃ t, Syntax.ofText? spec.pattern = some t ∧ t.isPlain = true) :
    ∃ t, Syntax.read? c.whole = some t ∧
      Regex.compile? c.whole =
        (if t.depth ≤ Syntax.depthLimit ∧ t.expr.fits then some ⟨c.whole, t.expr⟩ else none) ∧
      ∀ path, (Regex.isMatch ⟨c.whole, t.expr⟩ path = true ↔ path.toList ∈ s.language ctx) ∧
        ∀ trail ∈ Regex.captures? ⟨c.whole, t.expr⟩ path,
          s.Splits ctx path.toList (trail.texts 0 c.params.length) ∧
          List.Forall₂ (fun spec text => ∀ x ∈ text, String.toList x ∈ wholeTexts spec.pattern)
            c.params (trail.texts 0 c.params.length) := by
  obtain ⟨s', hs', -, rfl⟩ := ofText_eq_ok_iff.mp hc
  obtain rfl : s = s' := Except.ok.inj (hs.symm.trans hs')
  have hlength : (s.compiled ctx).params.length = s.params.length := List.length_map ..
  have hp : ∀ p ∈ s.params, p.IsPlain ctx :=
    fun p hp => hplain (p.spec ctx) (List.mem_map_of_mem hp)
  obtain ⟨t, hread, hcompile, hfind⟩ := Schema.whole_read? hp
  refine ⟨t, hread, hcompile, fun path => ⟨?_, fun trail htrail => ?_⟩⟩
  · rw [Regex.isMatch, hfind, Option.isSome_map, List.find?_isSome, Schema.mem_language_iff]
    constructor
    · rintro ⟨w, hw, hwhole⟩
      obtain ⟨x, hx, hsplits⟩ := Schema.splits_of_mem_ways hp hw
      exact ⟨_, (hx.eq_of_isWhole hwhole).symm ▸ hsplits⟩
    · rintro ⟨texts, hsplits⟩
      obtain ⟨w, hw, hstop, -⟩ := Schema.exists_way_of_splits (k := 0) hp hsplits
        (Position.reads_all path.toList)
      exact ⟨w, hw, by rw [Way.isWhole, hstop]; rfl⟩
  · rw [Regex.captures?, hfind] at htrail
    obtain ⟨w, hw, rfl⟩ := Option.map_eq_some_iff.mp htrail
    obtain ⟨x, hx, hsplits⟩ := Schema.splits_of_mem_ways hp (List.mem_of_find?_eq_some hw)
    rw [← hx.eq_of_isWhole (List.find?_some hw), ← hlength] at hsplits
    exact ⟨hsplits, List.forall₂_map_left_iff.mpr hsplits.texts_mem⟩

/-- A schema with a type, an optional part and the default pattern is matched by its language. -/
theorem CompiledSchema.match_user_pages : ∃ s c t,
    Schema.ofText "/u/\x7bid#int\x7d[/\x7bpage\x7d]" = .ok s ∧
      ofText "/u/\x7bid#int\x7d[/\x7bpage\x7d]" {} = .ok c ∧
      Syntax.read? "^/u/(?P<p0>-?[0-9]+)(?:/(?P<p1>[^/]+))?$" = some t ∧
      ∀ path, Regex.isMatch ⟨c.whole, t.expr⟩ path = true ↔ path.toList ∈ s.language {} := by
  have hs : Schema.ofText "/u/\x7bid#int\x7d[/\x7bpage\x7d]" = .ok (.literal "/u/" (.param
      ⟨"id", none, some "int", none, false⟩ (.segment (.literal "/" (.param
        ⟨"page", none, none, none, false⟩ .done)) .done))) := rfl
  have hint : (Validator.ofSource? "-?[0-9]+").isSome = true := by cbv
  have hid : Parameter.Resolves ⟨"id", none, some "int", none, false⟩ {} :=
    ⟨fun name hname => Option.mem_some.mp hname ▸ rfl,
      fun source hsource => Option.mem_some.mp hsource ▸ hint⟩
  have hpage : Parameter.Resolves ⟨"page", none, none, none, false⟩ {} :=
    ⟨fun name hname => absurd hname (Option.not_mem_none name),
      fun source hsource => absurd hsource (Option.not_mem_none source)⟩
  have hresolve : Parameter.AllResolve
      [⟨"id", none, some "int", none, false⟩, ⟨"page", none, none, none, false⟩] {} [] :=
    ⟨List.forall_mem_cons.mpr ⟨hid, List.forall_mem_singleton.mpr hpage⟩, by decide, by decide⟩
  have hc := ofText_eq_ok_iff.mpr ⟨_, hs, hresolve, rfl⟩
  obtain ⟨t, ht, -, hmatch⟩ := match_iff_mem_language hs hc
    (List.forall_mem_cons.mpr ⟨⟨_, rfl, rfl⟩, List.forall_mem_singleton.mpr ⟨_, rfl, rfl⟩⟩)
  exact ⟨_, _, t, hs, hc, ht, fun path => (hmatch path).1⟩

/-- A letter in so many segments, one inside of the other. -/
def Schema.inSegments : Nat → Schema
  | 0 => .literal "a" .done
  | n + 1 => .segment (inSegments n) .done

theorem Schema.nesting_inSegments (n : Nat) : (inSegments n).nesting = n := by
  induction n with
  | zero => rfl
  | succ n ih => rw [inSegments, nesting, nesting, ih, Nat.max_eq_left (Nat.zero_le _)]

theorem Schema.params_inSegments (n : Nat) : (inSegments n).params = [] := by
  induction n with
  | zero => rfl
  | succ n ih => rw [inSegments, params, params, ih, List.append_nil]

/-- The letter is in the language, whatever stands around it. -/
theorem Schema.splits_inSegments (n : Nat) : (inSegments n).Splits {} ['a'] [] := by
  induction n with
  | zero => exact Splits.literal .done
  | succ n ih => exact Splits.segment ih .done

/-- The limits are met: a schema of 126 segments inside of each other is compiled, and its language
has a path, but there is no expression to match it with. -/
theorem CompiledSchema.deep_schema_has_no_expression : ∃ s c,
    Schema.ofText (String.ofList (List.replicate 126 '[' ++ 'a' :: List.replicate 126 ']')) = .ok s ∧
      ofText (String.ofList (List.replicate 126 '[' ++ 'a' :: List.replicate 126 ']')) {} = .ok c ∧
      c.params = [] ∧ ['a'] ∈ s.language {} ∧ Regex.compile? c.whole = none := by
  have hread : Schema.Reading.start.readAll
      (List.replicate 126 '[' ++ 'a' :: List.replicate 126 ']') = .ok (Schema.inSegments 126) := by
    decide +kernel
  have hs : Schema.ofText (String.ofList (List.replicate 126 '[' ++ 'a' :: List.replicate 126 ']')) =
      .ok (Schema.inSegments 126) := by
    rw [Schema.ofText, String.toList_ofList, hread]
  have hnone := Schema.params_inSegments 126
  have hresolve : Parameter.AllResolve (Schema.inSegments 126).params {} [] :=
    hnone ▸ Parameter.allResolve_nil _ _
  refine ⟨_, _, hs, ofText_eq_ok_iff.mpr ⟨_, hs, hresolve, rfl⟩, ?_, ?_, ?_⟩
  · rw [Schema.compiled, Schema.specs, hnone, List.map_nil]
  · exact Schema.mem_language_iff.mpr ⟨[], Schema.splits_inSegments 126⟩
  · refine Schema.compile?_of_nesting (fun p hp => ?_) ?_
    · rw [hnone] at hp
      cases hp
    · rw [Schema.nesting_inSegments]
      decide

end UrlRouting

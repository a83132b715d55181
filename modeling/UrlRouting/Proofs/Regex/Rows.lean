import UrlRouting.Proofs.Regex.Language

/-!
# The ways of a tree of syntax

An expression is simplified while it is built from a tree. Of a row it is shown here that nothing is
lost on the way: parts of parts are moved up and characters side by side become words, and the ways
stay what they are, in their order and with their notes (`UrlRouting.Regex.Expr.ways_row`). So the
ways of a tree whose items are groups, characters and conditions are those of its items, one behind
the other (`UrlRouting.Regex.Syntax.ways_ofItems`), whatever stands in the groups.

Being plain survives every simplification, that of alternatives included
(`UrlRouting.Regex.Syntax.isPlain_expr`).
-/

namespace UrlRouting

namespace Regex

open Ways

/-! ### Ways one behind the other -/

section Extend

variable {ws : List Way} {next further : Position → List Way} {P : Position}

theorem behind_behind (s t : Trail) (w : Way) : behind s (behind t w) = behind (s ++ t) w := by
  rw [behind, behind, behind, List.append_assoc]

theorem extend_map_behind (front : Trail) :
    extend (ws.map (behind front)) next = (extend ws next).map (behind front) := by
  unfold extend
  rw [List.flatMap_map, List.map_flatMap]
  refine congrArg (ws.flatMap ·) (funext fun w => ?_)
  rw [List.map_map]
  exact List.map_congr_left fun u _ => (behind_behind front w.trail u).symm

theorem extend_append {vs : List Way} :
    extend (ws ++ vs) next = extend ws next ++ extend vs next :=
  List.flatMap_append

theorem extend_extend :
    extend (extend ws next) further = extend ws fun Q => extend (next Q) further := by
  induction ws with
  | nil => rfl
  | cons w ws ih =>
    change extend ((next w.stop).map (behind w.trail) ++ extend ws next) further =
      (extend (next w.stop) further).map (behind w.trail) ++ _
    rw [extend_append, ih, extend_map_behind]
    rfl

theorem extend_stay : extend ws stay = ws := by
  induction ws with
  | nil => rfl
  | cons w ws ih =>
    change [behind w.trail ⟨[], w.stop⟩] ++ extend ws stay = _
    rw [ih, behind, List.append_nil]
    rfl

theorem stay_extend : extend (stay P) next = next P := by
  change (next P).map (behind []) ++ [] = _
  rw [List.append_nil]
  exact List.map_id' (next P)

end Extend

namespace Expr

/-! ### Rows -/

/-- The ways of expressions one behind the other. -/
def rowWays : List Expr → Position → List Way
  | [], P => stay P
  | e :: es, P => extend (e.ways P) (rowWays es)

theorem rowWays_append (es fs : List Expr) (P : Position) :
    rowWays (es ++ fs) P = extend (rowWays es P) (rowWays fs) := by
  induction es generalizing P with
  | nil => exact stay_extend.symm
  | cons e es ih =>
    change extend (e.ways P) (rowWays (es ++ fs)) = extend (extend (e.ways P) _) _
    rw [extend_extend, funext ih]

theorem rowWays_singleton (e : Expr) : rowWays [e] = e.ways :=
  funext fun _ => extend_stay

theorem ways_word_append (text more : List Char) (P : Position) :
    (word (text ++ more)).ways P = extend ((word text).ways P) (word more).ways := by
  obtain ⟨b, rest⟩ := P
  simp only [ways]
  by_cases h : text.isPrefixOf rest = true
  · obtain ⟨y, rfl⟩ := List.isPrefixOf_iff_prefix.mp h
    rw [if_pos h, stay_extend]
    simp only [Position.skip, List.drop_left, List.isPrefixOf_iff_prefix,
      List.prefix_append_right_inj]
    refine if_congr Iff.rfl (congrArg stay ?_) rfl
    rw [List.length_append, List.drop_append, List.getLast?_append]
    cases more.getLast? <;> simp
  · have hno : ¬(text ++ more).isPrefixOf rest = true := by
      rw [List.isPrefixOf_iff_prefix] at h ⊢
      exact fun hc => h ((List.prefix_append text more).trans hc)
    rw [if_neg h, if_neg hno]
    rfl

theorem ways_before (e behind : Expr) (P : Position) :
    (before e behind).ways P = extend (e.ways P) behind.ways := by
  unfold before
  split
  · exact extend_stay.symm
  · exact ways_word_append _ _ P
  · rename_i text more behind
    change extend ((word (text ++ more)).ways P) _ = _
    rw [ways_word_append, extend_extend]
    rfl
  · rfl

theorem ways_foldr_before (es : List Expr) (P : Position) :
    (es.foldr before .empty).ways P = rowWays es P := by
  induction es generalizing P with
  | nil => rfl
  | cons e es ih =>
    rw [List.foldr_cons, ways_before, funext ih]
    rfl

theorem rowWays_items (e : Expr) (P : Position) : rowWays e.items P = e.ways P := by
  induction e generalizing P with
  | empty => rfl
  | seq first second _ ih =>
    change extend (first.ways P) (rowWays second.items) = _
    rw [funext ih]
    rfl
  | _ => exact congrFun (rowWays_singleton _) P

/-- **A row has the ways of its parts**, one behind the other. -/
theorem ways_row (es : List Expr) (P : Position) : (row es).ways P = rowWays es P := by
  rw [row, ways_foldr_before]
  induction es generalizing P with
  | nil => rfl
  | cons e es ih =>
    rw [List.flatMap_cons, rowWays_append, rowWays_items, funext ih]
    rfl

/-- What may be there once or not at all: going through it is preferred. -/
theorem ways_once (e : Expr) (P : Position) :
    (between true 0 1 e).ways P = e.ways P ++ stay P := by
  change extend (stay P) (upTo true e.ways 1) = _
  rw [stay_extend]
  change extend (e.ways P) stay ++ stay P = _
  rw [extend_stay]

theorem ways_repeated_optional (e : Expr) (P : Position) :
    (repeated true e ⟨0, some 1⟩).ways P = e.ways P ++ stay P := by
  have hbounds : repeated true e ⟨0, some 1⟩ = .between true 0 1 e := by
    unfold repeated
    cases e.isBlank <;> rfl
  rw [hbounds, ways_once]

/-! ### Notes -/

end Expr

/-- The name of the capture that a note is about. -/
def Note.name : Note → String
  | .opened name _ => name
  | .closed name _ => name

/-- Ways whose notes are all about captures of some names. -/
def Notes (names : String → Prop) (ws : List Way) : Prop := ∀ w ∈ ws, ∀ n ∈ w.trail, names n.name

section Notes

variable {names : String → Prop} {ws : List Way} {next : Position → List Way}

theorem composes_notes (names : String → Prop) : Composes fun _ w => ∀ n ∈ w.trail, names n.name where
  stay _ := List.forall_mem_nil _
  behind hv hu := List.forall_mem_append.mpr ⟨hv, hu⟩

theorem notes_nil : Notes names [] := List.forall_mem_nil _

theorem notes_stay (P : Position) : Notes names (stay P) :=
  List.forall_mem_singleton.mpr ((composes_notes names).stay P)

theorem Notes.extend (h : Notes names ws) (hn : ∀ Q, Notes names (next Q)) :
    Notes names (extend ws next) := by
  intro w hw
  obtain ⟨v, hv, u, hu, rfl⟩ := mem_extend_iff.mp hw
  exact List.forall_mem_append.mpr ⟨h v hv, hn v.stop u hu⟩

end Notes

namespace Expr

/-- **The notes of the ways of an expression are about the captures in it.** -/
theorem notes_ways {look : Look → Bool} {name : Option String → Bool} {e : Expr}
    (h : e.all look name = true) (P : Position) : Notes (fun n => name (some n) = true) (e.ways P) := by
  have hnotes := composes_notes fun n => name (some n) = true
  induction e generalizing P with
  | empty => exact notes_stay P
  | word text =>
    unfold ways
    split
    · exact notes_stay _
    · exact notes_nil
  | set s =>
    unfold ways
    split
    · split
      · exact notes_stay _
      · exact notes_nil
    · exact notes_nil
  | look l =>
    unfold ways
    split
    · exact notes_stay P
    · exact notes_nil
  | capture own body ih =>
    obtain ⟨hown, hbody⟩ := Bool.and_eq_true_iff.mp h
    intro w hw n hn
    obtain ⟨v, hv, rfl⟩ := List.mem_map.mp hw
    rcases List.mem_append.mp hn with hn | hn
    · rcases List.mem_append.mp hn with hn | hn
      · obtain ⟨m, hm, rfl⟩ := List.mem_map.mp hn
        obtain rfl := Option.mem_toList.mp hm
        exact hown
      · exact ih hbody P v hv n hn
    · obtain ⟨m, hm, rfl⟩ := List.mem_map.mp hn
      obtain rfl := Option.mem_toList.mp hm
      exact hown
  | seq first second ih1 ih2 =>
    obtain ⟨h1, h2⟩ := Bool.and_eq_true_iff.mp h
    exact (ih1 h1 P).extend (ih2 h2)
  | alt first second ih1 ih2 =>
    obtain ⟨h1, h2⟩ := Bool.and_eq_true_iff.mp h
    intro w hw
    rcases List.mem_append.mp hw with hw | hw
    · exact ih1 h1 P w hw
    · exact ih2 h2 P w hw
  | atLeast greedy least body ih => exact hnotes.atLeast (ih h) greedy least P
  | between greedy least more body ih =>
    exact Notes.extend (hnotes.times (ih h) least P) (hnotes.upTo (ih h) greedy more)

/-- A plain expression takes no notes. -/
theorem trail_eq_nil {e : Expr} (h : e.isPlain = true) {P : Position} {w : Way} (hw : w ∈ e.ways P) :
    w.trail = [] := by
  refine List.eq_nil_iff_forall_not_mem.mpr fun n hn => ?_
  exact Bool.false_ne_true (notes_ways h P w hw n hn)

/-! ### What simplifying keeps -/

theorem sharedItems_isPrefix (as bs : List Expr) :
    sharedItems as bs <+: as ∧ sharedItems as bs <+: bs := by
  induction as generalizing bs with
  | nil => exact ⟨List.nil_prefix, List.nil_prefix⟩
  | cons a as ih =>
    cases bs with
    | nil => exact ⟨List.nil_prefix, List.nil_prefix⟩
    | cons b bs =>
      rw [sharedItems]
      split_ifs with hsame
      · obtain ⟨rfl, -⟩ := hsame
        exact ⟨List.cons_prefix_cons.mpr ⟨rfl, (ih bs).1⟩,
          List.cons_prefix_cons.mpr ⟨rfl, (ih bs).2⟩⟩
      · exact ⟨List.nil_prefix, List.nil_prefix⟩

/-- **What alternatives begin with alike** is what each of them begins with. -/
theorem sharedStart_isPrefix {e : Expr} {es : List Expr} (h : e ∈ es) :
    sharedStart es <+: e.items := by
  have hfold (r : List Expr) (rs : List (List Expr)) : rs.foldl sharedItems r <+: r ∧
      ∀ s ∈ rs, rs.foldl sharedItems r <+: s := by
    induction rs generalizing r with
    | nil => exact ⟨List.prefix_rfl, List.forall_mem_nil _⟩
    | cons s rs ih =>
      obtain ⟨hfirst, hrest⟩ := ih (sharedItems r s)
      obtain ⟨hr, hs⟩ := sharedItems_isPrefix r s
      exact ⟨hfirst.trans hr, List.forall_mem_cons.mpr ⟨hfirst.trans hs, hrest⟩⟩
  cases es with
  | nil => exact absurd h List.not_mem_nil
  | cons f fs =>
    unfold sharedStart
    rw [List.map_cons]
    dsimp only
    split
    · obtain ⟨hfirst, hrest⟩ := hfold f.items (fs.map items)
      rcases List.mem_cons.mp h with rfl | h
      · exact hfirst
      · exact hrest _ (List.mem_map_of_mem h)
    · exact List.nil_prefix

/-- What alternatives begin with alike are parts of the first one. -/
theorem exists_of_mem_sharedStart {f : Expr} {es : List Expr} (h : f ∈ sharedStart es) :
    ∃ e ∈ es, f ∈ e.items := by
  cases es with
  | nil => exact absurd h List.not_mem_nil
  | cons e es => exact ⟨e, List.mem_cons_self, (sharedStart_isPrefix List.mem_cons_self).subset h⟩

/-- **A property that rows and alternatives keep**, and what it says of the parts of a row and of
the alternatives. -/
structure Kept (P part branch : Expr → Prop) : Prop where
  /-- The empty expression has it. -/
  empty : P .empty
  /-- It is had by parts. -/
  of_part : ∀ {e}, part e → P e
  /-- It says something of the parts of a row. -/
  items : ∀ {e}, P e → ∀ f ∈ e.items, part f
  /-- A part in front of a row keeps it. -/
  before : ∀ {e f}, part e → P f → P (before e f)
  /-- It is had by alternatives. -/
  of_branch : ∀ {e}, branch e → P e
  /-- It says something of alternatives. -/
  branches : ∀ {e}, P e → ∀ f ∈ e.branches, branch f
  /-- Alternatives that begin with nothing in common keep it. -/
  anyOf : ∀ {es}, (∀ e ∈ es, branch e) → P (anyOf es)

section Kept

variable {P part branch : Expr → Prop} {es : List Expr}

theorem Kept.row (hP : Kept P part branch) (h : ∀ e ∈ es, P e) : P (Expr.row es) := by
  have hitems : ∀ f ∈ es.flatMap Expr.items, part f := by
    intro f hf
    obtain ⟨e, he, hf⟩ := List.mem_flatMap.mp hf
    exact hP.items (h e he) f hf
  unfold Expr.row
  generalize es.flatMap Expr.items = fs at hitems
  induction fs with
  | nil => exact hP.empty
  | cons f fs ih =>
    obtain ⟨hf, hfs⟩ := List.forall_mem_cons.mp hitems
    exact hP.before hf (ih hfs)

theorem Kept.choice (hP : Kept P part branch) (h : ∀ e ∈ es, P e) : P (Expr.choice es) := by
  have hbranches : ∀ f ∈ es.flatMap Expr.branches, branch f := by
    intro f hf
    obtain ⟨e, he, hf⟩ := List.mem_flatMap.mp hf
    exact hP.branches (h e he) f hf
  unfold Expr.choice
  generalize es.flatMap Expr.branches = bs at hbranches
  dsimp only
  split
  · exact hP.of_branch (hbranches _ List.mem_cons_self)
  · split
    · exact hP.anyOf hbranches
    · -- what is taken out in front are parts of an alternative, and so is what stays behind
      refine hP.row fun f hf => ?_
      rcases List.mem_append.mp hf with hf | hf
      · obtain ⟨e, he, hf⟩ := exists_of_mem_sharedStart hf
        exact hP.of_part (hP.items (hP.of_branch (hbranches e he)) f hf)
      · obtain rfl := List.mem_singleton.mp hf
        refine hP.anyOf fun g hg => ?_
        obtain ⟨r, hr, hg⟩ := List.mem_flatMap.mp hg
        obtain ⟨e, he, rfl⟩ := List.mem_map.mp hr
        refine hP.branches (hP.row fun k hk => ?_) g hg
        exact hP.of_part (hP.items (hP.of_branch (hbranches e he)) k (List.mem_of_mem_drop hk))

end Kept

/-- **A property that an expression has if its parts have it**, and only then. -/
structure Inherited (P : Expr → Prop) : Prop where
  /-- The empty expression has it. -/
  empty : P .empty
  /-- Words have it. -/
  word : ∀ text, P (.word text)
  /-- A set of the given characters has it. -/
  singles : ∀ cs : List Char, P (.ofSet (.unionAll (cs.map .single)))
  /-- The union of sets that have it has it. -/
  unionAll : ∀ {sets}, (∀ s ∈ sets, P (.set s)) → P (.ofSet (.unionAll sets))
  /-- One expression and another one behind it. -/
  seq : ∀ {e f}, P (.seq e f) ↔ P e ∧ P f
  /-- One expression or another one. -/
  alt : ∀ {e f}, P (.alt e f) ↔ P e ∧ P f
  /-- At least so many rounds. -/
  atLeast : ∀ {e}, P e → ∀ greedy least, P (.atLeast greedy least e)
  /-- So many rounds, and at most so many more. -/
  between : ∀ {e}, P e → ∀ greedy least more, P (.between greedy least more e)

theorem eq_map_of_mapM {α : Type} {f : Expr → Option α} {g : α → Expr}
    (hfg : ∀ e a, f e = some a → e = g a) {es : List Expr} {as : List α} (h : es.mapM f = some as) :
    es = as.map g := by
  induction es generalizing as with
  | nil =>
    obtain rfl := Option.some.inj h
    rfl
  | cons e es ih =>
    rw [List.mapM_cons] at h
    obtain ⟨a, ha, h⟩ := Option.bind_eq_some_iff.mp h
    obtain ⟨bs, hbs, h⟩ := Option.bind_eq_some_iff.mp h
    obtain rfl := Option.some.inj h
    rw [List.map_cons, ← hfg e a ha, ← ih hbs]

/-- Alternatives that are all sets. -/
theorem eq_map_set {es : List Expr} {sets : List CharSet} (h : es.mapM set? = some sets) :
    es = sets.map .set := by
  refine eq_map_of_mapM (fun e s hs => ?_) h
  unfold set? at hs
  split at hs
  · obtain rfl := Option.some.inj hs
    rfl
  · cases hs

/-- Alternatives that are all single characters. -/
theorem eq_map_char {es : List Expr} {cs : List Char} (h : es.mapM char? = some cs) :
    es = cs.map fun c => .word [c] := by
  refine eq_map_of_mapM (fun e c hc => ?_) h
  unfold char? at hc
  split at hc
  · obtain rfl := Option.some.inj hc
    rfl
  · cases hc

/-- Alternatives that are nested, from what the last one has and what each one adds in front of the
others. -/
theorem nested_of_alt {P Q : Expr → Prop} {e : Expr} {es : List Expr} (hlast : ∀ {e}, Q e → P e)
    (halt : ∀ {e f}, Q e → P f → P (.alt e f)) (h : ∀ f ∈ e :: es, Q f) : P (nested e es) := by
  induction es generalizing e with
  | nil => exact hlast (h e List.mem_cons_self)
  | cons f fs ih =>
    obtain ⟨he, hfs⟩ := List.forall_mem_cons.mp h
    exact halt he (ih hfs)

section Inherited

variable {P : Expr → Prop} {e : Expr} {es : List Expr}

theorem Inherited.kept (hP : Inherited P) : Kept P P P where
  empty := hP.empty
  of_part h := h
  of_branch h := h
  items {e} h f hf := by
    induction e with
    | empty => exact absurd hf List.not_mem_nil
    | seq first second _ ih =>
      obtain ⟨h1, h2⟩ := hP.seq.mp h
      rcases List.mem_cons.mp hf with rfl | hf
      · exact h1
      · exact ih h2 hf
    | _ =>
      obtain rfl := List.mem_singleton.mp hf
      exact h
  branches {e} h f hf := by
    induction e with
    | alt first second _ ih =>
      obtain ⟨h1, h2⟩ := hP.alt.mp h
      rcases List.mem_cons.mp hf with rfl | hf
      · exact h1
      · exact ih h2 hf
    | _ =>
      obtain rfl := List.mem_singleton.mp hf
      exact h
  before {e f} he hf := by
    unfold Expr.before
    split
    · exact he
    · exact hP.word _
    · exact hP.seq.mpr ⟨hP.word _, (hP.seq.mp hf).2⟩
    · exact hP.seq.mpr ⟨he, hf⟩
  anyOf {es} h := by
    unfold Expr.anyOf
    split
    · exact hP.unionAll (List.forall_mem_nil _)
    · exact h _ List.mem_cons_self
    · split
      · exact hP.singles _
      · rename_i sets hsets
        rw [eq_map_set hsets] at h
        exact hP.unionAll fun s hs => h _ (List.mem_map_of_mem hs)
      · exact nested_of_alt id (fun he hf => hP.alt.mpr ⟨he, hf⟩) h

theorem Inherited.repeated (hP : Inherited P) (h : P e) (greedy : Bool) (bounds : Bounds) :
    P (Expr.repeated greedy e bounds) := by
  unfold Expr.repeated
  split
  · exact hP.atLeast h _ _
  · exact hP.empty
  · exact h
  · exact hP.between h _ _ _

end Inherited

section All

variable {look : Look → Bool} {name : Option String → Bool}

theorem all_ofSet (s : CharSet) : (ofSet s).all look name = true := by
  unfold ofSet
  split <;> rfl

theorem inherited_all (look : Look → Bool) (name : Option String → Bool) :
    Inherited (·.all look name = true) where
  empty := rfl
  word _ := rfl
  singles _ := all_ofSet _
  unionAll _ := all_ofSet _
  seq := Bool.and_eq_true_iff
  alt := Bool.and_eq_true_iff
  atLeast h _ _ := h
  between h _ _ _ := h

end All

end Expr

end Regex

end UrlRouting

import UrlRouting.Proofs.Regex.Search
import UrlRouting.Proofs.Regex.Sets
import UrlRouting.Proofs.Regex.Trees

/-!
# What a tree of syntax relates

A tree of syntax says which places of a text lead to which others, node by node
(`UrlRouting.Regex.Syntax.Spans`): a row is a composition, alternatives are a union, a repetition is
a number of rounds within bounds. Captures and preferences have no part in it.

The expression of a tree is simplified a great deal: rows are flattened, alternatives merged into
sets, common beginnings taken out, repetitions of what cannot read anything cut short. None of this
changes where the expression leads (`UrlRouting.Regex.Syntax.reaches_meaning_iff`). The sets of the
tree have to be proper for that, since it is by their ranges that sets are merged and that a set of
one character is recognised.
-/

namespace UrlRouting

namespace Regex

open Ways

/-! ### Expressions with proper sets -/

namespace Expr

/-- The sets that an expression reads characters of. -/
def sets : Expr → List CharSet
  | .empty | .word _ | .look _ => []
  | .set s => [s]
  | .capture _ body => body.sets
  | .seq first second => first.sets ++ second.sets
  | .alt first second => first.sets ++ second.sets
  | .atLeast _ _ body => body.sets
  | .between _ _ _ body => body.sets

/-- **Are all sets of the expression proper?** -/
def IsProper (e : Expr) : Prop := ∀ s ∈ e.sets, s.IsProper

theorem isProper_ofSet {s : CharSet} (h : s.IsProper) : (ofSet s).IsProper := by
  unfold ofSet
  split
  · exact List.forall_mem_nil _
  · exact List.forall_mem_singleton.mpr h

theorem isProper_singles (cs : List Char) :
    (CharSet.unionAll (cs.map .single)).IsProper ∧
      ∀ d, (CharSet.unionAll (cs.map .single)).mem d = true ↔ d ∈ cs := by
  have hproper : ∀ s ∈ cs.map CharSet.single, s.IsProper := by
    intro s hs
    obtain ⟨c, -, rfl⟩ := List.mem_map.mp hs
    exact CharSet.isProper_single c
  obtain ⟨hunion, hmem⟩ := CharSet.unionAll_spec hproper
  refine ⟨hunion, fun d => ?_⟩
  rw [hmem, List.any_map, List.any_eq_true]
  constructor
  · rintro ⟨c, hc, hd⟩
    exact CharSet.mem_single_iff.mp hd ▸ hc
  · exact fun hd => ⟨d, hd, CharSet.mem_single_iff.mpr rfl⟩

theorem inherited_isProper : Inherited IsProper where
  empty := List.forall_mem_nil _
  word _ := List.forall_mem_nil _
  singles cs := isProper_ofSet (isProper_singles cs).1
  unionAll h :=
    isProper_ofSet (CharSet.unionAll_spec fun s hs => List.forall_mem_singleton.mp (h s hs)).1
  seq := List.forall_mem_append
  alt := List.forall_mem_append
  atLeast h _ _ := h
  between h _ _ _ := h

theorem closed_isProper :
    Closed CharSet.IsProper (fun _ => true) (fun _ => true) IsProper where
  empty := inherited_isProper.empty
  ofSet _ := isProper_ofSet
  look _ _ := List.forall_mem_nil _
  capture _ h := h
  repeated := inherited_isProper.repeated
  row := inherited_isProper.kept.row
  choice := inherited_isProper.kept.choice

/-! ### Where parts lead -/

section Parts

variable {P Q : Position} {e : Expr} {es : List Expr} {s : CharSet}

theorem reaches_word_iff {text : List Char} : Reaches (word text).ways P Q ↔ P.Reads text Q := by
  refine (spells_word text P Q).trans ⟨?_, fun h => ⟨text, rfl, h⟩⟩
  rintro ⟨_, rfl, h⟩
  exact h

theorem reaches_set_iff :
    Reaches (set s).ways P Q ↔ ∃ c, s.mem c = true ∧ P.Reads [c] Q := by
  refine (spells_set s P Q).trans ⟨?_, ?_⟩
  · rintro ⟨_, ⟨c, hc, rfl⟩, h⟩
    exact ⟨c, hc, h⟩
  · rintro ⟨c, hc, h⟩
    exact ⟨[c], ⟨c, hc, rfl⟩, h⟩

/-- A proper set leads on by its characters, whatever form it has. -/
theorem reaches_ofSet_iff (h : s.IsProper) :
    Reaches (ofSet s).ways P Q ↔ ∃ c, s.mem c = true ∧ P.Reads [c] Q := by
  unfold ofSet
  split
  · rename_i c hc
    rw [h.eq_of_single? hc, reaches_word_iff]
    simp [CharSet.mem_single_iff]
  · exact reaches_set_iff

theorem reaches_look_iff {l : Look} :
    Reaches (look l).ways P Q ↔ l.holds P.before P.rest = true ∧ P = Q := by
  unfold Reaches ways
  split
  · rename_i h
    exact (reaches_stay_iff (P := P) (Q := Q)).trans (and_iff_right h).symm
  · rename_i h
    simp [h]

theorem reaches_capture_iff {name : Option String} :
    Reaches (capture name e).ways P Q ↔ Reaches e.ways P Q := by
  constructor
  · rintro ⟨w, hw, rfl⟩
    obtain ⟨v, hv, rfl⟩ := List.mem_map.mp hw
    exact ⟨v, hv, rfl⟩
  · rintro ⟨v, hv, rfl⟩
    exact ⟨_, List.mem_map_of_mem hv, rfl⟩

theorem reaches_seq_iff {f : Expr} :
    Reaches (seq e f).ways P Q ↔ ∃ M, Reaches e.ways P M ∧ Reaches f.ways M Q :=
  reaches_extend_iff

theorem reaches_alt_iff {f : Expr} :
    Reaches (alt e f).ways P Q ↔ Reaches e.ways P Q ∨ Reaches f.ways P Q :=
  reaches_append_iff

/-! ### Rows -/

theorem reaches_row_append_iff {fs : List Expr} : Reaches (row (es ++ fs)).ways P Q ↔
    ∃ M, Reaches (row es).ways P M ∧ Reaches (row fs).ways M Q := by
  have hrow (fs : List Expr) : (row fs).ways = rowWays fs := funext (ways_row fs)
  rw [hrow, hrow, hrow, funext (rowWays_append es fs)]
  exact reaches_extend_iff

theorem ways_row_singleton (e : Expr) : (row [e]).ways = e.ways := by
  rw [funext (ways_row [e]), rowWays_singleton]

theorem ways_row_items (e : Expr) : (row e.items).ways = e.ways := by
  rw [funext (ways_row e.items), funext (rowWays_items e)]

end Parts

/-! ### Alternatives -/

section Alternatives

variable {P Q : Position} {e : Expr} {es : List Expr}

theorem reaches_branches_iff :
    (∃ f ∈ e.branches, Reaches f.ways P Q) ↔ Reaches e.ways P Q := by
  induction e with
  | alt first second _ ih =>
    rw [reaches_alt_iff, ← ih]
    simp [branches]
  | _ => simp [branches]

theorem reaches_nested_iff :
    Reaches (nested e es).ways P Q ↔ ∃ f ∈ e :: es, Reaches f.ways P Q := by
  induction es generalizing e with
  | nil => simp [nested]
  | cons f fs ih =>
    rw [nested, reaches_alt_iff, ih]
    simp

/-- Alternatives that are merged into a set lead where they led before. -/
theorem reaches_anyOf_iff (h : ∀ e ∈ es, e.IsProper) :
    Reaches (anyOf es).ways P Q ↔ ∃ e ∈ es, Reaches e.ways P Q := by
  unfold anyOf
  split
  · rw [reaches_set_iff]
    simp [CharSet.mem, CharSet.nothing, Text.inRanges]
  · simp
  · split
    · rename_i cs hcs
      obtain ⟨hproper, hmem⟩ := isProper_singles cs
      rw [reaches_ofSet_iff hproper, eq_map_char hcs]
      simp only [hmem, List.mem_map, exists_exists_and_eq_and, reaches_word_iff]
    · rename_i sets _ hsets
      rw [eq_map_set hsets] at h ⊢
      have hsets' : ∀ s ∈ sets, s.IsProper :=
        fun s hs => List.forall_mem_singleton.mp (h _ (List.mem_map_of_mem hs))
      obtain ⟨hproper, hmem⟩ := CharSet.unionAll_spec hsets'
      rw [reaches_ofSet_iff hproper]
      simp only [hmem, List.any_eq_true, List.mem_map, exists_exists_and_eq_and, reaches_set_iff]
      constructor
      · rintro ⟨c, ⟨s, hs, hc⟩, hP⟩
        exact ⟨s, hs, c, hc, hP⟩
      · rintro ⟨s, hs, c, hc, hP⟩
        exact ⟨c, ⟨s, hs, hc⟩, hP⟩
    · exact reaches_nested_iff

/-- Alternatives of which a common beginning is taken out lead where they led before. -/
theorem reaches_factored_iff {start : List Expr} (hstart : ∀ e ∈ es, start <+: e.items)
    (h : ∀ e ∈ es, e.IsProper) :
    Reaches (row (start ++ [anyOf ((es.map fun e => row (e.items.drop start.length)).flatMap
      branches)])).ways P Q ↔ ∃ e ∈ es, Reaches e.ways P Q := by
  have hkept := inherited_isProper.kept
  have hbehind : ∀ f ∈ (es.map fun e => row (e.items.drop start.length)).flatMap branches,
      f.IsProper := by
    intro f hf
    obtain ⟨r, hr, hf⟩ := List.mem_flatMap.mp hf
    obtain ⟨e, he, rfl⟩ := List.mem_map.mp hr
    refine hkept.branches (hkept.row fun k hk => ?_) f hf
    exact hkept.items (h e he) k (List.mem_of_mem_drop hk)
  -- each alternative is the common beginning and what is left of it
  have hsplit {e : Expr} (he : e ∈ es) : Reaches e.ways P Q ↔
      ∃ M, Reaches (row start).ways P M ∧ Reaches (row (e.items.drop start.length)).ways M Q := by
    obtain ⟨behind, hitems⟩ := hstart e he
    rw [← hitems, List.drop_left, ← reaches_row_append_iff, hitems, ways_row_items]
  rw [reaches_row_append_iff, ways_row_singleton]
  simp only [reaches_anyOf_iff hbehind]
  constructor
  · rintro ⟨M, hM, f, hf, hQ⟩
    obtain ⟨r, hr, hf⟩ := List.mem_flatMap.mp hf
    obtain ⟨e, he, rfl⟩ := List.mem_map.mp hr
    exact ⟨e, he, (hsplit he).mpr ⟨M, hM, reaches_branches_iff.mp ⟨f, hf, hQ⟩⟩⟩
  · rintro ⟨e, he, hP⟩
    obtain ⟨M, hM, hQ⟩ := (hsplit he).mp hP
    obtain ⟨f, hf, hQ⟩ := reaches_branches_iff.mpr hQ
    exact ⟨M, hM, f, List.mem_flatMap.mpr ⟨_, List.mem_map_of_mem he, hf⟩, hQ⟩

/-- **Alternatives lead wherever one of them leads.** -/
theorem reaches_choice_iff (h : ∀ e ∈ es, e.IsProper) :
    Reaches (choice es).ways P Q ↔ ∃ e ∈ es, Reaches e.ways P Q := by
  have hbranches : (∃ f ∈ es.flatMap branches, Reaches f.ways P Q) ↔
      ∃ e ∈ es, Reaches e.ways P Q := by
    simp only [List.mem_flatMap]
    constructor
    · rintro ⟨f, ⟨e, he, hf⟩, hP⟩
      exact ⟨e, he, reaches_branches_iff.mp ⟨f, hf, hP⟩⟩
    · rintro ⟨e, he, hP⟩
      obtain ⟨f, hf, hP⟩ := reaches_branches_iff.mpr hP
      exact ⟨f, ⟨e, he, hf⟩, hP⟩
  have hproper : ∀ f ∈ es.flatMap branches, f.IsProper := by
    intro f hf
    obtain ⟨e, he, hf⟩ := List.mem_flatMap.mp hf
    exact inherited_isProper.kept.branches (h e he) f hf
  rw [← hbranches]
  unfold choice
  generalize es.flatMap branches = bs at hproper
  dsimp only
  split
  · simp
  · split
    · exact reaches_anyOf_iff hproper
    · exact reaches_factored_iff (fun e he => sharedStart_isPrefix he) hproper

end Alternatives

/-! ### Repetitions -/

end Expr

/-- **So many rounds, within bounds.** A greatest number below the least one does not count. -/
def RoundsWithin (R : Position → Position → Prop) (bounds : Bounds) (P Q : Position) : Prop :=
  ∃ k, (∀ m ∈ bounds.most, k ≤ m - bounds.least) ∧ Rounds R (bounds.least + k) P Q

theorem roundsWithin_congr {R S : Position → Position → Prop} (h : ∀ P Q, R P Q ↔ S P Q)
    (bounds : Bounds) (P Q : Position) : RoundsWithin R bounds P Q ↔ RoundsWithin S bounds P Q :=
  exists_congr fun _ => and_congr_right fun _ => rounds_congr h _ P Q

section Blank

variable {R : Position → Position → Prop} {P Q : Position}

/-- Rounds that lead nowhere else. -/
theorem eq_of_rounds (hR : ∀ P Q, R P Q → P = Q) {n : Nat} (h : Rounds R n P Q) : P = Q := by
  induction n generalizing P with
  | zero => exact h
  | succ n ih =>
    obtain ⟨M, hM, hQ⟩ := h
    obtain rfl := hR P M hM
    exact ih hQ

/-- If a round leads nowhere else, there need not be more than one. -/
theorem roundsWithin_iff_of_eq (hR : ∀ P Q, R P Q → P = Q) (bounds : Bounds) :
    RoundsWithin R bounds P Q ↔ P = Q ∧ (bounds.least = 0 ∨ R P P) := by
  have hmany (n : Nat) (h : R P P) : Rounds R n P P := by
    induction n with
    | zero => rfl
    | succ n ih => exact ⟨P, h, ih⟩
  constructor
  · rintro ⟨k, -, h⟩
    obtain rfl := eq_of_rounds hR h
    refine ⟨rfl, (Nat.eq_zero_or_pos bounds.least).imp_right fun hpos => ?_⟩
    obtain ⟨n, hn⟩ := Nat.exists_eq_add_of_lt (Nat.lt_add_right k hpos)
    rw [Nat.zero_add] at hn
    rw [hn] at h
    obtain ⟨M, hM, -⟩ := h
    exact hR P M hM ▸ hM
  · rintro ⟨rfl, h⟩
    refine ⟨0, fun _ _ => Nat.zero_le _, ?_⟩
    rw [Nat.add_zero]
    rcases h with h | h
    · rw [h]
      rfl
    · exact hmany _ h

end Blank

namespace Expr

section Repetitions

variable {P Q : Position} {e : Expr}

/-- **What cannot read a character leads nowhere else.** -/
theorem eq_of_isBlank (h : e.isBlank = true) : ∀ P Q, Reaches e.ways P Q → P = Q := by
  induction e with
  | empty => exact fun P Q => reaches_stay_iff.mp
  | word text => cases h
  | set s => cases h
  | look l => exact fun P Q hP => (reaches_look_iff.mp hP).2
  | capture name body ih => exact fun P Q hP => ih h P Q (reaches_capture_iff.mp hP)
  | seq first second ih1 ih2 =>
    obtain ⟨h1, h2⟩ := Bool.and_eq_true_iff.mp h
    intro P Q hP
    obtain ⟨M, hM, hQ⟩ := reaches_seq_iff.mp hP
    exact (ih1 h1 P M hM).trans (ih2 h2 M Q hQ)
  | alt first second ih1 ih2 =>
    obtain ⟨h1, h2⟩ := Bool.and_eq_true_iff.mp h
    exact fun P Q hP => (reaches_alt_iff.mp hP).elim (ih1 h1 P Q) (ih2 h2 P Q)
  | atLeast greedy least body ih =>
    intro P Q hP
    obtain ⟨k, hk⟩ := (reaches_atLeast_iff body.leads_ways).mp hP
    exact eq_of_rounds (ih h) hk
  | between greedy least more body ih =>
    intro P Q hP
    obtain ⟨M, hM, hQ⟩ := reaches_extend_iff.mp hP
    obtain ⟨k, -, hk⟩ := reaches_upTo_iff.mp hQ
    exact (eq_of_rounds (ih h) (reaches_times_iff.mp hM)).trans (eq_of_rounds (ih h) hk)

/-- **A repetition leads wherever so many rounds lead.** -/
theorem reaches_repeated_iff {greedy : Bool} {bounds : Bounds} :
    Reaches (repeated greedy e bounds).ways P Q ↔ RoundsWithin (Reaches e.ways) bounds P Q := by
  have hbounds : RoundsWithin (Reaches e.ways) (if e.isBlank then
      ⟨min bounds.least 1, some (min (bounds.most.getD 1) 1)⟩ else bounds) P Q ↔
        RoundsWithin (Reaches e.ways) bounds P Q := by
    split_ifs with hblank
    · have hR := eq_of_isBlank hblank
      rw [roundsWithin_iff_of_eq hR, roundsWithin_iff_of_eq hR]
      refine and_congr_right fun _ => or_congr_left ?_
      dsimp only
      omega
    · rfl
  rw [← hbounds]
  unfold repeated
  generalize (if e.isBlank then
    (⟨min bounds.least 1, some (min (bounds.most.getD 1) 1)⟩ : Bounds) else bounds) = b
  split
  · refine (reaches_atLeast_iff e.leads_ways).trans (exists_congr fun k => ?_)
    simp
  · refine reaches_stay_iff.trans ?_
    simp [RoundsWithin, Rounds]
  · simp [RoundsWithin, Rounds]
  · refine reaches_extend_iff.trans ?_
    simp only [reaches_times_iff, reaches_upTo_iff, RoundsWithin, rounds_add_iff,
      Option.mem_some_iff, forall_eq']
    constructor
    · rintro ⟨M, hM, k, hk, h⟩
      exact ⟨k, hk, M, hM, h⟩
    · rintro ⟨k, hk, M, hM, h⟩
      exact ⟨M, hM, k, hk, h⟩

end Repetitions

/-- **A text has a match** if some place of it leads somewhere. -/
theorem isSome_find?_iff {e : Expr} {text : String} : (e.find? text).isSome ↔
    ∃ P ∈ ⟨none, text.toList⟩ :: Position.behindEach text.toList, ∃ Q, Reaches e.ways P Q := by
  have hplace (P : Position) :
      ((e.ways P).head?.map (·.trail)).isSome ↔ ∃ Q, Reaches e.ways P Q := by
    rw [Option.isSome_map, List.isSome_head?]
    constructor
    · intro hne
      obtain ⟨w, hw⟩ := List.exists_mem_of_ne_nil _ hne
      exact ⟨w.stop, w, hw, rfl⟩
    · rintro ⟨Q, w, hw, -⟩
      exact List.ne_nil_of_mem hw
  rw [find?_eq, firstFrom, List.findSome?_isSome_iff]
  simp only [hplace]

end Expr

/-! ### Series -/

namespace Series

variable {s : Series} {e : Expr} {P Q : Position}

theorem ways_single (e : Expr) : (single e).expr.ways = e.ways := Expr.ways_row_singleton e

theorem reaches_followedBy_iff : Reaches (s.followedBy e).expr.ways P Q ↔
    ∃ M, Reaches s.expr.ways P M ∧ Reaches e.ways M Q := by
  have hlast (es : List Expr) : Reaches (row (e :: es)).expr.ways P Q ↔
      ∃ M, Reaches (row es).expr.ways P M ∧ Reaches e.ways M Q := by
    rw [expr, List.reverse_cons, Expr.reaches_row_append_iff, Expr.ways_row_singleton]
    rfl
  cases s with
  | row es => exact hlast es
  | choice es =>
    refine (hlast _).trans ?_
    rw [← ways_single (choice es).expr]
    rfl

theorem reaches_or_iff (hs : ∀ f ∈ s.parts, f.IsProper) (he : e.IsProper) :
    Reaches (s.or e).expr.ways P Q ↔ Reaches s.expr.ways P Q ∨ Reaches e.ways P Q := by
  have hlast {es : List Expr} (hes : ∀ f ∈ es, f.IsProper) :
      Reaches (choice (e :: es)).expr.ways P Q ↔
        (∃ f ∈ es, Reaches f.ways P Q) ∨ Reaches e.ways P Q := by
    have hall : ∀ f ∈ (e :: es).reverse, f.IsProper := fun f hf =>
      List.forall_mem_cons.mpr ⟨he, hes⟩ f (List.mem_reverse.mp hf)
    rw [expr, Expr.reaches_choice_iff hall]
    simp [or_comm]
  cases s with
  | row es =>
    have hfirst := List.forall_mem_singleton.mpr (closed_expr Expr.closed_isProper hs)
    refine (hlast hfirst).trans ?_
    simp
  | choice es =>
    have hes : ∀ f ∈ es.reverse, f.IsProper := fun f hf => hs f (List.mem_reverse.mp hf)
    refine (hlast hs).trans (or_congr_left ?_)
    rw [expr, Expr.reaches_choice_iff hes]
    simp [parts]

end Series

/-! ### Trees -/

/-- The flags that a group changes in front of its body. -/
def GroupKind.change : GroupKind → FlagChange
  | .capture _ => ⟨[], []⟩
  | .plain change => change

namespace Syntax

/-- **The tree leads from one place to another**, under the flags in force in front of it. -/
def Spans : Syntax → Flags → Position → Position → Prop
  | .empty, _ => fun P Q => P = Q
  | .char c, given => fun P Q =>
    ∃ d, ((CharSet.single c).foldedIf given.ignoreCase).mem d = true ∧ P.Reads [d] Q
  | .any, given => fun P Q => ∃ d, (dot given).mem d = true ∧ P.Reads [d] Q
  | .class_ s, given => fun P Q => ∃ d, (s.set given.ignoreCase).mem d = true ∧ P.Reads [d] Q
  | .caret, given => fun P Q =>
    (if given.multiLine then Look.lineStart else .textStart).holds P.before P.rest = true ∧ P = Q
  | .dollar, given => fun P Q =>
    (if given.multiLine then Look.lineEnd else .textEnd).holds P.before P.rest = true ∧ P = Q
  | .look l, _ => fun P Q => l.holds P.before P.rest = true ∧ P = Q
  | .flags _, _ => fun P Q => P = Q
  | .group kind body, given => body.Spans (given.change kind.change)
  | .repetition body bounds _, given => RoundsWithin (body.Spans given) bounds
  | .seq items last, given => fun P Q =>
    ∃ M, items.Spans given P M ∧ last.Spans (items.meaning given).2 M Q
  | .alt branches last, given => fun P Q =>
    branches.Spans given P Q ∨ last.Spans (branches.meaning given).2 P Q

theorem isProper_meaning {s : Syntax} (hset : s.Sets CharSet.IsProper) (given : Flags) :
    ∀ e ∈ (s.meaning given).1.parts, e.IsProper :=
  closed_meaning Expr.closed_isProper hset (all_of_names rfl fun _ _ => rfl) given

/-- **The expression of a tree leads where the tree does.** -/
theorem reaches_meaning_iff {s : Syntax} (hset : s.Sets CharSet.IsProper) (given : Flags)
    {P Q : Position} : Reaches (s.meaning given).1.expr.ways P Q ↔ s.Spans given P Q := by
  induction s generalizing given P Q with
  | empty =>
    rw [meaning, Series.ways_single]
    exact reaches_stay_iff
  | char c =>
    rw [meaning, Series.ways_single]
    exact Expr.reaches_ofSet_iff (hset _)
  | any =>
    rw [meaning, Series.ways_single]
    exact Expr.reaches_ofSet_iff (hset _)
  | class_ s =>
    rw [meaning, Series.ways_single]
    exact Expr.reaches_ofSet_iff (hset _)
  | caret | dollar | look l =>
    rw [meaning, Series.ways_single]
    exact Expr.reaches_look_iff
  | flags c =>
    rw [meaning, Series.ways_single]
    exact reaches_stay_iff
  | group kind body ih =>
    cases kind with
    | capture n =>
      rw [meaning, Series.ways_single, Expr.reaches_capture_iff]
      exact ih hset given
    | plain change =>
      rw [meaning, Series.ways_single]
      exact ih hset (given.change change)
  | repetition body bounds greedy ih =>
    rw [meaning, Series.ways_single, Expr.reaches_repeated_iff]
    exact roundsWithin_congr (fun P Q => ih hset given) bounds P Q
  | seq items last ih1 ih2 =>
    rw [meaning, Series.reaches_followedBy_iff]
    exact exists_congr fun M => and_congr (ih1 hset.1 given) (ih2 hset.2 _)
  | alt branches last ih1 ih2 =>
    have hlast := Series.closed_expr Expr.closed_isProper (isProper_meaning hset.2
      (branches.meaning given).2)
    rw [meaning, Series.reaches_or_iff (isProper_meaning hset.1 given) hlast]
    exact or_congr (ih1 hset.1 given) (ih2 hset.2 _)

end Syntax

end Regex

end UrlRouting

import UrlRouting.Proofs.Regex.Reading

/-!
# Expressions that match whole texts

Between a caret and a dollar sign, an expression matches a whole text or not at all. Of the places
of a text only the first one is at its start, and of the ways from there only those count that end
at its end; so the match is the first of these (`UrlRouting.Regex.Expr.find?_of_whole`).

Of a text that was put together only the ways are needed from here on, not the items they belong to
(`UrlRouting.Regex.Syntax.Traces`); between anchors they are all there is to say
(`UrlRouting.Regex.Syntax.Traces.whole`). A plain expression matches as a whole exactly the texts of
its language (`UrlRouting.Regex.wholeTexts_eq`).
-/

namespace UrlRouting

namespace Regex

open Ways

/-- Does the way end where the text ends? -/
def Way.isWhole (w : Way) : Bool := w.stop.rest.isEmpty

/-- The place at the start of a text. -/
def Position.start (text : List Char) : Position := ⟨none, text⟩

/-- The place at the end of a text. -/
def Position.finish (text : List Char) : Position := ⟨text.getLast?, []⟩

theorem Position.reads_all (text : List Char) : (start text).Reads text (finish text) :=
  ⟨(List.append_nil text).symm, Option.or_none.symm⟩

/-- A way from the start of a text to its end reads the text. -/
theorem Position.Reads.eq_of_isWhole {text x : List Char} {w : Way}
    (h : (start text).Reads x w.stop) (hw : w.isWhole = true) : text = x := by
  have hrest : w.stop.rest = [] := List.isEmpty_iff.mp hw
  have htext : text = x ++ w.stop.rest := h.1
  rw [htext, hrest, List.append_nil]

namespace Expr

theorem extend_textEnd (ws : List Way) : extend ws (look .textEnd).ways = ws.filter Way.isWhole := by
  induction ws with
  | nil => rfl
  | cons w ws ih =>
    change (if w.isWhole then stay w.stop else []).map (behind w.trail) ++ extend ws _ = _
    rw [ih, List.filter_cons]
    split
    · change behind w.trail ⟨[], w.stop⟩ :: ws.filter Way.isWhole = _
      rw [behind, List.append_nil]
    · rfl

theorem firstFrom_cons (e : Expr) (P : Position) (places : List Position) :
    e.firstFrom (P :: places) = ((e.ways P).head?.map (·.trail)).or (e.firstFrom places) := by
  rw [firstFrom, List.findSome?_cons]
  cases (e.ways P).head?.map (·.trail) <;> rfl

/-- Behind a character a text does not start. -/
theorem firstFrom_behindEach {e : Expr} (h : ∀ c rest, e.ways ⟨some c, rest⟩ = [])
    (cs : List Char) : e.firstFrom (Position.behindEach cs) = none := by
  refine List.findSome?_eq_none_iff.mpr fun P hP => ?_
  induction cs with
  | nil => exact absurd hP List.not_mem_nil
  | cons c cs ih =>
    rcases List.mem_cons.mp hP with rfl | hP
    · rw [h c cs]
      rfl
    · exact ih hP

/-- **The match of a whole text** is the first way from its start to its end. -/
theorem find?_of_whole {e : Expr} {es : List Expr}
    (h : ∀ P, e.ways P = rowWays ([look .textStart] ++ es ++ [look .textEnd]) P) (text : String) :
    e.find? text =
      ((rowWays es (.start text.toList)).find? Way.isWhole).map (·.trail) := by
  have hways (P : Position) :
      e.ways P = extend ((look .textStart).ways P) fun Q => (rowWays es Q).filter Way.isWhole := by
    rw [h, rowWays_append, rowWays_append, rowWays_singleton, rowWays_singleton, extend_extend]
    exact congrArg _ (funext fun Q => extend_textEnd _)
  have hlater (c : Char) (rest : List Char) : e.ways ⟨some c, rest⟩ = [] := hways _
  have hstart : e.ways (.start text.toList) =
      (rowWays es (.start text.toList)).filter Way.isWhole := (hways _).trans stay_extend
  have hfirst : e.find? text = ((e.ways (.start text.toList)).head?.map (·.trail)).or
      (e.firstFrom (Position.behindEach text.toList)) := by
    rw [find?_eq]
    exact firstFrom_cons e _ _
  rw [hfirst, hstart, firstFrom_behindEach hlater, List.head?_filter, Option.or_none]

end Expr

/-! ### Texts by their ways -/

namespace Syntax

/-- **A text that traces ways**: it stands for items that have these ways in a row, and whose groups
have these names. -/
def Traces (x : List Char) (ways : Position → List Way) (names : List String) : Prop :=
  ∃ items es, Stands x items es ∧ (∀ P, Expr.rowWays es P = ways P) ∧
    items.flatMap Syntax.names = names

section Traces

variable {x y o : List Char} {f g : Position → List Way} {ns ms : List String} {s : Syntax}
  {e : Expr} {kind : GroupKind}

theorem traces_nil : Traces [] stay [] := ⟨[], [], Stands.nil, fun _ => rfl, rfl⟩

theorem Traces.append (hx : Traces x f ns) (hy : Traces y g ms) :
    Traces (x ++ y) (fun P => extend (f P) g) (ns ++ ms) := by
  obtain ⟨items, es, hstands, hways, rfl⟩ := hx
  obtain ⟨items', fs, hstands', hways', rfl⟩ := hy
  refine ⟨_, _, hstands.append hstands', fun P => ?_, List.flatMap_append⟩
  rw [Expr.rowWays_append, hways, funext hways']

/-- An escaped text traces the ways of a word. -/
theorem traces_escape (text : List Char) :
    Traces (text.flatMap escapeChar) (Expr.word text).ways [] := by
  refine ⟨_, _, stands_escape text, fun P => ?_, ?_⟩
  · induction text generalizing P with
    | nil => rfl
    | cons c text ih =>
      have hcons : (Expr.word (c :: text)).ways P =
          extend ((Expr.word [c]).ways P) (Expr.word text).ways := Expr.ways_word_append [c] text P
      rw [hcons, ← funext ih]
      rfl
  · rw [List.flatMap_map]
    exact List.flatMap_eq_nil_iff.mpr fun _ _ => rfl

/-- A closed text in a group traces the ways of the group. -/
theorem Closes.traces (h : Closes x s) (ho : Opens o kind) (hm : Means (.group kind s) e) :
    Traces (o ++ x ++ [')']) e.ways (group kind s).names :=
  ⟨_, _, h.stands ho hm, fun P => congrFun (Expr.rowWays_singleton e) P, List.flatMap_singleton ..⟩

/-- A closed text in a group that may be left out traces the ways of the group, and staying. -/
theorem Closes.traces_optional (h : Closes x s) (ho : Opens o kind)
    (hm : Means (.group kind s) e) :
    Traces (o ++ x ++ [')', '?']) (fun P => e.ways P ++ stay P) (group kind s).names := by
  refine ⟨_, _, h.stands_optional ho hm, fun P => ?_, ?_⟩
  · rw [Expr.rowWays_singleton, ways_optional]
  · exact List.flatMap_singleton ..

/-- In a group, a text that traces ways is the text of an expression with these ways. -/
theorem Traces.closes (h : Traces x f ns) :
    ∃ s, Closes x s ∧ (∀ P, s.expr.ways P = f P) ∧ s.names = ns := by
  obtain ⟨items, es, hstands, hways, rfl⟩ := h
  refine ⟨_, hstands.closes, fun P => ?_, ?_⟩
  · rw [ways_ofItems (List.rel_reverse hstands.means), List.reverse_reverse, hways]
  · rw [names_ofItems, List.reverse_reverse]

/-- **A text that traces ways, between anchors**: its match is the first of the ways that goes from
the start of a text to its end. -/
theorem Traces.whole (h : Traces x f ns) : ∃ s,
    read? (String.ofList (['^'] ++ x ++ ['$'])) = some s ∧ s.names = ns ∧
      ∀ text, s.expr.find? text = ((f (.start text.toList)).find? Way.isWhole).map (·.trail) := by
  obtain ⟨items, es, hstands, hways, rfl⟩ := h
  have hall := (stands_caret.append hstands).append stands_dollar
  refine ⟨_, hall.read?_eq, ?_, fun text => ?_⟩
  · rw [names_ofItems, List.reverse_reverse, List.flatMap_append, List.flatMap_append]
    simp [names]
  · rw [← hways]
    refine Expr.find?_of_whole (fun P => ?_) text
    rw [ways_ofItems (List.rel_reverse hall.means), List.reverse_reverse]

end Traces

end Syntax

/-- A text that can be read compiles if the names of its groups are distinct and it keeps the
limits. -/
theorem compile?_eq_ite {source : String} {s : Syntax} (h : Syntax.read? source = some s) :
    compile? source =
      if s.names.Nodup ∧ s.depth ≤ Syntax.depthLimit ∧ s.expr.fits then some ⟨source, s.expr⟩
      else none := by
  have hproper : s.isProper = true ↔ s.names.Nodup ∧ s.depth ≤ Syntax.depthLimit := by
    simp [Syntax.isProper]
  rw [compile?, Syntax.ofText?, h, Option.filter_some]
  by_cases hs : s.names.Nodup ∧ s.depth ≤ Syntax.depthLimit
  · rw [if_pos (hproper.mpr hs), Option.bind_some]
    simp [hs]
  · rw [if_neg (mt hproper.mp hs), if_neg fun hall => hs ⟨hall.1, hall.2.1⟩]
    rfl

/-- A text that compiles means what its tree means, and gives no name twice. -/
theorem of_compile?_eq_some {source : String} {s : Syntax} {r : Regex}
    (h : Syntax.read? source = some s) (hr : compile? source = some r) :
    r = ⟨source, s.expr⟩ ∧ s.names.Nodup := by
  rw [compile?_eq_ite h] at hr
  split_ifs at hr with hall
  exact ⟨(Option.some.inj hr).symm, hall.1⟩

/-! ### Plain expressions -/

/-- **The texts that an expression matches as a whole**, its size left aside. -/
def wholeTexts (source : String) : Language Char :=
  {x | ∃ s, Syntax.read? (anchored source) = some s ∧ (s.expr.find? (String.ofList x)).isSome}

/-- **A plain expression matches the texts of its language** as a whole. -/
theorem wholeTexts_eq {source : String} {s : Syntax} (h : Syntax.read? source = some s)
    (hplain : s.isPlain = true) : wholeTexts source = s.expr.language := by
  have hcloses : Syntax.Closes source.toList s :=
    Syntax.closes_of_read? (by rwa [String.ofList_toList])
  obtain ⟨t, ht, -, hfind⟩ := (hcloses.traces Syntax.opens_plain (Syntax.means_group s)).whole
  have hsource : String.ofList (['^'] ++ ("(?:".toList ++ source.toList ++ [')']) ++ ['$']) =
      anchored source := by
    refine String.toList_injective ?_
    simp [anchored, String.toList_append]
  rw [hsource] at ht
  have hspells := Expr.spells_ways (Syntax.isPlain_expr hplain)
  ext x
  have hiff : x ∈ wholeTexts source ↔ (t.expr.find? (String.ofList x)).isSome := by
    constructor
    · rintro ⟨s', hs', hsome⟩
      obtain rfl := Option.some.inj (ht.symm.trans hs')
      exact hsome
    · exact fun hsome => ⟨t, ht, hsome⟩
  rw [hiff, hfind, Option.isSome_map, List.find?_isSome, String.toList_ofList]
  constructor
  · rintro ⟨w, hw, hwhole⟩
    obtain ⟨y, hy, hreads⟩ := (hspells (.start x) w.stop).mp ⟨w, hw, rfl⟩
    exact (hreads.eq_of_isWhole hwhole).symm ▸ hy
  · intro hx
    obtain ⟨w, hw, hstop⟩ := (hspells (.start x) (.finish x)).mpr ⟨x, hx, Position.reads_all x⟩
    exact ⟨w, hw, by rw [Way.isWhole, hstop]; rfl⟩

end Regex

end UrlRouting

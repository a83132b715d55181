import UrlRouting.Proofs.Regex.Reading

/-!
# Texts that close the group they are put into

A text is tried as an expression between `^(?:` and `)$`. If it is an expression by itself, then it
is one there, with the same tree. The converse fails in one way only: the text may close the group
that it was put into, as `a)|(?:b` does, and open another one for the parenthesis behind it. Then
some part of it in front of a closing parenthesis is an expression
(`UrlRouting.Regex.ClosesGroup`), and the text by itself is none, since that parenthesis closes
nothing.

So of the texts that can be tried, those that are expressions by themselves are exactly those that do
not close the group (`UrlRouting.Regex.read?_isSome_iff_of_anchored`). The parenthesis that closes the
group is found among the tokens (`UrlRouting.Regex.Syntax.Place.exists_closing`), and the tokens in
front of it are those of the text that stands there (`UrlRouting.Regex.Token.Lexes.alone`).
-/

namespace UrlRouting

namespace Regex

namespace Token

variable {cs mid rest : List Char} {ts us : List Token}

/-- Only a closing parenthesis closes a group. -/
theorem eq_of_read?_closing (h : read? cs = some (.closing, rest)) : cs = ')' :: rest := by
  have hrepeated (bounds : Bounds) (cs : List Char) : repeated bounds cs ≠ (.closing, rest) := by
    unfold repeated
    split <;> exact nofun
  have hopening (cs : List Char) : readOpening? cs ≠ some (.closing, rest) := by
    unfold readOpening?
    split
    case h_7 =>
      split
      · exact nofun
      · split <;> exact nofun
      · exact nofun
    all_goals simp
  cases cs with
  | nil => cases h
  | cons c cs =>
    unfold read? at h
    dsimp only at h
    split at h
    · exact absurd h (hopening cs)
    · cases h
      rfl
    case h_12 => split at h <;> cases h
    all_goals first
      | exact absurd (Option.some.inj h) (hrepeated _ cs)
      | simp [hrepeated] at h

/-- Tokens that are read off a text in two runs. -/
theorem Lexes.of_append (h : Lexes cs (ts ++ us) rest) : ∃ mid, Lexes cs ts mid ∧ Lexes mid us rest := by
  induction ts generalizing cs with
  | nil => exact ⟨cs, .done cs, h⟩
  | cons t ts ih =>
    cases h with
    | step first more =>
      obtain ⟨mid, hts, hus⟩ := ih more
      exact ⟨mid, .step first hts, hus⟩

/-- The tokens that a text begins with are the first ones of all its tokens. -/
theorem Lexes.exists_append (h : Lexes cs ts []) (hus : Lexes cs us mid) :
    ∃ vs, ts = us ++ vs ∧ Lexes mid vs [] := by
  induction hus generalizing ts with
  | done => exact ⟨ts, rfl, h⟩
  | step first _ ih =>
    cases h with
    | done => cases first
    | step first' more =>
      rw [first] at first'
      cases first'
      obtain ⟨vs, rfl, hvs⟩ := ih more
      exact ⟨vs, rfl, hvs⟩

end Token

namespace Syntax

/-! ### The token that closes a group -/

section Places

variable {p q : Place} {t : Token} {ts : List Token} {level : Level} {g : GroupKind × Level}

/-- **A token in a group** is read the same without the group, or closes it. -/
theorem Place.read?_of_within (h : (p.within [g]).read? t = some q) :
    (∃ q', p.read? t = some q' ∧ q = q'.within [g]) ∨ t = .closing ∧ p.around = [] := by
  cases t with
  | closing =>
    obtain ⟨level, around⟩ := p
    cases around with
    | nil => exact Or.inr ⟨rfl, rfl⟩
    | cons g' around =>
      cases h
      exact Or.inl ⟨_, rfl, rfl⟩
  | repetition bounds greedy =>
    obtain ⟨level, hlevel, rfl⟩ := Option.map_eq_some_iff.mp h
    exact Or.inl ⟨_, Option.map_eq_some_iff.mpr ⟨level, hlevel, rfl⟩, rfl⟩
  | _ =>
    cases h
    exact Or.inl ⟨_, rfl, rfl⟩

/-- **A group that is closed in the end** is closed by some token, and those in front of it are read
without the group. -/
theorem Place.exists_closing (h : (p.within [g]).readAll? ts = some ⟨level, []⟩) :
    ∃ us vs inner, ts = us ++ .closing :: vs ∧ p.readAll? us = some ⟨inner, []⟩ := by
  induction ts generalizing p with
  | nil =>
    have heq := Place.mk.inj (Option.some.inj h)
    exact absurd heq.2 (List.append_ne_nil_of_right_ne_nil _ (List.cons_ne_nil _ _))
  | cons t ts ih =>
    rw [readAll?, List.foldlM_cons] at h
    obtain ⟨mid, hmid, hrest⟩ := Option.bind_eq_some_iff.mp h
    obtain ⟨q, hq, rfl⟩ | ⟨rfl, haround⟩ := read?_of_within hmid
    · obtain ⟨us, vs, inner, rfl, hus⟩ := ih hrest
      refine ⟨t :: us, vs, inner, rfl, ?_⟩
      rw [readAll?, List.foldlM_cons, hq]
      exact hus
    · obtain ⟨inner, around⟩ := p
      obtain rfl : around = [] := haround
      exact ⟨[], ts, inner, rfl, rfl⟩

end Places

/-- **The tree of a text** is the one that its tokens build. -/
theorem read?_eq_some_iff {x : List Char} {s : Syntax} : read? (String.ofList x) = some s ↔
    ∃ ts level, Token.Lexes x ts [] ∧ Place.readAll? ⟨.start, []⟩ ts = some ⟨level, []⟩ ∧
      level.tree = s := by
  rw [read?, Option.bind_eq_some_iff]
  constructor
  · rintro ⟨ts, hts, htree⟩
    obtain ⟨hlex, -⟩ := Token.ofText?_eq_some_iff.mp hts
    rw [String.toList_ofList] at hlex
    unfold ofTokens? at htree
    split at htree
    · rename_i level hread
      exact ⟨ts, level, hlex, hread, Option.some.inj htree⟩
    · cases htree
  · rintro ⟨ts, level, hlex, hread, rfl⟩
    refine ⟨ts, Token.ofText?_eq_some_iff.mpr ?_, ?_⟩
    · rw [String.toList_ofList]
      exact ⟨hlex, hlex.length_le⟩
    · rw [ofTokens?, hread]

end Syntax

/-! ### Texts in a group -/

/-- **A text that closes the group it is put into**: what stands in front of some closing parenthesis
in it is an expression by itself. -/
def ClosesGroup (source : String) : Prop :=
  ∃ x y, source.toList = x ++ ')' :: y ∧ (Syntax.read? (String.ofList x)).isSome

theorem not_closesGroup {source : String} (h : ')' ∉ source.toList) : ¬ClosesGroup source := by
  rintro ⟨x, y, hsource, -⟩
  rw [hsource] at h
  exact h (List.mem_append_right x List.mem_cons_self)

/-- A text that closes a group is no expression by itself. -/
theorem ClosesGroup.read?_eq_none {source : String} (h : ClosesGroup source) :
    Syntax.read? source = none := by
  obtain ⟨x, y, hsource, hx⟩ := h
  obtain ⟨s, hs⟩ := Option.isSome_iff_exists.mp hx
  obtain ⟨us, inner, hus, hread, -⟩ := Syntax.read?_eq_some_iff.mp hs
  refine Option.eq_none_iff_forall_ne_some.mpr fun t ht => ?_
  rw [← String.ofList_toList (s := source), hsource] at ht
  obtain ⟨ts, level, hts, hall, -⟩ := Syntax.read?_eq_some_iff.mp ht
  -- the parenthesis is read where no group is open
  obtain ⟨vs, rfl, hvs⟩ := hts.exists_append (hus.inGroup y)
  cases hvs with
  | step first more =>
    cases first
    rw [Syntax.Place.readAll?_append, hread] at hall
    cases hall

/-- Where a text that is anchored is read, the text or a part in front of a closing parenthesis is an
expression. -/
theorem read?_isSome_or_closesGroup {source : String}
    (h : (Syntax.read? (anchored source)).isSome) :
    (Syntax.read? source).isSome ∨ ClosesGroup source := by
  obtain ⟨t, ht⟩ := Option.isSome_iff_exists.mp h
  rw [← String.ofList_toList (s := anchored source)] at ht
  obtain ⟨ts, level, hts, hall, -⟩ := Syntax.read?_eq_some_iff.mp ht
  have hanchored : (anchored source).toList = '^' :: ("(?:".toList ++ (source.toList ++ [')', '$'])) := by
    simp [anchored, String.toList_append]
  rw [hanchored] at hts
  -- the caret and the opening of the group
  have hfront : Token.Lexes ('^' :: ("(?:".toList ++ (source.toList ++ [')', '$'])))
      [.caret, .opening (.plain ⟨[], []⟩)] (source.toList ++ [')', '$']) :=
    .step rfl (.single (Syntax.opens_plain.2 _))
  obtain ⟨ws, rfl, hws⟩ := hts.exists_append hfront
  rw [Syntax.Place.readAll?_append] at hall
  obtain ⟨us, vs, inner, rfl, hus⟩ :=
    Syntax.Place.exists_closing (p := ⟨.start, []⟩) (g := (.plain ⟨[], []⟩, ⟨[], [.caret]⟩)) hall
  obtain ⟨mid, husMid, hvs⟩ := hws.of_append
  cases hvs with
  | @step _ z _ _ _ first _ =>
    obtain rfl := Token.eq_of_read?_closing first
    obtain ⟨x, hx⟩ := husMid.suffix
    rw [← hx] at husMid
    have halone : Syntax.read? (String.ofList x) = some inner.tree :=
      Syntax.read?_eq_some_iff.mpr ⟨us, inner, husMid.alone, hus, rfl⟩
    have hsome : (Syntax.read? (String.ofList x)).isSome := halone ▸ rfl
    -- the parenthesis is the one behind the text, or one in it
    rcases List.append_eq_append_iff.mp hx with ⟨_ | ⟨c, y⟩, hsource, hz⟩ | ⟨_ | ⟨c, y⟩, rfl, hz⟩
    · rw [List.append_nil] at hsource
      rw [← hsource, String.ofList_toList] at hsome
      exact Or.inl hsome
    · obtain ⟨rfl, -⟩ := List.cons.inj hz
      exact Or.inr ⟨x, y, hsource, hsome⟩
    · rw [List.append_nil, String.ofList_toList] at hsome
      exact Or.inl hsome
    · obtain ⟨-, hdollar⟩ := List.cons.inj hz
      rcases y with _ | ⟨d, y⟩
      · cases hdollar
      · have hnil := (List.cons.inj hdollar).2
        exact absurd hnil.symm (List.append_ne_nil_of_right_ne_nil y (List.cons_ne_nil _ z))

/-- **Texts that can be tried are expressions by themselves**, unless they close the group that they
are tried in. -/
theorem read?_isSome_iff_of_anchored {source : String}
    (h : (Syntax.read? (anchored source)).isSome) :
    (Syntax.read? source).isSome ↔ ¬ClosesGroup source := by
  constructor
  · intro hsome hcloses
    rw [hcloses.read?_eq_none] at hsome
    cases hsome
  · exact (read?_isSome_or_closesGroup h).resolve_right

/-- The tree of an expression between anchors. -/
theorem read?_anchored {source : String} {s : Syntax} (h : Syntax.read? source = some s) :
    Syntax.read? (anchored source) =
      some (.seq (.seq .caret (.group (.plain ⟨[], []⟩) s)) .dollar) := by
  have hcloses : Syntax.Closes source.toList s :=
    Syntax.closes_of_read? (by rwa [String.ofList_toList])
  have hgroup := hcloses.stands Syntax.opens_plain (Syntax.means_group s)
  have hall := (Syntax.stands_caret.append hgroup).append Syntax.stands_dollar
  have hsource : String.ofList (['^'] ++ ("(?:".toList ++ source.toList ++ [')']) ++ ['$']) =
      anchored source := by
    refine String.toList_injective ?_
    simp [anchored, String.toList_append]
  rw [← hsource]
  exact hall.read?_eq

end Regex

end UrlRouting

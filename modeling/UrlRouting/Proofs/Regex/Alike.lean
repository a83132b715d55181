import UrlRouting.Proofs.Regex.Relation
import UrlRouting.Proofs.Regex.Tokens

/-!
# Trees that differ in captures and preferences

Two trees are alike (`UrlRouting.Regex.Syntax.Alike`) if they differ at most in the kinds of their
groups and in whether their repetitions are greedy. Which kinds may stand for each other is left
open; kinds that change the same flags lead to trees that lead the same ways
(`UrlRouting.Regex.Syntax.Alike.spans_iff`), since neither captures nor preferences have a part in
where a tree leads.

The tree of a text is built token by token, and what a token does depends on neither of the two. So
tokens that are alike build trees that are alike (`UrlRouting.Regex.Syntax.exists_alike`). The one
thing that a token looks at is whether the last item can be repeated, which a change of flags
cannot.
-/

namespace UrlRouting

namespace Regex

/-- The names that a group of the given kind has. -/
def GroupKind.names : GroupKind → List String
  | .capture (some name) => [name]
  | .capture none | .plain _ => []

/-- The kind of the group that does not capture. -/
def GroupKind.uncaptured : GroupKind → GroupKind
  | .capture _ => .plain ⟨[], []⟩
  | .plain change => .plain change

theorem GroupKind.exists_uncaptured_eq (k : GroupKind) :
    ∃ change, k.uncaptured = .plain change := by
  cases k <;> exact ⟨_, rfl⟩

theorem GroupKind.names_uncaptured (k : GroupKind) : k.uncaptured.names = [] := by
  cases k <;> rfl

theorem GroupKind.change_uncaptured (k : GroupKind) : k.uncaptured.change = k.change := by
  cases k <;> rfl

/-! ### Trees -/

namespace Syntax

/-- Does the tree have no parts? -/
def isLeaf : Syntax → Bool
  | .group _ _ | .repetition _ _ _ | .seq _ _ | .alt _ _ => false
  | _ => true

/-- **Trees that are alike**: kinds of groups may be exchanged for related ones, and repetitions may
be greedy or not. -/
inductive Alike (R : GroupKind → GroupKind → Prop) : Syntax → Syntax → Prop
  /-- Trees without parts are the same. -/
  | leaf {s : Syntax} (h : s.isLeaf = true) : Alike R s s
  /-- Groups have related kinds. -/
  | group {k k' : GroupKind} {b b' : Syntax} (hk : R k k') (hb : Alike R b b') :
      Alike R (.group k b) (.group k' b')
  /-- Repetitions have the same bounds. -/
  | repetition {b b' : Syntax} (bounds : Bounds) (greedy greedy' : Bool) (hb : Alike R b b') :
      Alike R (.repetition b bounds greedy) (.repetition b' bounds greedy')
  /-- One after the other. -/
  | seq {a a' b b' : Syntax} (ha : Alike R a a') (hb : Alike R b b') :
      Alike R (.seq a b) (.seq a' b')
  /-- One or the other. -/
  | alt {a a' b b' : Syntax} (ha : Alike R a a') (hb : Alike R b b') :
      Alike R (.alt a b) (.alt a' b')

/-- Does no group in the tree capture? -/
def capturesNothing (s : Syntax) : Bool := s.all (fun _ => true) (fun _ => false)

theorem names_group (k : GroupKind) (body : Syntax) :
    (group k body).names = k.names ++ body.names := by
  rcases k with (_ | name) | change <;> rfl

/-- A group leaves the flags as they were. -/
theorem flags_group (k : GroupKind) (body : Syntax) (given : Flags) :
    ((group k body).meaning given).2 = given := by
  cases k <;> rfl

namespace Alike

variable {R : GroupKind → GroupKind → Prop} {s t : Syntax}

theorem depthWithin_eq (h : Alike R s t) (w : Within) : t.depthWithin w = s.depthWithin w := by
  induction h generalizing w with
  | leaf h => rfl
  | group hk hb ih => rw [depthWithin, depthWithin, ih]
  | repetition bounds greedy greedy' hb ih => rw [depthWithin, depthWithin, ih]
  | seq ha hb iha ihb => rw [depthWithin, depthWithin, iha, ihb]
  | alt ha hb iha ihb => rw [depthWithin, depthWithin, iha, ihb]

/-- **Trees that are alike nest equally deep.** -/
theorem depth_eq (h : Alike R s t) : t.depth = s.depth := h.depthWithin_eq .neither

/-- If no kind is exchanged for one with another name, no name appears. -/
theorem names_sublist (hR : ∀ k k', R k k' → k'.names.Sublist k.names) (h : Alike R s t) :
    t.names.Sublist s.names := by
  induction h with
  | leaf h => exact List.Sublist.refl _
  | group hk hb ih =>
    rw [names_group, names_group]
    exact (hR _ _ hk).append ih
  | repetition bounds greedy greedy' hb ih => exact ih
  | seq ha hb iha ihb => exact iha.append ihb
  | alt ha hb iha ihb => exact iha.append ihb

/-- If all kinds are exchanged for ones that do not capture, nothing captures. -/
theorem capturesNothing (hR : ∀ k k', R k k' → ∃ change, k' = .plain change) (h : Alike R s t) :
    t.capturesNothing = true := by
  induction h with
  | @leaf s h => cases s <;> first | rfl | cases h
  | group hk hb ih =>
    obtain ⟨change, rfl⟩ := hR _ _ hk
    exact ih
  | repetition bounds greedy greedy' hb ih => exact ih
  | seq ha hb iha ihb => exact Bool.and_eq_true_iff.mpr ⟨iha, ihb⟩
  | alt ha hb iha ihb => exact Bool.and_eq_true_iff.mpr ⟨iha, ihb⟩

theorem sets {set : CharSet → Prop} (h : Alike R s t) (hs : s.Sets set) : t.Sets set := by
  induction h with
  | leaf h => exact hs
  | group hk hb ih => exact ih hs
  | repetition bounds greedy greedy' hb ih => exact ih hs
  | seq ha hb iha ihb => exact ⟨iha hs.1, ihb hs.2⟩
  | alt ha hb iha ihb => exact ⟨iha hs.1, ihb hs.2⟩

/-- Behind trees that are alike the same flags are in force. -/
theorem flags_eq (h : Alike R s t) (given : Flags) : (t.meaning given).2 = (s.meaning given).2 := by
  induction h generalizing given with
  | leaf h => rfl
  | group hk hb ih => rw [flags_group, flags_group]
  | repetition bounds greedy greedy' hb ih => rfl
  | seq ha hb iha ihb | alt ha hb iha ihb =>
    rw [meaning, meaning]
    dsimp only
    rw [iha, ihb]

/-- **Trees that are alike lead the same ways**, if kinds are exchanged for ones that change the
same flags. -/
theorem spans_iff (hR : ∀ k k', R k k' → k'.change = k.change) (h : Alike R s t) (given : Flags)
    (P Q : Position) : t.Spans given P Q ↔ s.Spans given P Q := by
  induction h generalizing given P Q with
  | leaf h => exact Iff.rfl
  | group hk hb ih =>
    rw [Spans, Spans, hR _ _ hk]
    exact ih _ P Q
  | repetition bounds greedy greedy' hb ih => exact roundsWithin_congr (ih given) bounds P Q
  | seq ha hb iha ihb =>
    rw [Spans, Spans, ha.flags_eq]
    exact exists_congr fun M => and_congr (iha given P M) (ihb _ M Q)
  | alt ha hb iha ihb =>
    rw [Spans, Spans, ha.flags_eq]
    exact or_congr (iha given P Q) (ihb _ P Q)

/-- **The expressions of trees that are alike lead the same ways.** -/
theorem reaches_iff (hR : ∀ k k', R k k' → k'.change = k.change) (h : Alike R s t)
    (hset : s.Sets CharSet.IsProper) {P Q : Position} :
    Reaches t.expr.ways P Q ↔ Reaches s.expr.ways P Q :=
  (reaches_meaning_iff (h.sets hset) {}).trans
    ((h.spans_iff hR {} P Q).trans (reaches_meaning_iff hset {}).symm)

/-- **Trees that are alike match the same texts.** -/
theorem isSome_find?_eq (hR : ∀ k k', R k k' → k'.change = k.change) (h : Alike R s t)
    (hset : s.Sets CharSet.IsProper) (text : String) :
    (t.expr.find? text).isSome = (s.expr.find? text).isSome := by
  rw [Bool.eq_iff_iff, Expr.isSome_find?_iff, Expr.isSome_find?_iff]
  simp only [h.reaches_iff hR hset]

end Alike

end Syntax

/-! ### Tokens -/

/-- **Tokens that are alike.** -/
inductive Token.Alike (R : GroupKind → GroupKind → Prop) : Token → Token → Prop
  /-- Tokens that open no group may be the same. -/
  | same {t : Token} (h : t.isOpening = false) : Alike R t t
  /-- Groups have related kinds. -/
  | opening {k k' : GroupKind} (hk : R k k') : Alike R (.opening k) (.opening k')
  /-- Repetitions have the same bounds. -/
  | repetition (bounds : Bounds) (greedy greedy' : Bool) :
      Alike R (.repetition bounds greedy) (.repetition bounds greedy')

/-- A repetition may be made lazy. -/
theorem Token.Alike.lazy {R : GroupKind → GroupKind → Prop} {t : Token} {bounds : Bounds}
    (h : Alike R t (.repetition bounds true)) : Alike R t (.repetition bounds false) := by
  cases h with
  | same => exact .repetition bounds true false
  | repetition bounds greedy => exact .repetition bounds greedy false

/-- The last of some tokens may be made lazy. -/
theorem Token.Alike.lazy_last {R : GroupKind → GroupKind → Prop} {ts us : List Token}
    {bounds : Bounds} (h : List.Forall₂ (Alike R) ts (us ++ [.repetition bounds true])) :
    List.Forall₂ (Alike R) ts (us ++ [.repetition bounds false]) := by
  induction us generalizing ts with
  | nil =>
    cases h with
    | cons ht hts => exact .cons ht.lazy hts
  | cons u us ih =>
    cases h with
    | cons ht hts => exact .cons ht (ih hts)

namespace Syntax

variable {R : GroupKind → GroupKind → Prop}

/-- Levels at which everything is alike. -/
structure Level.Alike (R : GroupKind → GroupKind → Prop) (l l' : Level) : Prop where
  /-- The complete alternatives are alike. -/
  branches : List.Forall₂ (Syntax.Alike R) l.branches l'.branches
  /-- The items of the current alternative are alike. -/
  items : List.Forall₂ (Syntax.Alike R) l.items l'.items

/-- Places at which everything is alike. -/
structure Place.Alike (R : GroupKind → GroupKind → Prop) (p p' : Place) : Prop where
  /-- The innermost levels are alike. -/
  level : Level.Alike R p.level p'.level
  /-- The open groups have related kinds, and the levels they stand in are alike. -/
  around : List.Forall₂ (fun g g' => R g.1 g'.1 ∧ Level.Alike R g.2 g'.2) p.around p'.around

theorem alike_ofItems {items items' : List Syntax} (h : List.Forall₂ (Alike R) items items') :
    Alike R (ofItems items) (ofItems items') := by
  induction h with
  | nil => exact .leaf rfl
  | cons hitem hitems ih =>
    cases hitems with
    | nil => exact hitem
    | cons => exact .seq ih hitem

theorem alike_ofBranches {branches branches' : List Syntax}
    (h : List.Forall₂ (Alike R) branches branches') :
    Alike R (ofBranches branches) (ofBranches branches') := by
  induction h with
  | nil => exact .leaf rfl
  | cons hbranch hbranches ih =>
    cases hbranches with
    | nil => exact hbranch
    | cons => exact .alt ih hbranch

section Levels

variable {l l' : Level} {s s' : Syntax}

theorem Level.Alike.push (h : Level.Alike R l l') (hs : Syntax.Alike R s s') :
    Level.Alike R (l.push s) (l'.push s') :=
  ⟨h.branches, .cons hs h.items⟩

theorem Level.Alike.bar (h : Level.Alike R l l') : Level.Alike R l.bar l'.bar :=
  ⟨.cons (alike_ofItems h.items) h.branches, .nil⟩

theorem Level.Alike.tree (h : Level.Alike R l l') : Syntax.Alike R l.tree l'.tree :=
  alike_ofBranches (.cons (alike_ofItems h.items) h.branches)

/-- **Items that are alike can both be repeated**, or none of them can. -/
theorem Level.Alike.repeat? (h : Level.Alike R l l') {m : Level} {bounds : Bounds} {greedy : Bool}
    (hm : l.repeat? bounds greedy = some m) (greedy' : Bool) :
    ∃ m', l'.repeat? bounds greedy' = some m' ∧ Level.Alike R m m' := by
  obtain ⟨branches, items⟩ := l
  obtain ⟨branches', items'⟩ := l'
  obtain ⟨hbranches, hitems⟩ := h
  cases hitems with
  | nil => cases hm
  | @cons item item' items items' hitem hitems =>
    have hmore : Level.Alike R ⟨branches, .repetition item bounds greedy :: items⟩
        ⟨branches', .repetition item' bounds greedy' :: items'⟩ :=
      ⟨hbranches, .cons (.repetition bounds greedy greedy' hitem) hitems⟩
    cases hitem with
    | @leaf item hleaf =>
      cases item with
      | flags c => cases hm
      | group | repetition | seq | alt => cases hleaf
      | _ =>
        cases hm
        exact ⟨_, rfl, hmore⟩
    | _ =>
      cases hm
      exact ⟨_, rfl, hmore⟩

end Levels

section Places

variable {p p' q : Place} {t t' : Token} {ts ts' : List Token}

/-- **A token leads from places that are alike to places that are alike.** -/
theorem Place.Alike.read? (h : Place.Alike R p p') (ht : Token.Alike R t t')
    (hq : p.read? t = some q) : ∃ q', p'.read? t' = some q' ∧ Place.Alike R q q' := by
  have hpush {s : Syntax} (hs : s.isLeaf = true) : Place.Alike R (p.push s) (p'.push s) :=
    ⟨h.level.push (.leaf hs), h.around⟩
  -- a repetition, whether it is the same or not
  have hrepeat {bounds : Bounds} {greedy : Bool} (greedy' : Bool)
      (hq : p.read? (.repetition bounds greedy) = some q) :
      ∃ q', p'.read? (.repetition bounds greedy') = some q' ∧ Place.Alike R q q' := by
    obtain ⟨m, hm, rfl⟩ := Option.map_eq_some_iff.mp hq
    obtain ⟨m', hm', halike⟩ := h.level.repeat? hm greedy'
    exact ⟨_, Option.map_eq_some_iff.mpr ⟨m', hm', rfl⟩, halike, h.around⟩
  cases ht with
  | opening hk =>
    cases hq
    exact ⟨_, rfl, ⟨.nil, .nil⟩, .cons ⟨hk, h.level⟩ h.around⟩
  | repetition bounds greedy greedy' => exact hrepeat greedy' hq
  | same hopening =>
    cases t with
    | opening kind => cases hopening
    | repetition bounds greedy => exact hrepeat greedy hq
    | closing =>
      obtain ⟨level, around⟩ := p
      obtain ⟨level', around'⟩ := p'
      obtain ⟨hlevel, haround⟩ := h
      cases haround with
      | nil => cases hq
      | cons hg haround =>
        cases hq
        exact ⟨_, rfl, hg.2.push (.group hg.1 hlevel.tree), haround⟩
    | bar =>
      cases hq
      exact ⟨_, rfl, h.level.bar, h.around⟩
    | _ =>
      cases hq
      exact ⟨_, rfl, hpush rfl⟩

theorem Place.Alike.readAll? (h : Place.Alike R p p') (hts : List.Forall₂ (Token.Alike R) ts ts')
    (hq : p.readAll? ts = some q) : ∃ q', p'.readAll? ts' = some q' ∧ Place.Alike R q q' := by
  induction hts generalizing p p' with
  | nil =>
    cases hq
    exact ⟨p', rfl, h⟩
  | cons ht hts ih =>
    rw [Place.readAll?, List.foldlM_cons] at hq
    obtain ⟨mid, hmid, hrest⟩ := Option.bind_eq_some_iff.mp hq
    obtain ⟨mid', hmid', hmids⟩ := h.read? ht hmid
    obtain ⟨q', hq', hqs⟩ := ih hmids hrest
    refine ⟨q', ?_, hqs⟩
    rw [Place.readAll?, List.foldlM_cons]
    exact Option.bind_eq_some_iff.mpr ⟨mid', hmid', hq'⟩

/-- **Tokens that are alike build trees that are alike.** -/
theorem exists_alike {level : Level} (hts : List.Forall₂ (Token.Alike R) ts ts')
    (h : Place.readAll? ⟨.start, []⟩ ts = some ⟨level, []⟩) :
    ∃ level', Place.readAll? ⟨.start, []⟩ ts' = some ⟨level', []⟩ ∧
      Alike R level.tree level'.tree := by
  have hstart : Place.Alike R ⟨.start, []⟩ ⟨.start, []⟩ := ⟨⟨.nil, .nil⟩, .nil⟩
  obtain ⟨⟨level', around⟩, hread, hlevel, haround⟩ := hstart.readAll? hts h
  cases haround
  exact ⟨level', hread, hlevel.tree⟩

end Places

end Syntax

end Regex

end UrlRouting

import UrlRouting.Proofs.Regex.Readers
import UrlRouting.Regex.ClassSet

/-!
# The text of a class

A class is determined by its text: it ends at a bracket, and nothing behind it has a say in it.
Inside of it that is less clear, since a range has to look two characters ahead and a bracket may
open a named class; but what they look at are characters of the class still, its closing bracket the
last (`UrlRouting.Regex.ClassSet.readOn?_determined`).

The text says by its brackets where the class ends (`UrlRouting.Regex.ClassSet.Inside`): outside of
escapes, every opening bracket opens a class and every closing one closes one, but for a closing
bracket right behind an opening one or its negation. There is one exception, an opening bracket that
is the end of a range, as in `[!-[]`; so this is noted, and can be read off the class
(`UrlRouting.Regex.ClassSet.noRangeTo`).
-/

namespace UrlRouting

namespace Regex

namespace ClassSet

/-! ### Tests of classes -/

/-- Do all characters, ranges, properties and named classes in the class pass a test? -/
def all (p : ClassSet → Bool) : ClassSet → Bool
  | .nothing => true
  | .union items last => items.all p && last.all p
  | .op _ left right => left.all p && right.all p
  | .bracket _ inner => inner.all p
  | .char c => p (.char c)
  | .range lo hi => p (.range lo hi)
  | .property q negated => p (.property q negated)
  | .ascii ranges negated => p (.ascii ranges negated)

/-- Is it no range that ends in the given character? -/
def noRangeTo (d : Char) : ClassSet → Bool
  | .range _ hi => hi != d
  | _ => true

/-- Does no range end in front of its start? -/
def isOrdered : ClassSet → Bool
  | .range lo hi => lo ≤ hi
  | .ascii ranges _ => ranges.all fun r => r.1 ≤ r.2
  | _ => true

section All

variable {p : ClassSet → Bool} {o : Open} {item : ClassSet}

theorem all_ofItems (p : ClassSet → Bool) (items : List ClassSet) :
    (ofItems items).all p = items.all (all p) := by
  induction items with
  | nil => rfl
  | cons item items ih =>
    cases items with
    | nil => simp [ofItems]
    | cons item' items =>
      change ((ofItems (item' :: items)).all p && item.all p) = _
      rw [ih, Bool.and_comm]
      rfl

theorem all_push : (o.push item).tree.all p = (o.tree.all p && item.all p) := by
  obtain ⟨negated, pending, items⟩ := o
  cases pending with
  | none => simp [Open.push, Open.tree, all_ofItems, Bool.and_comm]
  | some waiting =>
    simp [Open.push, Open.tree, all, all_ofItems, Bool.and_comm, Bool.and_left_comm,
      Bool.and_assoc]

theorem all_operator (operator : SetOp) : (o.operator operator).tree.all p = o.tree.all p := by
  simp [Open.operator, Open.tree, all, ofItems]

end All

/-! ### Brackets -/

/-- What stands right behind the opening bracket of a class, and belongs to it: a negation, and a
closing bracket that is plain. -/
inductive Opening : List Char → List Char → Prop
  /-- Neither. -/
  | plain {x : List Char} (hcaret : x.head? ≠ some '^') (hbracket : x.head? ≠ some ']') :
    Opening [] x
  /-- A negation. -/
  | negated {x : List Char} (hbracket : x.head? ≠ some ']') : Opening ['^'] x
  /-- A closing bracket. -/
  | bracket (x : List Char) : Opening [']'] x
  /-- A negation and a closing bracket. -/
  | negatedBracket (x : List Char) : Opening ['^', ']'] x

/-- **The text of a class from some place on**, in so many other classes. The end of a range may be
an opening bracket, if there is a `wild` one. -/
inductive Inside (wild : Prop) : Nat → List Char → Prop
  /-- The end of the class. -/
  | close : Inside wild 0 [']']
  /-- The end of a class in another one. -/
  | closeInner {n : Nat} {x : List Char} (h : Inside wild n x) : Inside wild (n + 1) (']' :: x)
  /-- A character that is neither a bracket nor a backslash. -/
  | plain {n : Nat} {x : List Char} {c : Char} (hc : c ≠ '\\' ∧ c ≠ '[' ∧ c ≠ ']')
      (h : Inside wild n x) : Inside wild n (c :: x)
  /-- A character behind a backslash. -/
  | escaped {n : Nat} {x : List Char} (c : Char) (h : Inside wild n x) :
      Inside wild n ('\\' :: c :: x)
  /-- A class in the class. -/
  | opening {n : Nat} {m x : List Char} (hm : Opening m x) (h : Inside wild (n + 1) x) :
      Inside wild n ('[' :: m ++ x)
  /-- An opening bracket that is the end of a range. -/
  | rangeEnd {n : Nat} {x : List Char} (hwild : wild) (h : Inside wild n x) :
      Inside wild n ('[' :: x)

theorem Opening.congr {m x x' : List Char} (h : Opening m x) (hx : SameHead x x') :
    Opening m x' := by
  cases h with
  | plain hcaret hbracket => exact .plain (hx ▸ hcaret) (hx ▸ hbracket)
  | negated hbracket => exact .negated (hx ▸ hbracket)
  | bracket => exact .bracket _
  | negatedBracket => exact .negatedBracket _

section Inside

variable {wild : Prop} {n : Nat} {x y : List Char}

theorem Inside.append_of_plain (hy : ∀ c ∈ y, c ≠ '\\' ∧ c ≠ '[' ∧ c ≠ ']') (h : Inside wild n x) :
    Inside wild n (y ++ x) := by
  induction y with
  | nil => exact h
  | cons c y ih =>
    obtain ⟨hc, hy⟩ := List.forall_mem_cons.mp hy
    exact .plain hc (ih hy)

theorem Inside.append_of_quiet (hy : Quiet y) (h : Inside wild n x) : Inside wild n (y ++ x) := by
  refine h.append_of_plain fun c hc => ?_
  have hloud := hy c hc
  refine ⟨?_, ?_, ?_⟩ <;>
  · rintro rfl
    exact hloud (by decide)

end Inside

/-! ### The start of a class -/

theorem readDashes_determined (o : Open) (cs : List Char) :
    ∃ ds, cs = ds ++ (readDashes o cs).2 ∧ (∀ c ∈ ds, c = '-') ∧
      ((readDashes o cs).1.items = [] ↔ ds = [] ∧ o.items = []) ∧
      (readDashes o cs).2.head? ≠ some '-' ∧
      ∀ r, SameHead (readDashes o cs).2 r → readDashes o (ds ++ r) = ((readDashes o cs).1, r) := by
  fun_induction readDashes o cs with
  | case1 o cs ih =>
    obtain ⟨ds, hcs, hds, hitems, hhead, hagain⟩ := ih
    refine ⟨'-' :: ds, congrArg ('-' :: ·) hcs, List.forall_mem_cons.mpr ⟨rfl, hds⟩, ?_, hhead,
      fun r hr => hagain r hr⟩
    rw [hitems]
    simp [Open.push]
  | case2 o cs hno =>
    have hhead : cs.head? ≠ some '-' := by
      intro h
      obtain ⟨t, rfl⟩ := List.head?_eq_some_iff.mp h
      exact hno t rfl
    refine ⟨[], rfl, List.forall_mem_nil _, by simp, hhead, fun r hr => ?_⟩
    rw [List.nil_append, readDashes]
    rintro t rfl
    exact hhead hr

/-- The start of a class behind its negation. -/
theorem startBehind_determined (negated : Bool) (cs : List Char) :
    ∃ b ds, cs = b ++ ds ++ (startBehind negated cs).2 ∧ (∀ c ∈ ds, c = '-') ∧
      (b = [']'] ∨ b = [] ∧ (ds ++ (startBehind negated cs).2).head? ≠ some ']') ∧
      ∀ r, SameHead (startBehind negated cs).2 r →
        startBehind negated (b ++ ds ++ r) = ((startBehind negated cs).1, r) := by
  obtain ⟨ds, hcs, hds, hitems, hhead, hagain⟩ := readDashes_determined ⟨negated, none, []⟩ cs
  unfold startBehind
  generalize readDashes ⟨negated, none, []⟩ cs = started at hcs hitems hhead hagain ⊢
  split
  · rename_i rest
    obtain ⟨rfl, -⟩ := hitems.mp rfl
    exact ⟨[']'], [], hcs, List.forall_mem_nil _, Or.inl rfl, fun r _ => rfl⟩
  · rename_i hno
    obtain ⟨⟨n, p, items⟩, rest⟩ := started
    refine ⟨[], ds, hcs, hds, Or.inr ⟨rfl, ?_⟩, fun r hr => ?_⟩
    · -- a bracket right at the start would have been the other case
      intro h
      cases ds with
      | nil =>
        obtain ⟨t, rfl⟩ := List.head?_eq_some_iff.mp h
        obtain rfl := hitems.mpr ⟨rfl, rfl⟩
        exact hno _ _ t rfl
      | cons d ds =>
        obtain rfl := Option.some.inj h
        exact absurd (hds ']' List.mem_cons_self) (by decide)
    · rw [List.nil_append, hagain r hr]
      split
      · rename_i heq
        obtain ⟨ho, rfl⟩ := Prod.mk.inj heq
        obtain ⟨t, rfl⟩ := List.head?_eq_some_iff.mp hr
        cases ho
        exact absurd rfl (hno _ _ t)
      · rfl

/-- **The start of a class is determined by its text**, and by the character behind it. -/
theorem readStart_determined (cs : List Char) :
    ∃ m ds, cs = m ++ ds ++ (readStart cs).2 ∧ (∀ c ∈ ds, c = '-') ∧
      Opening m (ds ++ (readStart cs).2) ∧
      ∀ r, SameHead (readStart cs).2 r → readStart (m ++ ds ++ r) = ((readStart cs).1, r) := by
  by_cases hcaret : ∃ t, cs = '^' :: t
  · obtain ⟨t, rfl⟩ := hcaret
    obtain ⟨b, ds, ht, hds, hb, hagain⟩ := startBehind_determined true t
    refine ⟨'^' :: b, ds, congrArg ('^' :: ·) ht, hds, ?_, fun r hr => hagain r hr⟩
    obtain rfl | ⟨rfl, hhead⟩ := hb
    · exact .negatedBracket _
    · exact .negated hhead
  · have hread : readStart cs = startBehind false cs := by
      rw [readStart]
      exact fun t ht => hcaret ⟨t, ht⟩
    rw [hread]
    obtain ⟨b, ds, hcs, hds, hb, hagain⟩ := startBehind_determined false cs
    have hhead : (b ++ ds ++ (startBehind false cs).2).head? ≠ some '^' := by
      rw [← hcs]
      exact fun h => hcaret (List.head?_eq_some_iff.mp h)
    refine ⟨b, ds, hcs, hds, ?_, fun r hr => ?_⟩
    · obtain rfl | ⟨rfl, hbracket⟩ := hb
      · exact .bracket _
      · exact .plain hhead hbracket
    · have hsame := (SameHead.append hr (b ++ ds)).symm
      rw [readStart]
      · exact hagain r hr
      · rintro t ht
        rw [ht] at hsame
        exact hhead hsame.symm

/-! ### Named classes -/

/-- No name of a class has a bracket or a backslash in it, and the ranges of a class are ordered. -/
theorem of_asciiClass? {name : List Char} {ranges : List (Char × Char)}
    (h : asciiClass? (String.ofList name) = some ranges) :
    (∀ c ∈ name, c ≠ '\\' ∧ c ≠ '[' ∧ c ≠ ']') ∧ ranges.all (fun r => r.1 ≤ r.2) = true := by
  obtain ⟨front, behind, htable, -⟩ := List.lookup_eq_some_iff.mp h
  have hmem : (String.ofList name, ranges) ∈ front ++ (String.ofList name, ranges) :: behind :=
    List.mem_append_right front List.mem_cons_self
  have hall : (front ++ (String.ofList name, ranges) :: behind).all (fun p =>
      p.1.toList.all (fun c => c != '\\' && c != '[' && c != ']') &&
        p.2.all fun r => r.1 ≤ r.2) = true := by
    rw [← htable]
    decide
  obtain ⟨hname, hordered⟩ := Bool.and_eq_true_iff.mp (List.all_eq_true.mp hall _ hmem)
  rw [String.toList_ofList] at hname
  refine ⟨fun c hc => ?_, hordered⟩
  have hne := List.all_eq_true.mp hname c hc
  simp only [Bool.and_eq_true, bne_iff_ne] at hne
  exact ⟨hne.1.1, hne.1.2, hne.2⟩

/-- The text of a named class behind its bracket: no bracket and no backslash is in it but the last
bracket. -/
def NamedText (x : List Char) : Prop :=
  ∃ y, x = ':' :: y ++ [']'] ∧ ∀ c ∈ y, c ≠ '\\' ∧ c ≠ '[' ∧ c ≠ ']'

theorem determined_readAsciiName? (negated : Bool) :
    Determined (fun item x => item.all isOrdered = true ∧
        ∃ y, x = y ++ [']'] ∧ ∀ c ∈ y, c ≠ '\\' ∧ c ≠ '[' ∧ c ≠ ']')
      (fun _ _ _ => True) (readAsciiName? negated) := by
  intro cs item rest h
  unfold readAsciiName? at h
  obtain ⟨name, r, rfl, htake, hdrop, hname, -⟩ := exists_cut (· != ':') cs
  rw [htake, hdrop] at h
  split at h
  · rename_i behind
    obtain ⟨ranges, hranges, heq⟩ := Option.map_eq_some_iff.mp h
    obtain ⟨rfl, rfl⟩ := Prod.mk.inj heq
    obtain ⟨hplain, hordered⟩ := of_asciiClass? hranges
    refine ⟨name ++ [':', ']'], by simp, ⟨hordered, name ++ [':'], by simp, ?_⟩, fun rest' _ => ?_⟩
    · exact List.forall_mem_append.mpr ⟨hplain, List.forall_mem_singleton.mpr (by decide)⟩
    · unfold readAsciiName?
      simp only [List.append_assoc, List.cons_append, List.nil_append, cut_mark hname, hranges]
      rfl
  · cases h

/-- **A named class is determined by its text.** -/
theorem determined_readAscii? :
    Determined (fun item x => item.all isOrdered = true ∧ NamedText x) (fun _ _ _ => True)
      readAscii? := by
  intro cs item rest h
  unfold readAscii? at h
  split at h
  · rename_i cs
    obtain ⟨x, rfl, ⟨hordered, y, rfl, hy⟩, hagain⟩ := determined_readAsciiName? true h
    refine ⟨':' :: '^' :: (y ++ [']']), rfl, ⟨hordered, '^' :: y, rfl, ?_⟩, fun rest' _ => ?_⟩
    · exact List.forall_mem_cons.mpr ⟨by decide, hy⟩
    · exact hagain rest' trivial
  · rename_i cs hcaret
    obtain ⟨x, rfl, ⟨hordered, y, rfl, hy⟩, hagain⟩ := determined_readAsciiName? false h
    refine ⟨':' :: (y ++ [']']), rfl, ⟨hordered, y, rfl, hy⟩, fun rest' _ => ?_⟩
    rw [List.cons_append, readAscii?]
    · exact hagain rest' trivial
    · have hsame : SameHead (y ++ [']'] ++ rest) (y ++ [']'] ++ rest') := by
        cases y <;> rfl
      rintro t ht
      rw [ht] at hsame
      obtain ⟨u, hu⟩ := List.head?_eq_some_iff.mp hsame
      exact hcaret u hu
  · cases h

/-- Where no named class was read up to a bracket, there is none. -/
theorem readAscii?_eq_none {y rest rest' : List Char} (h : readAscii? (y ++ ']' :: rest) = none) :
    readAscii? (y ++ ']' :: rest') = none := by
  refine Option.eq_none_iff_forall_ne_some.mpr ?_
  rintro ⟨item, behind⟩ hread
  obtain ⟨x, hx, ⟨-, z, rfl, hz⟩, hagain⟩ := determined_readAscii? hread
  -- the bracket of the named class is the one that is known of, or stands in front of it
  have hfront : ∃ w, y ++ ']' :: rest = ':' :: z ++ [']'] ++ w := by
    rw [List.append_assoc, List.singleton_append] at hx
    rcases List.append_eq_append_iff.mp hx with
      ⟨_ | ⟨c, v⟩, hy, hbehind⟩ | ⟨_ | ⟨c, v⟩, rfl, hbehind⟩
    · refine ⟨rest, ?_⟩
      rw [List.append_nil] at hy
      rw [hy]
      simp
    · obtain ⟨rfl, -⟩ := List.cons.inj hbehind
      have hmem : ']' ∈ ':' :: z := hy ▸ List.mem_append_right y List.mem_cons_self
      rcases List.mem_cons.mp hmem with hmem | hmem
      · exact absurd hmem (by decide)
      · exact absurd rfl (hz ']' hmem).2.2
    · exact ⟨rest, by simp⟩
    · obtain ⟨rfl, -⟩ := List.cons.inj hbehind
      exact ⟨v ++ ']' :: rest, by simp⟩
  obtain ⟨w, hw⟩ := hfront
  rw [hw, hagain w trivial] at h
  cases h

/-! ### Items -/

/-- The text of one character or property. -/
def ItemText (item : ClassSet) (x : List Char) : Prop :=
  (∃ c, c ≠ '\\' ∧ x = [c] ∧ item = .char c) ∨ ∃ y, x = '\\' :: y ∧ EscapeText y

/-- The text of one item. A range does not end in a closing bracket or a dash that stands for
itself. -/
def RangeText (item : ClassSet) (x : List Char) : Prop :=
  ItemText item x ∨ ∃ y z lo hi, x = y ++ '-' :: z ∧ ItemText (.char lo) y ∧ ItemText (.char hi) z ∧
    z.head? ≠ some ']' ∧ item = .range lo hi

/-- What a range looks at: the next character, and the one behind a dash. -/
def RangeAhead (r r' : List Char) : Prop :=
  SameHead r r' ∧ (r.head? = some '-' → SameHead r.tail r'.tail)

theorem ItemText.ne_nil {item : ClassSet} {x : List Char} (h : ItemText item x) : x ≠ [] := by
  obtain ⟨c, -, rfl, -⟩ | ⟨y, rfl, -⟩ := h <;> exact List.cons_ne_nil _ _

theorem RangeText.ne_nil {item : ClassSet} {x : List Char} (h : RangeText item x) : x ≠ [] := by
  obtain h | ⟨y, z, lo, hi, rfl, h, -⟩ := h
  · exact h.ne_nil
  · exact List.append_ne_nil_of_left_ne_nil h.ne_nil _

/-- An item is a character or a property. -/
def isItem : ClassSet → Bool
  | .char _ | .property _ _ => true
  | _ => false

theorem determined_readItem? :
    Determined (fun item x => isItem item = true ∧ ItemText item x) (fun _ _ _ => True)
      readItem? := by
  intro cs item rest h
  unfold readItem? at h
  split at h
  · cases h
  · split at h
    all_goals first
      | cases h; done
      | rename_i hread
        obtain ⟨rfl, rfl⟩ := Prod.mk.inj (Option.some.inj h)
        obtain ⟨x, rfl, hx, hagain⟩ := determined_escape hread
        refine ⟨'\\' :: x, rfl, ⟨rfl, Or.inr ⟨x, rfl, hx⟩⟩, fun rest' _ => ?_⟩
        rw [List.cons_append, readItem?, hagain rest' nofun]
  · rename_i c cs hc
    obtain ⟨rfl, rfl⟩ := Prod.mk.inj (Option.some.inj h)
    refine ⟨[c], rfl, ⟨rfl, Or.inl ⟨c, hc, rfl, rfl⟩⟩, fun rest' _ => ?_⟩
    rw [List.singleton_append, readItem?]
    exact hc

/-- One item is read by itself where no dash behind it makes a range of it. -/
theorem readRange?_single {x r r' : List Char} {item : ClassSet}
    (hread : ∀ r, readItem? (x ++ r) = some (item, r))
    (hno : ∀ w, r = '-' :: w → w.head? = some ']' ∨ w.head? = some '-') (hr : RangeAhead r r') :
    readRange? (x ++ r') = some (item, r') := by
  unfold readRange?
  rw [hread]
  dsimp only
  split
  · rfl
  · rfl
  · rename_i w hbracket hdash
    exfalso
    have hhead : r.head? = some '-' := hr.1
    obtain ⟨v, rfl⟩ := List.head?_eq_some_iff.mp hhead
    have hv : v.head? = w.head? := hr.2 hhead
    rcases hno v rfl with hd | hd
    · obtain ⟨u, rfl⟩ := List.head?_eq_some_iff.mp (hv.symm.trans hd)
      exact hbracket u rfl
    · obtain ⟨u, rfl⟩ := List.head?_eq_some_iff.mp (hv.symm.trans hd)
      exact hdash u rfl
  · rfl

/-- Two characters with a dash between them are read as a range. -/
theorem readRange?_range {x y : List Char} {d lo hi : Char}
    (hlo : ∀ r, readItem? (x ++ r) = some (.char lo, r))
    (hhi : ∀ r, readItem? (d :: y ++ r) = some (.char hi, r)) (hd : d ≠ ']' ∧ d ≠ '-')
    (hle : lo ≤ hi) (r : List Char) :
    readRange? (x ++ '-' :: d :: y ++ r) = some (.range lo hi, r) := by
  have hhi := hhi r
  unfold readRange?
  rw [List.append_assoc, hlo]
  rw [List.cons_append] at hhi
  simp only [List.cons_append]
  split
  · rename_i heq
    exact absurd (List.cons.inj (List.cons.inj heq).2).1 hd.1
  · rename_i heq
    exact absurd (List.cons.inj (List.cons.inj heq).2).1 hd.2
  · rename_i heq
    obtain ⟨-, rfl⟩ := List.cons.inj heq
    rw [hhi]
    exact if_pos hle
  · rename_i hno
    exact absurd rfl (hno _)

/-- **An item is determined by its text**, and by two characters behind it at most. -/
theorem determined_readRange? :
    Determined (fun item x => item.all isOrdered = true ∧ RangeText item x) (fun _ => RangeAhead)
      readRange? := by
  intro cs item rest h
  unfold readRange? at h
  split at h
  · cases h
  · rename_i first behind hfirst
    obtain ⟨x, rfl, ⟨hitem, hx⟩, hagain⟩ := determined_readItem? hfirst
    have hordered : first.all isOrdered = true := by
      cases first <;> first | rfl | cases hitem
    -- one item by itself, with nothing behind it that makes a range of it
    have hsingle (hno : ∀ w, behind = '-' :: w → w.head? = some ']' ∨ w.head? = some '-') :
        ∃ y, x ++ behind = y ++ behind ∧ (first.all isOrdered = true ∧ RangeText first y) ∧
          ∀ r, RangeAhead behind r → readRange? (y ++ r) = some (first, r) :=
      ⟨x, rfl, ⟨hordered, Or.inl hx⟩, fun _ =>
        readRange?_single (fun r => hagain r trivial) hno⟩
    split at h
    · cases h
      exact hsingle fun w hw => Or.inl ((List.cons.inj hw).2 ▸ rfl)
    · cases h
      exact hsingle fun w hw => Or.inr ((List.cons.inj hw).2 ▸ rfl)
    · rename_i behind hbracket hdash
      split at h
      · rename_i lo hi behind' hread
        split_ifs at h with hle
        obtain ⟨rfl, rfl⟩ := Prod.mk.inj (Option.some.inj h)
        obtain ⟨z, rfl, ⟨-, hz⟩, hagain'⟩ := determined_readItem? hread
        obtain ⟨d, z, rfl⟩ := List.exists_cons_of_ne_nil hz.ne_nil
        have hd : d ≠ ']' ∧ d ≠ '-' := by
          constructor
          · rintro rfl
            exact hbracket (z ++ behind') rfl
          · rintro rfl
            exact hdash (z ++ behind') rfl
        refine ⟨x ++ '-' :: d :: z, by simp, ⟨decide_eq_true hle, Or.inr ?_⟩, fun r _ => ?_⟩
        · exact ⟨x, _, lo, hi, rfl, hx, hz, fun hc => hd.1 (Option.some.inj hc), rfl⟩
        · exact readRange?_range (fun r => hagain r trivial) (fun r => hagain' r trivial) hd hle r
      · cases h
    · rename_i h1 h2 h3
      cases h
      exact hsingle fun w hw => absurd hw (h3 w)

/-! ### Tests while a class is read -/

section Tests

variable {p : ClassSet → Bool} {fuel : Nat} {o : Open} {around : List Open} {cs rest : List Char}
  {s : ClassSet}

/-- A test that a class passes was passed by all that had been read of it. -/
theorem all_of_readOn? (h : readOn? fuel o around cs = some (s, rest)) (hs : s.all p = true) :
    o.tree.all p = true ∧ ∀ outer ∈ around, outer.tree.all p = true := by
  have hpush {o : Open} {item : ClassSet} (h : (o.push item).tree.all p = true) :
      o.tree.all p = true ∧ item.all p = true := by
    rwa [all_push, Bool.and_eq_true] at h
  fun_induction readOn? fuel o around cs with
  | case3 fuel o around cs item behind hread ih =>
    obtain ⟨ho, haround⟩ := ih h
    exact ⟨(hpush ho).1, haround⟩
  | case4 fuel o around cs hread ih => exact List.forall_mem_cons.mp (ih h).2
  | case5 =>
    cases h
    exact ⟨hs, List.forall_mem_nil _⟩
  | case6 fuel o cs outer further ih =>
    obtain ⟨houter, hfurther⟩ := ih h
    exact ⟨(hpush houter).2, List.forall_mem_cons.mpr ⟨(hpush houter).1, hfurther⟩⟩
  | case7 fuel o around cs ih | case8 fuel o around cs ih | case9 fuel o around cs ih =>
    obtain ⟨ho, haround⟩ := ih h
    rw [all_operator] at ho
    exact ⟨ho, haround⟩
  | case10 fuel o around cs hnil hopen hclose hand hdash htilde item behind hread ih =>
    obtain ⟨ho, haround⟩ := ih h
    exact ⟨(hpush ho).1, haround⟩
  | case1 => cases h
  | case2 => cases h
  | case11 => cases h

theorem tree_startBehind (hp : ∀ c, p (.char c) = true) (negated : Bool) (cs : List Char) :
    (startBehind negated cs).1.tree.all p = true := by
  have hdashes (o : Open) (cs : List Char) (ho : o.tree.all p = true) :
      (readDashes o cs).1.tree.all p = true := by
    fun_induction readDashes o cs with
    | case1 o cs ih => exact ih (all_push.trans (Bool.and_eq_true_iff.mpr ⟨ho, hp '-'⟩))
    | case2 => exact ho
  have hstart := hdashes ⟨negated, none, []⟩ cs rfl
  unfold startBehind
  split
  · exact hp ']'
  · exact hstart

theorem tree_readStart (hp : ∀ c, p (.char c) = true) (cs : List Char) :
    (readStart cs).1.tree.all p = true := by
  unfold readStart
  split <;> exact tree_startBehind hp _ _

/-- **A class that is read is ordered.** -/
theorem isOrdered_of_readOn? (h : readOn? fuel o around cs = some (s, rest))
    (ho : o.tree.all isOrdered = true)
    (haround : ∀ outer ∈ around, outer.tree.all isOrdered = true) : s.all isOrdered = true := by
  have hpush {o : Open} {item : ClassSet} (ho : o.tree.all isOrdered = true)
      (hitem : item.all isOrdered = true) : (o.push item).tree.all isOrdered = true :=
    all_push.trans (Bool.and_eq_true_iff.mpr ⟨ho, hitem⟩)
  fun_induction readOn? fuel o around cs with
  | case3 fuel o around cs item behind hread ih =>
    obtain ⟨-, -, ⟨hitem, -⟩, -⟩ := determined_readAscii? hread
    exact ih h (hpush ho hitem) haround
  | case4 fuel o around cs hread ih =>
    exact ih h (tree_readStart (fun _ => rfl) cs) (List.forall_mem_cons.mpr ⟨ho, haround⟩)
  | case5 =>
    cases h
    exact ho
  | case6 fuel o cs outer further ih =>
    obtain ⟨houter, hfurther⟩ := List.forall_mem_cons.mp haround
    exact ih h (hpush houter ho) hfurther
  | case7 fuel o around cs ih | case8 fuel o around cs ih | case9 fuel o around cs ih =>
    exact ih h ((all_operator _).trans ho) haround
  | case10 fuel o around cs hnil hopen hclose hand hdash htilde item behind hread ih =>
    obtain ⟨-, -, ⟨hitem, -⟩, -⟩ := determined_readRange? hread
    exact ih h (hpush ho hitem) haround
  | case1 => cases h
  | case2 => cases h
  | case11 => cases h

end Tests

/-! ### Whole classes -/

/-- One item, in front of the text of a class. -/
theorem Inside.append_of_item {wild : Prop} {n : Nat} {item : ClassSet} {x y : List Char}
    (hx : RangeText item x) (hopen : x.head? ≠ some '[') (hclose : x.head? ≠ some ']')
    (hwild : ¬wild → item.all (noRangeTo '[') = true) (h : Inside wild n y) :
    Inside wild n (x ++ y) := by
  -- one character or property; if it is an opening bracket, it has to be the end of a range
  have hitem {item : ClassSet} {x y : List Char} (hx : ItemText item x)
      (hopen : x.head? = some '[' → wild) (hclose : x.head? ≠ some ']') (h : Inside wild n y) :
      Inside wild n (x ++ y) := by
    obtain ⟨c, hc, rfl, -⟩ | ⟨_, rfl, c, z, rfl, hz⟩ := hx
    · by_cases hbracket : c = '['
      · subst hbracket
        exact .rangeEnd (hopen rfl) h
      · exact .plain ⟨hc, hbracket, fun heq => hclose (congrArg some heq)⟩ h
    · exact .escaped c (h.append_of_quiet hz)
  obtain hx | ⟨y', z, lo, hi, rfl, hy, hz, hend, rfl⟩ := hx
  · exact hitem hx (fun heq => absurd heq hopen) hclose h
  · obtain ⟨d, y', rfl⟩ := List.exists_cons_of_ne_nil hy.ne_nil
    have hbehind : Inside wild n (z ++ y) := by
      refine hitem hz (fun heq => ?_) hend h
      by_contra hno
      obtain ⟨c, -, rfl, hc⟩ | ⟨w, rfl, -⟩ := hz
      · obtain rfl := Option.some.inj heq
        cases hc
        cases hwild hno
      · cases heq
    rw [List.append_assoc, List.cons_append]
    exact hitem hy (fun heq => absurd heq hopen) hclose (.plain (by decide) hbehind)

/-- **What reading on takes in**: a text in front of a bracket that is the text of the class from some
place on, and is read, with fuel for each of its characters, whatever stands behind the bracket. -/
structure ReadsUpTo (wild : Prop) (o : Open) (around : List Open) (s : ClassSet) (y : List Char) :
    Prop where
  /-- With its bracket, it is the text of the class. -/
  inside : Inside wild around.length (y ++ [']'])
  /-- It is read in front of every rest. -/
  again : ∀ fuel rest, y.length < fuel →
    readOn? fuel o around (y ++ ']' :: rest) = some (s, rest)

namespace ReadsUpTo

variable {wild : Prop} {o o' outer : Open} {around around' : List Open} {s item : ClassSet}
  {x y z rest : List Char}

/-- One turn of reading, which leaves less of the text. -/
theorem turn (h : ReadsUpTo wild o' around' s y) (hinside : Inside wild around.length (z ++ [']']))
    (hlength : y.length < z.length)
    (hturn : ∀ fuel rest, readOn? (fuel + 1) o around (z ++ ']' :: rest) =
      readOn? fuel o' around' (y ++ ']' :: rest)) : ReadsUpTo wild o around s z where
  inside := hinside
  again fuel rest hfuel := by
    obtain ⟨fuel, rfl⟩ := Nat.exists_eq_succ_of_ne_zero (Nat.ne_zero_of_lt hfuel)
    rw [hturn]
    exact h.again fuel rest (Nat.lt_of_lt_of_le hlength (Nat.le_of_lt_succ hfuel))

theorem close (wild : Prop) (o : Open) :
    ReadsUpTo wild o [] (.bracket o.negated o.tree) [] where
  inside := .close
  again fuel rest hfuel := by
    obtain ⟨fuel, rfl⟩ := Nat.exists_eq_succ_of_ne_zero (Nat.ne_zero_of_lt hfuel)
    rfl

theorem closeInner
    (h : ReadsUpTo wild (outer.push (.bracket o.negated o.tree)) around s y) :
    ReadsUpTo wild o (outer :: around) s (']' :: y) :=
  h.turn h.inside.closeInner (Nat.lt_succ_self _) fun _ _ => rfl

/-- An operator is its sign twice. -/
theorem operator {c : Char} {operator : SetOp}
    (h : ReadsUpTo wild (o.operator operator) around s y) (hc : c ≠ '\\' ∧ c ≠ '[' ∧ c ≠ ']')
    (hturn : ∀ fuel cs, readOn? (fuel + 1) o around (c :: c :: cs) =
      readOn? fuel (o.operator operator) around cs) :
    ReadsUpTo wild o around s (c :: c :: y) := by
  refine h.turn ((h.inside.plain hc).plain hc) ?_ fun fuel rest => hturn fuel _
  exact Nat.lt_succ_of_lt (Nat.lt_succ_self _)

/-- A named class. -/
theorem named (h : ReadsUpTo wild (o.push item) around s y) (hx : NamedText x)
    (hread : ∀ rest, readAscii? (x ++ rest) = some (item, rest)) :
    ReadsUpTo wild o around s ('[' :: (x ++ y)) := by
  obtain ⟨z, rfl, hz⟩ := hx
  refine h.turn ?_ ?_ fun fuel rest => ?_
  · have hinner : Inside wild (around.length + 1) (':' :: (z ++ ']' :: (y ++ [']']))) :=
      .plain (by decide) (h.inside.closeInner.append_of_plain hz)
    have hopen : Opening [] (':' :: (z ++ ']' :: (y ++ [']']))) := .plain (by simp) (by simp)
    simpa using hinner.opening hopen
  · simp only [List.length_cons, List.length_append]
    omega
  · rw [List.cons_append, List.append_assoc, readOn?, hread]

/-- A class in the class, with what its bracket begins with. -/
theorem opening {m ds : List Char} (h : ReadsUpTo wild o' (o :: around) s y)
    (hds : ∀ c ∈ ds, c = '-') (hm : Opening m (ds ++ (y ++ [']'])))
    (hstart : ∀ rest, readStart (m ++ ds ++ (y ++ ']' :: rest)) = (o', y ++ ']' :: rest))
    (hnone : ∀ rest, readAscii? (m ++ ds ++ y ++ ']' :: rest) = none) :
    ReadsUpTo wild o around s ('[' :: (m ++ ds ++ y)) := by
  refine h.turn ?_ ?_ fun fuel rest => ?_
  · have hdashes : Inside wild (around.length + 1) (ds ++ (y ++ [']'])) := by
      refine h.inside.append_of_plain fun c hc => ?_
      obtain rfl := hds c hc
      decide
    simpa using hdashes.opening hm
  · simp only [List.length_cons, List.length_append]
    omega
  · rw [List.cons_append, readOn?, hnone]
    dsimp only
    rw [List.append_assoc, hstart]

/-- A character, a property or a range, where nothing else was read. -/
theorem range (h : ReadsUpTo wild (o.push item) around s y) (hx : RangeText item x)
    (hread : ∀ r, RangeAhead (y ++ ']' :: rest) r → readRange? (x ++ r) = some (item, r))
    (hends : ¬wild → item.all (noRangeTo '[') = true)
    (hopen : ∀ t, x ++ (y ++ ']' :: rest) ≠ '[' :: t)
    (hclose : ∀ t, x ++ (y ++ ']' :: rest) ≠ ']' :: t)
    (hsign : ∀ c ∈ ['&', '-', '~'], ∀ t, x ++ (y ++ ']' :: rest) ≠ c :: c :: t) :
    ReadsUpTo wild o around s (x ++ y) := by
  obtain ⟨c, x, rfl⟩ := List.exists_cons_of_ne_nil hx.ne_nil
  have hopen' : c ≠ '[' := fun heq => hopen _ (congrArg (· :: _) heq)
  have hclose' : c ≠ ']' := fun heq => hclose _ (congrArg (· :: _) heq)
  -- two characters that stand in front of any rest stood in front of this one
  have htwo (rest' : List Char) (d : Char) (hd : d ∈ ['&', '-', '~']) (t : List Char)
      (heq : c :: x ++ (y ++ ']' :: rest') = d :: d :: t) : False := by
    obtain ⟨rfl, ht⟩ := List.cons.inj heq
    have hhead : SameHead (x ++ (y ++ ']' :: rest)) (c :: t) :=
      ht ▸ (sameHead_mark y ']' rest rest').append x
    obtain ⟨u, hu⟩ := List.head?_eq_some_iff.mp hhead
    exact hsign c hd u (congrArg (c :: ·) hu)
  refine h.turn ?_ ?_ fun fuel rest' => ?_
  · rw [List.append_assoc]
    exact h.inside.append_of_item hx (fun heq => hopen' (Option.some.inj heq))
      (fun heq => hclose' (Option.some.inj heq)) hends
  · simp only [List.length_cons, List.length_append]
    omega
  · have hahead : RangeAhead (y ++ ']' :: rest) (y ++ ']' :: rest') := by
      refine ⟨sameHead_mark y ']' rest rest', fun heq => ?_⟩
      cases y with
      | nil => cases heq
      | cons d y => exact sameHead_mark y ']' rest rest'
    rw [List.append_assoc, readOn?, hread _ hahead]
    · exact List.cons_ne_nil _ _
    · exact fun t heq => hopen' (List.cons.inj heq).1
    · exact fun t heq => hclose' (List.cons.inj heq).1
    · exact htwo rest' '&' (by decide)
    · exact htwo rest' '-' (by decide)
    · exact htwo rest' '~' (by decide)

end ReadsUpTo

/-- **A class is read up to the bracket that closes it**, and nothing behind that matters. -/
theorem readOn?_determined {wild : Prop} {fuel : Nat} {o : Open} {around : List Open}
    {cs rest : List Char} {s : ClassSet} (h : readOn? fuel o around cs = some (s, rest))
    (hwild : ¬wild → s.all (noRangeTo '[') = true) :
    ∃ y, cs = y ++ ']' :: rest ∧ ReadsUpTo wild o around s y := by
  fun_induction readOn? fuel o around cs with
  -- a bracket begins the name of a class, or else a class inside the class
  | case3 fuel o around cs item behind hread ih =>
    obtain ⟨y, rfl, hy⟩ := ih h
    obtain ⟨x, rfl, ⟨-, hx⟩, hascii⟩ := determined_readAscii? hread
    exact ⟨'[' :: (x ++ y), by simp, hy.named hx fun rest' => hascii rest' trivial⟩
  | case4 fuel o around cs hread ih =>
    obtain ⟨y, hbehind, hy⟩ := ih h
    obtain ⟨m, ds, hcs, hds, hm, hstart⟩ := readStart_determined cs
    rw [hbehind] at hcs hm hstart
    have hsame (rest' : List Char) := sameHead_mark y ']' rest rest'
    have hnone : readAscii? (m ++ ds ++ y ++ ']' :: rest) = none := by
      rwa [List.append_assoc, ← hcs]
    refine ⟨'[' :: (m ++ ds ++ y), by rw [hcs]; simp, ?_⟩
    exact hy.opening hds (hm.congr ((hsame []).append ds)) (fun rest' => hstart _ (hsame rest'))
      fun _ => readAscii?_eq_none hnone
  | case5 fuel o cs =>
    cases h
    exact ⟨[], rfl, .close wild o⟩
  | case6 fuel o cs outer further ih =>
    obtain ⟨y, rfl, hy⟩ := ih h
    exact ⟨']' :: y, rfl, hy.closeInner⟩
  | case7 fuel o around cs ih | case8 fuel o around cs ih | case9 fuel o around cs ih =>
    obtain ⟨y, rfl, hy⟩ := ih h
    exact ⟨_ :: _ :: y, rfl, hy.operator (by decide) fun _ _ => rfl⟩
  | case10 fuel o around cs hnil hopen hclose hand hdash htilde item behind hread ih =>
    obtain ⟨y, rfl, hy⟩ := ih h
    obtain ⟨x, rfl, ⟨-, hx⟩, hitem⟩ := determined_readRange? hread
    -- what is tame in the end was tame in each of its items
    have hends (hw : ¬wild) : item.all (noRangeTo '[') = true := by
      have hs := (all_of_readOn? h (hwild hw)).1
      rw [all_push, Bool.and_eq_true] at hs
      exact hs.2
    refine ⟨x ++ y, by simp, hy.range hx hitem hends hopen hclose fun c hc => ?_⟩
    simp only [List.mem_cons, List.not_mem_nil, or_false] at hc
    obtain rfl | rfl | rfl := hc
    exacts [hand, hdash, htilde]
  | case1 => cases h
  | case2 => cases h
  | case11 => cases h

/-- The text of a class behind its opening bracket. -/
def ClassText (s : ClassSet) (x : List Char) : Prop :=
  ∃ m y, x = m ++ y ∧ Opening m y ∧ Inside (s.all (noRangeTo '[') = false) 0 y

/-- **A class is determined by its text**, and no range in it ends in front of its start. -/
theorem determined_read? :
    Determined (fun s x => s.all isOrdered = true ∧ ClassText s x) (fun _ _ _ => True) read? := by
  intro cs s rest h
  unfold read? at h
  have hwild : ¬s.all (noRangeTo '[') = false → s.all (noRangeTo '[') = true := eq_true_of_ne_false
  obtain ⟨y, hy, hinside, hagain⟩ := readOn?_determined h hwild
  obtain ⟨m, ds, hcs, hds, hm, hstart⟩ := readStart_determined cs
  have hordered := isOrdered_of_readOn? h (tree_readStart (fun _ => rfl) cs) (List.forall_mem_nil _)
  rw [hy] at hcs hm hstart
  have hsame (rest' : List Char) := sameHead_mark y ']' rest rest'
  refine ⟨m ++ ds ++ (y ++ [']']), by rw [hcs]; simp, ⟨hordered, m, ds ++ (y ++ [']']), by simp,
    hm.congr ((hsame []).append ds), ?_⟩, fun rest' _ => ?_⟩
  · refine hinside.append_of_plain fun c hc => ?_
    obtain rfl := hds c hc
    decide
  · have hread := hstart (y ++ ']' :: rest') (hsame rest')
    have htext : m ++ ds ++ (y ++ [']']) ++ rest' = m ++ ds ++ (y ++ ']' :: rest') := by simp
    rw [htext, read?, hread]
    refine hagain _ rest' ?_
    simp only [List.length_append]
    omega

end ClassSet

end Regex

end UrlRouting

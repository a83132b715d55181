import Mathlib.Data.List.TakeWhile
import UrlRouting.Regex.Escape

/-!
# Readers and what they look at

The text of an expression is put into a group to become part of a larger one, or it is rewritten
character by character. What was read off it before should be read off it then, although something
else stands behind. That it is comes from one property of every reader of the tokenizer: it is
*determined* by the text it takes, and of what follows it looks at the first characters at most
(`UrlRouting.Regex.Determined`).

With the text that is taken comes the form it has. For a scan over the text the parts that matter
are those without a backslash, a bracket, an opening parenthesis or a sign for a repetition without
an upper bound (`UrlRouting.Regex.Quiet`).

Here are the readers of escapes. The only one that looks ahead is that of word boundaries, since a
name in braces may follow `\b` (`UrlRouting.Regex.Unnamed`).
-/

namespace UrlRouting

namespace Regex

/-! ### Determined readers -/

/-- **A reader that is determined by the text it takes**, and by what follows only as far as it
looks ahead: the text has a known form, and is taken again in front of every rest that looks
alike. -/
def Determined {α : Type} (form : α → List Char → Prop)
    (ahead : α → List Char → List Char → Prop)
    (read? : List Char → Option (α × List Char)) : Prop :=
  ∀ ⦃cs : List Char⦄ ⦃a : α⦄ ⦃rest : List Char⦄, read? cs = some (a, rest) →
    ∃ x, cs = x ++ rest ∧ form a x ∧
      ∀ rest', ahead a rest rest' → read? (x ++ rest') = some (a, rest')

/-- What is read may be wrapped up. -/
theorem Determined.map {α β : Type} {form : α → List Char → Prop}
    {ahead : α → List Char → List Char → Prop} {read? : List Char → Option (α × List Char)}
    (h : Determined form ahead read?) {form' : β → List Char → Prop}
    {ahead' : β → List Char → List Char → Prop} (f : α → β)
    (hform : ∀ a x, form a x → form' (f a) x)
    (hahead : ∀ a r r', ahead' (f a) r r' → ahead a r r') :
    Determined form' ahead' fun cs => (read? cs).map fun r => (f r.1, r.2) := by
  intro cs b rest hread
  obtain ⟨⟨a, rest⟩, ha, heq⟩ := Option.map_eq_some_iff.mp hread
  obtain ⟨rfl, rfl⟩ := Prod.mk.inj heq
  obtain ⟨x, rfl, hx, hagain⟩ := h ha
  refine ⟨x, rfl, hform a x hx, fun rest' hrest => ?_⟩
  exact Option.map_eq_some_iff.mpr ⟨_, hagain rest' (hahead a _ rest' hrest), rfl⟩

/-- Two texts begin with the same character, or both are empty. -/
def SameHead (r r' : List Char) : Prop := r.head? = r'.head?

theorem SameHead.append {r r' : List Char} (h : SameHead r r') (x : List Char) :
    SameHead (x ++ r) (x ++ r') := by
  unfold SameHead at h ⊢
  rw [List.head?_append, List.head?_append, h]

/-- Up to a mark, two texts begin alike. -/
theorem sameHead_mark (x : List Char) (d : Char) (r r' : List Char) :
    SameHead (x ++ d :: r) (x ++ d :: r') := by
  have hmark : SameHead (d :: r) (d :: r') := rfl
  exact hmark.append x

/-! ### Cutting a text -/

section Cut

variable {α : Type} {p : α → Bool} {x r : List α}

/-- A text is cut where a character stands that does not pass. -/
theorem cut_append (hx : ∀ a ∈ x, p a = true) (hr : ∀ a ∈ r.head?, p a = false) :
    (x ++ r).takeWhile p = x ∧ (x ++ r).dropWhile p = r := by
  rw [List.takeWhile_append_of_pos hx, List.dropWhile_append_of_pos hx]
  cases r with
  | nil => exact ⟨List.append_nil x, rfl⟩
  | cons a r =>
    have ha : ¬p a = true := Bool.eq_false_iff.mp (hr a rfl)
    rw [List.takeWhile_cons_of_neg ha, List.dropWhile_cons_of_neg ha]
    exact ⟨List.append_nil x, rfl⟩

theorem exists_cut (p : α → Bool) (cs : List α) :
    ∃ x r, cs = x ++ r ∧ cs.takeWhile p = x ∧ cs.dropWhile p = r ∧ (∀ a ∈ x, p a = true) ∧
      ∀ a ∈ r.head?, p a = false := by
  refine ⟨_, _, List.takeWhile_append_dropWhile.symm, rfl, rfl, fun a => List.mem_takeWhile_imp, ?_⟩
  intro a ha
  have hnot := List.head?_dropWhile_not p cs
  rw [Option.mem_def.mp ha] at hnot
  exact hnot

/-- A text up to a mark is cut there, whatever follows the mark. -/
theorem cut_mark {d : Char} {x : List Char} (hx : ∀ c ∈ x, (c != d) = true) (r : List Char) :
    (x ++ d :: r).takeWhile (· != d) = x ∧ (x ++ d :: r).dropWhile (· != d) = d :: r := by
  refine cut_append hx fun c hc => ?_
  obtain rfl := Option.mem_some.mp hc
  exact bne_self_eq_false d

theorem eq_of_mem_head? {d c : Char} {r : List Char} (h : ∀ a ∈ r.head?, (a != d) = false)
    (hc : r.head? = some c) : c = d := by
  have hbne := h c hc
  exact bne_eq_false_iff_eq.mp hbne

end Cut

/-! ### Quiet texts -/

/-- The characters that begin an escape, open or close a class, open a group, or repeat without an
upper bound. -/
def loud : List Char := ['\\', '[', ']', '(', '+', '*']

/-- **A quiet text** has none of these. -/
def Quiet (x : List Char) : Prop := ∀ c ∈ x, c ∉ loud

section Quiet

variable {c : Char} {x y : List Char}

theorem quiet_nil : Quiet [] := List.forall_mem_nil _

theorem quiet_cons (hc : c ∉ loud) (hx : Quiet x) : Quiet (c :: x) :=
  List.forall_mem_cons.mpr ⟨hc, hx⟩

theorem Quiet.append (hx : Quiet x) (hy : Quiet y) : Quiet (x ++ y) :=
  List.forall_mem_append.mpr ⟨hx, hy⟩

/-- Characters that pass a test which no loud one passes are quiet. -/
theorem quiet_of {p : Char → Bool} (hp : loud.any p = false) (hx : ∀ c ∈ x, p c = true) :
    Quiet x :=
  fun c hc hloud => List.any_eq_false.mp hp c hloud (hx c hc)

end Quiet

/-! ### Codes -/

theorem quiet_of_hexNumber? {digits : List Char} {n : Nat} (h : hexNumber? digits = some n) :
    Quiet digits := by
  refine quiet_of (p := fun c => (hexValue? c).isSome) (by decide) ?_
  unfold hexNumber? at h
  generalize 0 = start at h
  induction digits generalizing start with
  | nil => exact List.forall_mem_nil _
  | cons c digits ih =>
    obtain ⟨m, hm, hrest⟩ := Option.bind_eq_some_iff.mp h
    obtain ⟨v, hv, -⟩ := Option.map_eq_some_iff.mp hm
    exact List.forall_mem_cons.mpr ⟨hv ▸ rfl, ih m hrest⟩

theorem quiet_of_code {digits rest : List Char} {r : Char × List Char}
    (h : ((hexNumber? digits).bind charOfCode?).map (·, rest) = some r) : Quiet digits := by
  obtain ⟨c, hc, -⟩ := Option.map_eq_some_iff.mp h
  obtain ⟨n, hn, -⟩ := Option.bind_eq_some_iff.mp hc
  exact quiet_of_hexNumber? hn

/-- A code point is read up to its last digit, or up to the brace that ends it. -/
theorem determined_readCode? {width : Nat} (hpos : width ≠ 0) :
    Determined (fun _ => Quiet) (fun _ _ _ => True) (readCode? width) := by
  intro cs c rest h
  unfold readCode? at h
  split at h
  · -- in braces the digits go on up to the first brace that closes
    rename_i cs
    obtain ⟨digits, r, rfl, htake, hdrop, hdigits, hr⟩ := exists_cut (· != '}') cs
    dsimp only at h
    rw [htake, hdrop] at h
    cases r with
    | nil => cases h
    | cons d behind =>
      obtain rfl : d = '}' := eq_of_mem_head? hr rfl
      dsimp only at h
      split_ifs at h with hempty
      have hquiet := quiet_of_code h
      obtain ⟨c', hc, heq⟩ := Option.map_eq_some_iff.mp h
      obtain ⟨rfl, rfl⟩ := Prod.mk.inj heq
      refine ⟨'{' :: digits ++ ['}'], by simp, ?_, fun rest' _ => ?_⟩
      · exact quiet_cons (by decide) (hquiet.append (quiet_cons (by decide) quiet_nil))
      · rw [List.append_assoc, List.cons_append, List.singleton_append, readCode?]
        rw [(cut_mark hdigits rest').1, (cut_mark hdigits rest').2]
        dsimp only
        rw [if_neg hempty, hc]
        rfl
  · rename_i hbrace
    dsimp only at h
    split_ifs at h with hlen
    have hquiet := quiet_of_code h
    obtain ⟨c', hc, heq⟩ := Option.map_eq_some_iff.mp h
    obtain ⟨rfl, rfl⟩ := Prod.mk.inj heq
    refine ⟨cs.take width, (List.take_append_drop width cs).symm, hquiet, fun rest' _ => ?_⟩
    -- behind another rest the first digit is still there, and it is no brace
    have hne : cs.take width ≠ [] := by
      intro hnil
      rw [hnil] at hlen
      exact hpos hlen.symm
    rw [readCode?]
    · rw [List.take_left' hlen, List.drop_left' hlen, if_pos hlen, hc]
      rfl
    · intro t heq
      obtain ⟨d, ds, hds⟩ := List.exists_cons_of_ne_nil hne
      rw [hds, List.cons_append] at heq
      obtain ⟨rfl, -⟩ := List.cons.inj heq
      refine hbrace (ds ++ cs.drop width) ?_
      rw [← List.cons_append, ← hds, List.take_append_drop]

/-! ### Boundaries -/

/-- **No name of a boundary** begins here. -/
def Unnamed (r : List Char) : Prop := readBoundary? r = some (.wordBoundary, r)

/-- A boundary is named in braces, or not at all. -/
theorem readBoundary?_cases {cs rest : List Char} {l : Look}
    (h : readBoundary? cs = some (l, rest)) :
    (l = .wordBoundary ∧ rest = cs) ∨
      ∃ x, cs = x ++ rest ∧ Quiet x ∧ ∀ rest', readBoundary? (x ++ rest') = some (l, rest') := by
  unfold readBoundary? at h
  split at h
  · rename_i c cs
    split at h
    · rename_i hc
      obtain ⟨name, r, hcs, htake, hdrop, hname, hr⟩ := exists_cut isBoundaryNameChar (c :: cs)
      dsimp only at h
      rw [htake, hdrop] at h
      split at h
      · rename_i behind
        -- the name is not empty, so that another rest is read as one, too
        have hne : name ≠ [] := by
          rintro rfl
          obtain ⟨rfl, -⟩ := List.cons.inj hcs
          exact absurd hc (by decide)
        obtain ⟨d, ds, rfl⟩ := List.exists_cons_of_ne_nil hne
        obtain ⟨rfl, rfl⟩ := List.cons.inj hcs
        have hcut (r : List Char) := cut_append (r := '}' :: r) hname
          fun a ha => Option.mem_some.mp ha ▸ (by decide : isBoundaryNameChar '}' = false)
        have hquiet : Quiet ('{' :: c :: ds ++ ['}']) :=
          (quiet_cons (by decide) (quiet_of (by decide) hname)).append
            (quiet_cons (by decide) quiet_nil)
        refine Or.inr ⟨'{' :: c :: ds ++ ['}'], ?_, hquiet, fun rest' => ?_⟩
        · split_ifs at h
          all_goals
            cases h
            simp
        · simp only [List.append_assoc, List.cons_append, List.nil_append] at hcut ⊢
          rw [readBoundary?, if_pos hc, (hcut rest').1, (hcut rest').2]
          dsimp only
          split_ifs at h ⊢
          all_goals
            cases h
            rfl
      · cases h
    · cases h
      exact Or.inl ⟨rfl, rfl⟩
  · cases h
  · cases h
    exact Or.inl ⟨rfl, rfl⟩

/-! ### Escapes -/

theorem escape_read?_of_isEscapable {c : Char} (h : isEscapable c = true) (more : List Char) :
    Escape.read? (c :: more) = some (.char c, more) := by
  unfold Escape.read?
  exact if_pos h

/-- The text of an escape behind its backslash: one character, and quiet ones behind it. -/
def EscapeText (x : List Char) : Prop := ∃ c y, x = c :: y ∧ Quiet y

/-- What an escape may be followed by, if something else followed it. -/
def EscapeAhead (e : Escape) (r r' : List Char) : Prop :=
  e = .look .wordBoundary → Unnamed r → Unnamed r'

/-- **An escape is determined by its text**; only a plain word boundary looks ahead. -/
theorem determined_escape : Determined (fun _ => EscapeText) EscapeAhead Escape.read? := by
  intro cs e rest h
  cases cs with
  | nil => cases h
  | cons c cs =>
    have hone (e : Escape) (hread : ∀ r, Escape.read? (c :: r) = some (e, r)) :
        ∃ x, c :: cs = x ++ cs ∧ EscapeText x ∧
          ∀ rest', EscapeAhead e cs rest' → Escape.read? (x ++ rest') = some (e, rest') :=
      ⟨[c], rfl, ⟨c, [], rfl, quiet_nil⟩, fun rest' _ => hread rest'⟩
    have hcode {width : Nat} (hpos : width ≠ 0)
        (hread : ∀ r, Escape.read? (c :: r) = (readCode? width r).map fun r => (.char r.1, r.2)) :
        ∃ x, c :: cs = x ++ rest ∧ EscapeText x ∧
          ∀ rest', EscapeAhead e rest rest' → Escape.read? (x ++ rest') = some (e, rest') := by
      have hchar : Determined (fun _ => Quiet) (fun _ _ _ => True)
          fun r => (readCode? width r).map fun r => (Escape.char r.1, r.2) :=
        (determined_readCode? hpos).map Escape.char (fun _ _ hx => hx) fun _ _ _ _ => trivial
      rw [hread] at h
      obtain ⟨x, rfl, hx, hagain⟩ := hchar h
      refine ⟨c :: x, rfl, ⟨c, x, rfl, hx⟩, fun rest' _ => ?_⟩
      rw [List.cons_append, hread]
      exact hagain rest' trivial
    unfold Escape.read? at h
    dsimp only at h
    split at h
    · rename_i hescapable
      cases h
      exact hone _ (escape_read?_of_isEscapable hescapable)
    · split at h
      -- the code points behind `x`, `u` and `U`, which have different widths
      case h_7 | h_8 | h_9 => exact hcode (by decide) fun _ => rfl
      -- a word boundary, and only one without a name looks ahead
      case h_21 =>
        obtain ⟨⟨l, rest⟩, hl, heq⟩ := Option.map_eq_some_iff.mp h
        obtain ⟨rfl, rfl⟩ := Prod.mk.inj heq
        have hread (r : List Char) : Escape.read? ('b' :: r) =
            (readBoundary? r).map fun r => (.look r.1, r.2) := rfl
        obtain ⟨rfl, rfl⟩ | ⟨x, rfl, hx, hagain⟩ := readBoundary?_cases hl
        · refine ⟨['b'], rfl, ⟨_, _, rfl, quiet_nil⟩, fun rest' hrest => ?_⟩
          rw [List.singleton_append, hread, hrest rfl hl]
          rfl
        · refine ⟨'b' :: x, rfl, ⟨_, x, rfl, hx⟩, fun rest' _ => ?_⟩
          rw [List.cons_append, hread, hagain]
          rfl
      case h_22 => cases h
      all_goals
        cases h
        exact hone _ fun _ => rfl

end Regex

end UrlRouting

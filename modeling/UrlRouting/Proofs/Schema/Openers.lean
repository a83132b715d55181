import Mathlib.Data.List.Basic
import UrlRouting.Proofs.Schema.Uncapture

/-!
# What the scan replaces

The scan that takes the captures out of a validator is given texts of all kinds, and most of them
are no regular expressions: escapes that are cut off, classes that are left open, names that do not
end. Whatever the text is, only openers are replaced in it, and only such as the scan meets outside
of brackets and behind no backslash; all other characters are kept, in their order
(`UrlRouting.Pattern.ReplacesOpeners`). No such opener is left over, so that the scan finds nothing
to replace in a text that it has written itself (`UrlRouting.Pattern.uncapture_openers`).

The rules of the scan are stated once more for that, as a relation between the places that it comes
to (`UrlRouting.Pattern.Scans`). A piece of the text is copied, or it is an opener. The scan of the
written text goes over the same pieces, since none of them looks at more of what stands behind it
than is still there (`UrlRouting.Pattern.Copies.uncaptured`); the one that looks furthest is a name
without an end, and the angle bracket that it misses is not written either.

The scan can also be told by positions. It then goes on from places that it has computed, behind
what it has looked at and at the beginning of a name, and one of them could lie behind the end of
the text. None is read from that does (`UrlRouting.Pattern.scanAt?_eq`).
-/

namespace UrlRouting

namespace Pattern

open Regex

/-! ### Pieces -/

/-- **A piece that the scan copies**, in so many brackets: the piece, the brackets that are open
behind it, and what stands there. -/
inductive Copies : Nat → List Char → Nat → List Char → Prop
  /-- A character behind a backslash. -/
  | escaped (d : Nat) (c : Char) (x : List Char) : Copies d ['\\', c] d x
  /-- A backslash at the end of the text. -/
  | cut (d : Nat) : Copies d ['\\'] d []
  /-- An opening bracket, and what belongs to it. -/
  | bracket (d : Nat) {m x : List Char} (h : ClassSet.Opening m x) : Copies d ('[' :: m) (d + 1) x
  /-- A closing bracket, also one that closes nothing. -/
  | closing (d : Nat) (x : List Char) : Copies d [']'] (d - 1) x
  /-- Any other character, unless an opener begins there outside of brackets. -/
  | plain {d : Nat} {c : Char} {x : List Char} (hc : c ≠ '\\' ∧ c ≠ '[' ∧ c ≠ ']')
      (hno : d = 0 → ∀ o y, IsOpener o y → c :: x ≠ o ++ y) : Copies d [c] d x

/-- **Where the scan comes to**: from a text in so many brackets to what is left of it, in so many
brackets. An opener outside of brackets is gone over as a whole. -/
inductive Scans : Nat → List Char → Nat → List Char → Prop
  /-- It begins at the beginning. -/
  | here (d : Nat) (x : List Char) : Scans d x d x
  /-- It goes over a piece that is copied. -/
  | copied {d d' e : Nat} {y x z : List Char} (h : Copies d y d' x) (hrest : Scans d' x e z) :
    Scans d (y ++ x) e z
  /-- It goes over an opener. -/
  | opener {o x z : List Char} {e : Nat} (h : IsOpener o x) (hrest : Scans 0 x e z) :
    Scans 0 (o ++ x) e z

section Pieces

variable {d d' e : Nat} {o x y z : List Char}

theorem IsOpener.head? (h : IsOpener o x) : o.head? = some '(' := by
  cases h <;> rfl

theorem IsOpener.ne_nil (h : IsOpener o x) : o ≠ [] := by
  cases h <;> exact List.cons_ne_nil _ _

theorem ofText_eq_other_of_no_opener (h : ∀ o y, IsOpener o y → '(' :: x ≠ o ++ y) :
    Opener.ofText x = .other := by
  by_contra hne
  obtain ⟨o, y, hopener, heq⟩ := exists_isOpener hne
  exact h o y hopener heq

theorem Copies.uncaptureFrom_append (h : Copies d y d' x) :
    uncaptureFrom (.brackets d) (y ++ x) = y ++ uncaptureFrom (.brackets d') x := by
  cases h with
  | escaped c => exact uncaptureFrom_escaped d c x
  | cut => rfl
  | bracket h => exact uncaptureFrom_opening h d
  | closing => exact uncaptureFrom_closing d x
  | @plain c x hc hno =>
    by_cases hgroup : c = '(' ∧ d = 0
    · obtain ⟨rfl, rfl⟩ := hgroup
      exact uncaptureFrom_other (ofText_eq_other_of_no_opener (hno rfl)) 0
    · exact uncaptureFrom_cons hc (fun heq hd => hgroup ⟨heq, hd⟩) x

theorem Copies.ne_nil (h : Copies d y d' x) : y ≠ [] := by
  cases h <;> exact List.cons_ne_nil _ _

/-- **A text begins with a piece**, unless it is empty. -/
theorem exists_piece (d : Nat) {x : List Char} (hx : x ≠ []) :
    (∃ y d' z, x = y ++ z ∧ Copies d y d' z) ∨ d = 0 ∧ ∃ o z, x = o ++ z ∧ IsOpener o z := by
  obtain ⟨c, x, rfl⟩ := List.exists_cons_of_ne_nil hx
  by_cases hslash : c = '\\'
  · subst hslash
    cases x with
    | nil => exact .inl ⟨_, _, _, rfl, .cut d⟩
    | cons c x => exact .inl ⟨_, _, x, rfl, .escaped d c x⟩
  by_cases hopen : c = '['
  · subst hopen
    obtain ⟨m, z, rfl, hm⟩ := exists_opening x
    exact .inl ⟨_, _, z, rfl, .bracket d hm⟩
  by_cases hclose : c = ']'
  · subst hclose
    exact .inl ⟨_, _, x, rfl, .closing d x⟩
  by_cases hopener : d = 0 ∧ ∃ o z, c :: x = o ++ z ∧ IsOpener o z
  · exact .inr hopener
  · refine .inl ⟨[c], d, x, rfl, .plain ⟨hslash, hopen, hclose⟩ fun hd o z hz heq => ?_⟩
    exact hopener ⟨hd, o, z, heq, hz⟩

/-- **Induction on the pieces** of a text. -/
theorem scan_induction {P : Nat → List Char → Prop} (nil : ∀ d, P d [])
    (copied : ∀ {d d' y x}, Copies d y d' x → P d' x → P d (y ++ x))
    (opener : ∀ {o x}, IsOpener o x → P 0 x → P 0 (o ++ x)) (d : Nat) (x : List Char) : P d x := by
  induction hn : x.length using Nat.strong_induction_on generalizing d x with
  | _ n ih =>
    by_cases hx : x = []
    · exact hx ▸ nil d
    obtain ⟨y, d', z, rfl, h⟩ | ⟨rfl, o, z, rfl, h⟩ := exists_piece d hx
    · have hlength := List.length_pos_iff.mpr h.ne_nil
      rw [List.length_append] at hn
      exact copied h (ih z.length (by omega) d' z rfl)
    · have hlength := List.length_pos_iff.mpr h.ne_nil
      rw [List.length_append] at hn
      exact opener h (ih z.length (by omega) 0 z rfl)

/-! ### The written text -/

/-- Of the characters that are written, only those of the new openers are not from the text. -/
theorem mem_of_mem_uncaptureFrom {c : Char} (hc : c ∉ ['(', '?', ':']) (d : Nat) (x : List Char)
    (h : c ∈ uncaptureFrom (.brackets d) x) : c ∈ x := by
  induction d, x using scan_induction with
  | nil d => exact h
  | copied hpiece ih =>
    rw [hpiece.uncaptureFrom_append] at h
    rcases List.mem_append.mp h with h | h
    · exact List.mem_append_left _ h
    · exact List.mem_append_right _ (ih h)
  | opener hopener ih =>
    rw [hopener.uncaptureFrom_append] at h
    change c ∈ ['(', '?', ':'] ++ _ at h
    rcases List.mem_append.mp h with h | h
    · exact absurd h hc
    · exact List.mem_append_right _ (ih h)

/-- A quiet text that is written at the beginning stands at the beginning. -/
theorem exists_of_uncaptureFrom_eq_append {w : List Char} (hw : Quiet w)
    (h : uncaptureFrom (.brackets d) x = w ++ z) :
    ∃ y, x = w ++ y ∧ uncaptureFrom (.brackets d) y = z := by
  induction w generalizing x with
  | nil => exact ⟨x, rfl, h⟩
  | cons c w ih =>
    obtain ⟨hc, hw⟩ := List.forall_mem_cons.mp hw
    have hhead := head?_uncaptureFrom d x
    rw [h] at hhead
    obtain ⟨x, rfl⟩ := List.head?_eq_some_iff.mp hhead.symm
    have hcopy := uncaptureFrom_quiet (quiet_cons hc quiet_nil) d x
    rw [List.singleton_append, h] at hcopy
    obtain ⟨y, rfl, hy⟩ := ih hw (List.cons.inj hcopy).2.symm
    exact ⟨y, rfl, hy⟩

/-- A name that ends in the written text ends in the text. -/
theorem exists_name_of_uncaptureFrom_eq {name : List Char}
    (h : uncaptureFrom (.brackets d) x = name ++ ['>'] ++ y) :
    ∃ name' y', x = name' ++ '>' :: y' ∧ '>' ∉ name' ∧
      ∀ a, a ≠ '>' → name.head? ≠ some a → name'.head? ≠ some a := by
  have hmem : '>' ∈ uncaptureFrom (.brackets d) x := by simp [h]
  obtain ⟨name', y', rfl, hname'⟩ :=
    List.eq_append_cons_of_mem (mem_of_mem_uncaptureFrom (by decide) d x hmem)
  refine ⟨name', y', rfl, hname', fun a ha hne hfirst => ?_⟩
  obtain ⟨rest, rfl⟩ := List.head?_eq_some_iff.mp hfirst
  have hhead := head?_uncaptureFrom d (a :: rest ++ '>' :: y')
  rw [h] at hhead
  cases name with
  | nil => exact ha (Option.some.inj hhead).symm
  | cons c name => exact hne hhead

/-- **An opener of the written text was an opener before**, perhaps with another name. -/
theorem exists_opener_of_uncaptured (h : IsOpener o y)
    (heq : '(' :: uncaptureFrom (.brackets 0) x = o ++ y) :
    ∃ o' y', IsOpener o' y' ∧ '(' :: x = o' ++ y' := by
  cases h with
  | unnamed hmark =>
    obtain ⟨-, rfl⟩ := List.cons.inj heq
    refine ⟨['('], x, .unnamed fun h => hmark ?_, rfl⟩
    rwa [head?_uncaptureFrom]
  | @named name =>
    have hquiet : Quiet ['?', 'P', '<'] :=
      quiet_cons (by decide) (quiet_cons (by decide) (quiet_cons (by decide) quiet_nil))
    obtain ⟨x, rfl, hname⟩ := exists_of_uncaptureFrom_eq_append hquiet (List.cons.inj heq).2
    obtain ⟨name', y', rfl, hname', -⟩ := exists_name_of_uncaptureFrom_eq hname
    exact ⟨_, y', .named hname' y', by simp⟩
  | @angled name _ hfirst =>
    have hquiet : Quiet ['?', '<'] :=
      quiet_cons (by decide) (quiet_cons (by decide) quiet_nil)
    obtain ⟨x, rfl, hname⟩ := exists_of_uncaptureFrom_eq_append hquiet (List.cons.inj heq).2
    obtain ⟨name', y', rfl, hname', hkeeps⟩ := exists_name_of_uncaptureFrom_eq hname
    have hfirst' : name'.head? ≠ some '=' ∧ name'.head? ≠ some '!' :=
      ⟨hkeeps '=' (by decide) hfirst.1, hkeeps '!' (by decide) hfirst.2⟩
    exact ⟨_, y', .angled hname' hfirst' y', by simp⟩

/-- **A piece that is copied is a piece of the written text.** -/
theorem Copies.uncaptured (h : Copies d y d' x) :
    Copies d y d' (uncaptureFrom (.brackets d') x) := by
  cases h with
  | escaped c => exact .escaped d c _
  | cut => exact .cut d
  | bracket h => exact .bracket d (h.congr (head?_uncaptureFrom _ _).symm)
  | closing => exact .closing d _
  | @plain c x hc hno =>
    refine .plain hc fun hd o y hopener heq => ?_
    subst hd
    have hhead := congrArg List.head? heq
    rw [List.head?_append, hopener.head?] at hhead
    obtain rfl := Option.some.inj hhead
    obtain ⟨o', y', hopener', heq'⟩ := exists_opener_of_uncaptured hopener heq
    exact hno rfl o' y' hopener' heq'

/-- **The written text is left as it is.** -/
theorem uncaptureFrom_uncaptureFrom (d : Nat) (x : List Char) :
    uncaptureFrom (.brackets d) (uncaptureFrom (.brackets d) x) =
      uncaptureFrom (.brackets d) x := by
  induction d, x using scan_induction with
  | nil d => rfl
  | copied h ih => rw [h.uncaptureFrom_append, h.uncaptured.uncaptureFrom_append, ih]
  | @opener o x h ih =>
    have hother : Opener.ofText ('?' :: ':' :: uncaptureFrom (.brackets 0) x) = .other :=
      ofText_eq_other (by decide) _
    have hquiet : Quiet ['?', ':'] := quiet_cons (by decide) (quiet_cons (by decide) quiet_nil)
    have hcopy := uncaptureFrom_quiet hquiet 0 (uncaptureFrom (.brackets 0) x)
    rw [ih] at hcopy
    rw [h.uncaptureFrom_append, uncaptureFrom_other hother]
    exact congrArg ('(' :: ·) hcopy

/-- An opener is not left as it is. -/
theorem IsOpener.uncaptureFrom_ne (h : IsOpener o x) :
    uncaptureFrom (.brackets 0) (o ++ x) ≠ o ++ x := by
  rw [h.uncaptureFrom_append]
  intro heq
  cases h with
  | unnamed hmark => exact hmark (congrArg List.head? (List.cons.inj heq).2).symm
  | named => simp at heq
  | angled => simp at heq

/-- **Where a text is left as it is, no opener is met.** -/
theorem Scans.uncaptureFrom_eq (h : Scans d x e z) (hx : uncaptureFrom (.brackets d) x = x) :
    uncaptureFrom (.brackets e) z = z := by
  induction h with
  | here => exact hx
  | copied hpiece _ ih =>
    rw [hpiece.uncaptureFrom_append] at hx
    exact ih (List.append_cancel_left hx)
  | opener hopener => exact absurd hx hopener.uncaptureFrom_ne

/-! ### What is replaced -/

/-- A part of a text that is scanned. -/
inductive Part where
  /-- A character that is kept. -/
  | kept (c : Char)
  /-- An opener that is replaced. -/
  | opener (o : List Char)

/-- The part in the text. -/
def Part.text : Part → List Char
  | .kept c => [c]
  | .opener o => o

/-- What is written for the part. -/
def Part.written : Part → List Char
  | .kept c => [c]
  | .opener _ => "(?:".toList

/-- **The second text is the first one with some openers replaced**: both are made of the same
parts, and those that are no kept characters are openers that the scan of the first text, from so
many brackets on, comes to outside of brackets. -/
def ReplacesOpeners (d : Nat) (x x' : List Char) : Prop :=
  ∃ parts : List Part, x = parts.flatMap Part.text ∧ x' = parts.flatMap Part.written ∧
    ∀ before o after, parts = before ++ .opener o :: after →
      IsOpener o (after.flatMap Part.text) ∧ Scans d x 0 (o ++ after.flatMap Part.text)

theorem flatMap_kept {f : Part → List Char} (hf : ∀ c, f (.kept c) = [c]) (y : List Char) :
    (y.map Part.kept).flatMap f = y := by
  rw [List.flatMap_map]
  simp only [hf]
  exact List.flatMap_singleton' y

theorem replacesOpeners_uncaptureFrom (d : Nat) (x : List Char) :
    ReplacesOpeners d x (uncaptureFrom (.brackets d) x) := by
  induction d, x using scan_induction with
  | nil d =>
    refine ⟨[], rfl, rfl, fun before o after heq => ?_⟩
    exact absurd heq.symm (List.append_ne_nil_of_right_ne_nil _ (List.cons_ne_nil _ _))
  | @copied d d' y x h ih =>
    obtain ⟨parts, hx, hwritten, hopeners⟩ := ih
    refine ⟨y.map .kept ++ parts, ?_, ?_, fun before o after heq => ?_⟩
    · rw [List.flatMap_append, flatMap_kept fun _ => rfl, ← hx]
    · rw [List.flatMap_append, flatMap_kept fun _ => rfl, ← hwritten, h.uncaptureFrom_append]
    · rcases List.append_eq_append_iff.mp heq with ⟨front, -, hparts⟩ | ⟨back, hkept, hparts⟩
      · obtain ⟨hopener, hscans⟩ := hopeners front o after hparts
        exact ⟨hopener, .copied h hscans⟩
      · cases back with
        | nil =>
          obtain ⟨hopener, hscans⟩ := hopeners [] o after hparts.symm
          exact ⟨hopener, .copied h hscans⟩
        | cons first back =>
          -- an opener is not one of the characters that are kept
          obtain ⟨rfl, -⟩ := List.cons.inj hparts
          have hmem : Part.opener o ∈ y.map Part.kept := by simp [hkept]
          obtain ⟨c, -, hc⟩ := List.mem_map.mp hmem
          cases hc
  | @opener o x h ih =>
    obtain ⟨parts, hx, hwritten, hopeners⟩ := ih
    refine ⟨.opener o :: parts, ?_, ?_, fun before o' after heq => ?_⟩
    · rw [List.flatMap_cons, ← hx]
      rfl
    · rw [List.flatMap_cons, ← hwritten, h.uncaptureFrom_append]
      rfl
    · cases before with
      | nil =>
        obtain ⟨hfirst, rfl⟩ := List.cons.inj heq
        obtain rfl := Part.opener.inj hfirst
        exact ⟨hx ▸ h, hx ▸ .here 0 _⟩
      | cons first before =>
        obtain ⟨-, heq⟩ := List.cons.inj heq
        obtain ⟨hopener, hscans⟩ := hopeners before o' after heq
        exact ⟨hopener, .opener h hscans⟩

end Pieces

/-! ### The scan by positions -/

/-- The text from a position on. Behind the end there is none. -/
def textFrom? (text : List Char) (i : Nat) : Option (List Char) :=
  if i ≤ text.length then some (text.drop i) else none

/-- Where the name begins of the group that opens at a position, if it has one. -/
def nameStart? (text : List Char) (i : Nat) : Option Nat :=
  match text[i + 2]?, text[i + 3]? with
  | some 'P', some '<' => some (i + 4)
  | some '<', some c => if c ≠ '=' ∧ c ≠ '!' then some (i + 3) else none
  | _, _ => none

/-- What is written for the parenthesis at a position, and the position behind. -/
def openerAt? (text : List Char) (i : Nat) : Option (List Char × Nat) :=
  if text[i + 1]? = some '?' then
    match nameStart? text i with
    | none => some (['('], i + 1)
    | some start => (textFrom? text start).map fun rest =>
      match rest.idxOf? '>' with
      | none => (['('], i + 1)
      | some length => ("(?:".toList, start + length + 1)
  else some ("(?:".toList, i + 1)

/-- One round of the scan at a position, in so many brackets: what is written, and the brackets and
the position behind. Looking ahead may find nothing, but at the position itself there has to be a
character. -/
def roundAt? (text : List Char) (d i : Nat) : Option (List Char × Nat × Nat) :=
  text[i]?.bind fun c =>
    if c = '\\' then some (c :: text[i + 1]?.toList, d, i + 2)
    else if c = '[' then
      let negation := if text[i + 1]? = some '^' then ['^'] else []
      let j := i + 1 + negation.length
      let bracket := if text[j]? = some ']' then [']'] else []
      some (c :: negation ++ bracket, d + 1, j + bracket.length)
    else if c = ']' then some ([c], d - 1, i + 1)
    else if c = '(' ∧ d = 0 then (openerAt? text i).map fun r => (r.1, d, r.2)
    else some ([c], d, i + 1)

/-- **The scan by positions.** A round that fails or does not get ahead makes it fail. -/
def scanAt? (text : List Char) (d i : Nat) : Option (List Char) :=
  if i < text.length then
    match roundAt? text d i with
    | some (written, d', j) => if i < j then (scanAt? text d' j).map (written ++ ·) else none
    | none => none
  else some []
termination_by text.length - i

section Positions

variable {text o x y : List Char} {d d' i : Nat}

theorem getElem?_of_drop (h : text.drop i = x) (k : Nat) : text[i + k]? = x[k]? := by
  rw [← h, List.getElem?_drop]

theorem drop_add_of_drop (h : text.drop i = y ++ x) : text.drop (i + y.length) = x := by
  rw [← List.drop_drop, h, List.drop_left]

/-- Behind a part of the text there is a text. -/
theorem textFrom?_add_of_drop (h : text.drop i = y ++ x) (hy : y ≠ []) :
    textFrom? text (i + y.length) = some x := by
  have hlength := congrArg List.length h
  rw [List.length_drop, List.length_append] at hlength
  have hpos := List.length_pos_iff.mpr hy
  rw [textFrom?, if_pos (by omega), drop_add_of_drop h]

theorem idxOf?_append_cons {name : List Char} (h : '>' ∉ name) :
    (name ++ '>' :: x).idxOf? '>' = some name.length := by
  induction name with
  | nil => rfl
  | cons c name ih =>
    obtain ⟨hc, hname⟩ := not_or.mp (List.mem_cons.not.mp h)
    rw [List.cons_append, List.idxOf?_cons, beq_eq_false_iff_ne.mpr (Ne.symm hc),
      if_neg (by decide), ih hname]
    rfl

/-- A name that ends makes an opener. -/
theorem openerAt?_of_nameStart? {w name : List Char} (hw : w ≠ []) (hname : '>' ∉ name)
    (hi : text.drop i = w ++ (name ++ '>' :: x)) (hmark : text[i + 1]? = some '?')
    (hstart : nameStart? text i = some (i + w.length)) :
    openerAt? text i = some ("(?:".toList, i + (w ++ (name ++ ['>'])).length) := by
  rw [openerAt?, if_pos hmark, hstart]
  dsimp only
  rw [textFrom?_add_of_drop hi hw, Option.map_some, idxOf?_append_cons hname]
  dsimp only
  rw [List.length_append, List.length_append, List.length_singleton, Nat.add_assoc,
    Nat.add_assoc]

theorem IsOpener.openerAt? (h : IsOpener o x) (hi : text.drop i = o ++ x) :
    openerAt? text i = some ("(?:".toList, i + o.length) := by
  have hget (k : Nat) : text[i + k]? = (o ++ x)[k]? := getElem?_of_drop hi k
  cases h with
  | unnamed hmark =>
    have hnot : text[i + 1]? ≠ some '?' := by
      rw [hget 1]
      simpa [NoMark, List.head?_eq_getElem?] using hmark
    rw [Pattern.openerAt?, if_neg hnot]
    rfl
  | @named name hname =>
    have hstart : nameStart? text i = some (i + 4) := by
      simp [nameStart?, hget 2, hget 3]
    have hsplit : text.drop i = ['(', '?', 'P', '<'] ++ (name ++ '>' :: x) := by simp [hi]
    exact openerAt?_of_nameStart? (List.cons_ne_nil _ _) hname hsplit (hget 1) hstart
  | @angled name hname hfirst =>
    have hstart : nameStart? text i = some (i + 3) := by
      cases name with
      | nil => simp [nameStart?, hget 2, hget 3]
      | cons c name =>
        have hne : c ≠ '=' ∧ c ≠ '!' :=
          ⟨fun heq => hfirst.1 (congrArg some heq), fun heq => hfirst.2 (congrArg some heq)⟩
        simp [nameStart?, hget 2, hget 3, hne]
    have hsplit : text.drop i = ['(', '?', '<'] ++ (name ++ '>' :: x) := by simp [hi]
    exact openerAt?_of_nameStart? (List.cons_ne_nil _ _) hname hsplit (hget 1) hstart

/-- Where a name begins, an opener begins if the name ends. -/
theorem exists_of_nameStart? {start : Nat} (hi : text.drop i = '(' :: '?' :: x)
    (h : nameStart? text i = some start) :
    ∃ w z, text.drop i = w ++ z ∧ w ≠ [] ∧ start = i + w.length ∧
      ∀ name y, '>' ∉ name → z = name ++ '>' :: y → IsOpener (w ++ (name ++ ['>'])) y := by
  have hfirst {k : Nat} {a : Char} {y z : List Char} (hy : text.drop i = y ++ z)
      (hk : y.length = k) (ha : text[i + k]? = some a) : ∃ z', z = a :: z' := by
    rw [getElem?_of_drop hy, ← hk, List.getElem?_append_right (Nat.le_refl _), Nat.sub_self,
      ← List.head?_eq_getElem?] at ha
    exact List.head?_eq_some_iff.mp ha
  unfold nameStart? at h
  split at h
  · rename_i hletter hangle
    obtain ⟨x, rfl⟩ := hfirst (y := ['(', '?']) hi rfl hletter
    obtain ⟨x, rfl⟩ := hfirst (y := ['(', '?', 'P']) hi rfl hangle
    refine ⟨['(', '?', 'P', '<'], x, hi, List.cons_ne_nil _ _, (Option.some.inj h).symm, ?_⟩
    exact fun name y hname _ => .named hname y
  · rename_i c hangle hc
    obtain ⟨x, rfl⟩ := hfirst (y := ['(', '?']) hi rfl hangle
    obtain ⟨x, rfl⟩ := hfirst (y := ['(', '?', '<']) hi rfl hc
    split_ifs at h with hne
    refine ⟨['(', '?', '<'], c :: x, hi, List.cons_ne_nil _ _, (Option.some.inj h).symm, ?_⟩
    exact fun name y hname heq => isOpener_of_cons hne hname heq
  · cases h

theorem openerAt?_of_no_opener (hi : text.drop i = '(' :: x)
    (hno : ∀ o y, IsOpener o y → '(' :: x ≠ o ++ y) : openerAt? text i = some (['('], i + 1) := by
  have hmark : x.head? = some '?' := by
    by_contra hne
    exact hno ['('] x (.unnamed hne) rfl
  obtain ⟨x, rfl⟩ := List.head?_eq_some_iff.mp hmark
  have hnext : text[i + 1]? = some '?' := getElem?_of_drop hi 1
  rw [openerAt?, if_pos hnext]
  cases hstart : nameStart? text i with
  | none => rfl
  | some start =>
    obtain ⟨w, z, hw, hne, rfl, hopener⟩ := exists_of_nameStart? hi hstart
    have hend : '>' ∉ z := by
      intro hmem
      obtain ⟨name, y, rfl, hname⟩ := List.eq_append_cons_of_mem hmem
      refine hno _ y (hopener name y hname rfl) ?_
      rw [← hi, hw]
      simp
    dsimp only
    rw [textFrom?_add_of_drop hw hne, Option.map_some, List.idxOf?_eq_none_iff.mpr hend]

theorem Copies.roundAt? (h : Copies d y d' x) (hi : text.drop i = y ++ x) :
    ∃ j, roundAt? text d i = some (y, d', j) ∧ i < j ∧ text.drop j = x := by
  have hget (k : Nat) : text[i + k]? = (y ++ x)[k]? := getElem?_of_drop hi k
  have hdrop : text.drop (i + y.length) = x := drop_add_of_drop hi
  have hfirst : text[i]? = (y ++ x)[0]? := hget 0
  rw [Pattern.roundAt?, hfirst]
  cases h with
  | escaped c =>
    refine ⟨i + 2, ?_, by omega, hdrop⟩
    simp [hget 1]
  -- a backslash ends the text, so that the round reads past the end
  | cut =>
    refine ⟨i + 2, ?_, by omega, List.drop_eq_nil_of_le ?_⟩
    · simp [hget 1]
    · have hlength := List.drop_eq_nil_iff.mp hdrop
      rw [List.length_singleton] at hlength
      omega
  | bracket h =>
    refine ⟨_, ?_, by simp, hdrop⟩
    cases h with
    | plain hcaret hbracket =>
      rw [List.head?_eq_getElem?] at hcaret hbracket
      simp [hget 1, hcaret, hbracket]
    | negated hbracket =>
      rw [List.head?_eq_getElem?] at hbracket
      simp [hget 1, hget 2, hbracket]
    | bracket => simp [hget 1]
    | negatedBracket => simp [hget 1, hget 2]
  | closing => exact ⟨i + 1, rfl, by omega, hdrop⟩
  | @plain c x hc hno =>
    refine ⟨i + 1, ?_, by omega, hdrop⟩
    change Option.bind (some c) _ = _
    rw [Option.bind_some, if_neg hc.1, if_neg hc.2.1, if_neg hc.2.2]
    split_ifs with hgroup
    · obtain ⟨rfl, rfl⟩ := hgroup
      rw [openerAt?_of_no_opener hi (hno rfl)]
      rfl
    · rfl

theorem IsOpener.roundAt? (h : IsOpener o x) (hi : text.drop i = o ++ x) :
    ∃ j, roundAt? text 0 i = some ("(?:".toList, 0, j) ∧ i < j ∧ text.drop j = x := by
  have hfirst : text[i]? = some '(' := by
    have hhead := getElem?_of_drop hi 0
    rwa [← List.head?_eq_getElem?, List.head?_append, h.head?] at hhead
  have hpos : 0 < o.length := List.length_pos_iff.mpr h.ne_nil
  refine ⟨i + o.length, ?_, by omega, drop_add_of_drop hi⟩
  rw [Pattern.roundAt?, hfirst, Option.bind_some, if_neg (by decide), if_neg (by decide),
    if_neg (by decide), if_pos ⟨rfl, rfl⟩, h.openerAt? hi]
  rfl

/-- **The scan by positions does not run out of the text**, and writes what the scan writes. -/
theorem scanAt?_eq (h : text.drop i = x) :
    scanAt? text d i = some (uncaptureFrom (.brackets d) x) := by
  -- a round and the rounds behind it
  have hround {d d' i j : Nat} {written y : List Char} (hi : text.drop i ≠ [])
      (hfirst : roundAt? text d i = some (written, d', j)) (hj : i < j)
      (hrest : scanAt? text d' j = some y) : scanAt? text d i = some (written ++ y) := by
    rw [scanAt?, if_pos (by simpa using hi), hfirst]
    dsimp only
    rw [if_pos hj, hrest, Option.map_some]
  induction d, x using scan_induction generalizing i with
  | nil d =>
    rw [scanAt?, if_neg (Nat.not_lt.mpr (List.drop_eq_nil_iff.mp h))]
    rfl
  | @copied d d' y x hpiece ih =>
    obtain ⟨j, hfirst, hj, hdrop⟩ := hpiece.roundAt? h
    have hi : text.drop i ≠ [] := h ▸ List.append_ne_nil_of_left_ne_nil hpiece.ne_nil x
    rw [hround hi hfirst hj (ih hdrop), hpiece.uncaptureFrom_append]
  | @opener o x hopener ih =>
    obtain ⟨j, hfirst, hj, hdrop⟩ := hopener.roundAt? h
    have hi : text.drop i ≠ [] := h ▸ List.append_ne_nil_of_left_ne_nil hopener.ne_nil x
    rw [hround hi hfirst hj (ih hdrop), hopener.uncaptureFrom_append]
    rfl

end Positions

/-! ### All together -/

/-- **The scan replaces openers and nothing else**, whatever the text is. It does not run out of the
text. What it writes is the text with openers replaced that it comes to outside of brackets, and
with all other characters kept. In what it has written it comes to no opener outside of brackets; so
it leaves that as it is. -/
theorem uncapture_openers (raw : String) :
    scanAt? raw.toList 0 0 = some (uncapture raw).toList ∧
    ReplacesOpeners 0 raw.toList (uncapture raw).toList ∧
    (∀ o x, IsOpener o x → ¬Scans 0 (uncapture raw).toList 0 (o ++ x)) ∧
    uncapture (uncapture raw) = uncapture raw := by
  have htext : (uncapture raw).toList = uncaptureFrom (.brackets 0) raw.toList :=
    String.toList_ofList
  have hagain : uncaptureFrom (.brackets 0) (uncapture raw).toList = (uncapture raw).toList := by
    rw [htext]
    exact uncaptureFrom_uncaptureFrom 0 raw.toList
  refine ⟨?_, ?_, fun o x hopener hscans => ?_, ?_⟩
  · rw [htext]
    exact scanAt?_eq rfl
  · rw [htext]
    exact replacesOpeners_uncaptureFrom 0 raw.toList
  · exact hopener.uncaptureFrom_ne (hscans.uncaptureFrom_eq hagain)
  · rw [uncapture, hagain, String.ofList_toList]

end Pattern

end UrlRouting

import UrlRouting.Proofs.Regex.Alike
import UrlRouting.Schema.Pattern

/-!
# The scan over the text of a validator

The scan that takes the captures out of a validator knows nothing of tokens: it counts brackets,
passes over escapes, and rewrites a parenthesis if no bracket is open. What it writes is made of
tokens all the same, and they are alike those of the validator (`UrlRouting.Pattern.exists_lexes`).

This takes one step for each way in which a token can be spelled
(`UrlRouting.Pattern.becomes_of_read?`). A token is copied, and then it is read again, since the
first character of what stands behind it stays, and no more than that is looked at ahead
(`UrlRouting.Pattern.ahead_uncaptureFrom`); or it opens a group that captures, and becomes the
opening of one that does not (`UrlRouting.Pattern.IsOpener`).

The count of the scan agrees with the classes of the validator but for one slip. An opening bracket
that is the end of a range, as in `[!-[]`, is counted as one that opens a class, so the scan stays
in brackets behind the class and leaves the groups there as they are. What is copied is read as
before even then. So the tokens are alike in any case (`UrlRouting.Pattern.MayUncapture`), and if
there is no such range then no group captures (`UrlRouting.Pattern.Uncaptures`).
-/

namespace UrlRouting

namespace Pattern

open Regex

/-! ### Single steps -/

section Steps

variable {d : Nat} {c : Char} {m x : List Char}

/-- Most characters are copied, and a parenthesis is in brackets. -/
theorem uncaptureFrom_cons (hc : c ≠ '\\' ∧ c ≠ '[' ∧ c ≠ ']') (hgroup : c = '(' → d ≠ 0)
    (x : List Char) :
    uncaptureFrom (.brackets d) (c :: x) = c :: uncaptureFrom (.brackets d) x := by
  rw [uncaptureFrom.eq_def]
  dsimp only
  rw [if_neg hc.1, if_neg hc.2.1, if_neg hc.2.2, if_neg]
  rintro ⟨heq, hd⟩
  exact hgroup heq hd

theorem uncaptureFrom_escaped (d : Nat) (c : Char) (x : List Char) :
    uncaptureFrom (.brackets d) ('\\' :: c :: x) = '\\' :: c :: uncaptureFrom (.brackets d) x := by
  rw [uncaptureFrom, if_pos rfl]

theorem uncaptureFrom_closing (d : Nat) (x : List Char) :
    uncaptureFrom (.brackets d) (']' :: x) = ']' :: uncaptureFrom (.brackets (d - 1)) x := by
  rw [uncaptureFrom.eq_def]
  rfl

/-- **A quiet text is copied.** -/
theorem uncaptureFrom_quiet {y : List Char} (hy : Quiet y) (d : Nat) (x : List Char) :
    uncaptureFrom (.brackets d) (y ++ x) = y ++ uncaptureFrom (.brackets d) x := by
  induction y with
  | nil => rfl
  | cons c y ih =>
    obtain ⟨hc, hy⟩ := List.forall_mem_cons.mp hy
    have hne : ∀ a ∈ loud, c ≠ a := fun a ha heq => hc (heq ▸ ha)
    rw [List.cons_append,
      uncaptureFrom_cons ⟨hne _ (by decide), hne _ (by decide), hne _ (by decide)⟩
      (fun heq => absurd heq (hne _ (by decide))), ih hy]
    rfl

/-- Behind an opening bracket a negation and a closing bracket are copied. -/
theorem uncaptureFrom_opening (h : ClassSet.Opening m x) (d : Nat) :
    uncaptureFrom (.brackets d) ('[' :: (m ++ x)) =
      '[' :: (m ++ uncaptureFrom (.brackets (d + 1)) x) := by
  rw [uncaptureFrom.eq_def]
  dsimp only
  rw [if_neg (by decide), if_pos rfl]
  cases h with
  | plain hcaret hbracket =>
    rw [List.nil_append]
    split
    · exact absurd rfl hcaret
    · exact absurd rfl hcaret
    · exact absurd rfl hbracket
    · rfl
  | negated hbracket =>
    rw [List.singleton_append]
    split
    · rename_i heq
      obtain ⟨-, rfl⟩ := List.cons.inj heq
      exact absurd rfl hbracket
    · rename_i heq
      obtain ⟨-, rfl⟩ := List.cons.inj heq
      rfl
    · rename_i heq
      cases heq
    · rename_i hcaret _
      exact (hcaret x rfl).elim
  | bracket => rfl
  | negatedBracket => rfl

theorem exists_opening (x : List Char) : ∃ m y, x = m ++ y ∧ ClassSet.Opening m y := by
  have hmark {a : Char} {y : List Char} (h : y.head? = some a) : ∃ z, y = a :: z :=
    List.head?_eq_some_iff.mp h
  by_cases hcaret : x.head? = some '^'
  · obtain ⟨y, rfl⟩ := hmark hcaret
    by_cases hbracket : y.head? = some ']'
    · obtain ⟨z, rfl⟩ := hmark hbracket
      exact ⟨['^', ']'], z, rfl, .negatedBracket z⟩
    · exact ⟨['^'], y, rfl, .negated hbracket⟩
  · by_cases hbracket : x.head? = some ']'
    · obtain ⟨z, rfl⟩ := hmark hbracket
      exact ⟨[']'], z, rfl, .bracket z⟩
    · exact ⟨[], x, rfl, .plain hcaret hbracket⟩

/-- Behind an opening bracket the scan is in more brackets, one or two more. -/
theorem exists_uncaptureFrom_bracket (d : Nat) (x : List Char) :
    ∃ d' > d, uncaptureFrom (.brackets d) ('[' :: x) = '[' :: uncaptureFrom (.brackets d') x := by
  obtain ⟨m, y, rfl, h⟩ := exists_opening x
  rw [uncaptureFrom_opening h]
  have hcaret (d : Nat) (z : List Char) :
      uncaptureFrom (.brackets d) ('^' :: z) = '^' :: uncaptureFrom (.brackets d) z :=
    uncaptureFrom_cons (by decide) (fun heq => absurd heq (by decide)) z
  cases h with
  | plain => exact ⟨d + 1, by omega, rfl⟩
  | negated =>
    refine ⟨d + 1, by omega, ?_⟩
    rw [List.singleton_append, List.singleton_append, hcaret]
  | bracket =>
    refine ⟨d + 2, by omega, ?_⟩
    rw [List.singleton_append, List.singleton_append, uncaptureFrom_closing, Nat.add_succ_sub_one]
  | negatedBracket =>
    refine ⟨d + 2, by omega, ?_⟩
    simp only [List.cons_append, List.nil_append]
    rw [hcaret, uncaptureFrom_closing, Nat.add_succ_sub_one]

end Steps

/-! ### What begins a text -/

/-- **The first character stays.** -/
theorem head?_uncaptureFrom (d : Nat) (x : List Char) :
    (uncaptureFrom (.brackets d) x).head? = x.head? := by
  cases x with
  | nil => rfl
  | cons c x =>
    rw [uncaptureFrom.eq_def]
    dsimp only
    split_ifs with hslash hopen hclose hgroup
    · split <;> rfl
    · split <;> rfl
    · rfl
    · obtain ⟨rfl, -⟩ := hgroup
      split <;> rfl
    · rfl

/-- What tokens look ahead for does not appear in the scanned text. -/
theorem ahead_uncaptureFrom (d : Nat) (x : List Char) :
    Ahead x (uncaptureFrom (.brackets d) x) := by
  refine ⟨fun h => ?_, fun h => unnamed_iff.mpr fun t ht => ?_⟩
  · rwa [NoMark, head?_uncaptureFrom]
  · have hhead := head?_uncaptureFrom d x
    rw [ht] at hhead
    obtain ⟨y, rfl⟩ := List.head?_eq_some_iff.mp hhead.symm
    rw [uncaptureFrom_cons (by decide) (fun heq => absurd heq (by decide))] at ht
    obtain ⟨-, rfl⟩ := List.cons.inj ht
    rw [head?_uncaptureFrom]
    exact unnamed_iff.mp h y rfl

/-! ### Classes and names -/

/-- **The text of a class is copied**, and the scan leaves the class where the class ends, unless a
range ends in an opening bracket. -/
theorem exists_uncaptureFrom_inside {wild : Prop} {n : Nat} {x : List Char}
    (h : ClassSet.Inside wild n x) {d : Nat} (hd : n < d) (rest : List Char) :
    ∃ d', uncaptureFrom (.brackets d) (x ++ rest) = x ++ uncaptureFrom (.brackets d') rest ∧
      (¬wild → d' + (n + 1) = d) := by
  induction h generalizing d with
  | close => exact ⟨d - 1, uncaptureFrom_closing d rest, fun _ => by omega⟩
  | closeInner h ih =>
    obtain ⟨d', hcopy, hdepth⟩ := ih (d := d - 1) (by omega)
    refine ⟨d', ?_, fun hwild => by have := hdepth hwild; omega⟩
    rw [List.cons_append, uncaptureFrom_closing, hcopy]
    rfl
  | plain hc h ih =>
    obtain ⟨d', hcopy, hdepth⟩ := ih hd
    refine ⟨d', ?_, hdepth⟩
    rw [List.cons_append, uncaptureFrom_cons hc fun _ => by omega, hcopy]
    rfl
  | escaped c h ih =>
    obtain ⟨d', hcopy, hdepth⟩ := ih hd
    refine ⟨d', ?_, hdepth⟩
    rw [List.cons_append, List.cons_append, uncaptureFrom_escaped, hcopy]
    rfl
  | @opening n m x hm h ih =>
    obtain ⟨d', hcopy, hdepth⟩ := ih (Nat.succ_lt_succ hd)
    refine ⟨d', ?_, fun hwild => by have := hdepth hwild; omega⟩
    have hm' : ClassSet.Opening m (x ++ rest) := hm.congr (by cases h <;> rfl)
    have htext : '[' :: m ++ x ++ rest = '[' :: (m ++ (x ++ rest)) := by simp
    rw [htext, uncaptureFrom_opening hm', hcopy]
    simp
  -- the bracket at the end of a range is no opening one, but the scan takes it for one
  | @rangeEnd n x hwild h ih =>
    obtain ⟨d₁, hd₁, hstep⟩ := exists_uncaptureFrom_bracket d (x ++ rest)
    obtain ⟨d', hcopy, -⟩ := ih (d := d₁) (by omega)
    refine ⟨d', ?_, fun hno => absurd hwild hno⟩
    rw [List.cons_append, hstep, hcopy]
    rfl

/-- In brackets a text without backslashes and parentheses is copied. -/
theorem exists_uncaptureFrom_copied {x : List Char} (hslash : '\\' ∉ x) (hgroup : '(' ∉ x)
    (d : Nat) (rest : List Char) :
    ∃ d', uncaptureFrom (.brackets d) (x ++ rest) = x ++ uncaptureFrom (.brackets d') rest := by
  induction x generalizing d with
  | nil => exact ⟨d, rfl⟩
  | cons c x ih =>
    have hc : c ≠ '\\' ∧ c ≠ '(' :=
      ⟨fun heq => hslash (heq ▸ List.mem_cons_self), fun heq => hgroup (heq ▸ List.mem_cons_self)⟩
    have hstep : ∃ d₁, uncaptureFrom (.brackets d) (c :: (x ++ rest)) =
        c :: uncaptureFrom (.brackets d₁) (x ++ rest) := by
      by_cases hopen : c = '['
      · subst hopen
        obtain ⟨d₁, -, hstep⟩ := exists_uncaptureFrom_bracket d (x ++ rest)
        exact ⟨d₁, hstep⟩
      · by_cases hclose : c = ']'
        · subst hclose
          exact ⟨d - 1, uncaptureFrom_closing d _⟩
        · exact ⟨d, uncaptureFrom_cons ⟨hc.1, hopen, hclose⟩ (fun heq => absurd heq hc.2) _⟩
    obtain ⟨d₁, hstep⟩ := hstep
    obtain ⟨d', hcopy⟩ := ih (fun h => hslash (List.mem_cons_of_mem c h))
      (fun h => hgroup (List.mem_cons_of_mem c h)) d₁
    refine ⟨d', ?_⟩
    rw [List.cons_append, hstep, hcopy]
    rfl

/-- The name of a group is left out. -/
theorem uncaptureFrom_name {x : List Char} (hx : '>' ∉ x) (rest : List Char) :
    uncaptureFrom .name (x ++ '>' :: rest) = uncaptureFrom (.brackets 0) rest := by
  induction x with
  | nil => rw [List.nil_append, uncaptureFrom, if_pos rfl]
  | cons c x ih =>
    have hc : c ≠ '>' := fun heq => hx (heq ▸ List.mem_cons_self)
    rw [List.cons_append, uncaptureFrom, if_neg hc, ih fun h => hx (List.mem_cons_of_mem c h)]

/-! ### Groups -/

/-- **The text that opens a group that captures**, and what stands behind it. -/
inductive IsOpener : List Char → List Char → Prop
  /-- A parenthesis without a question mark behind it. -/
  | unnamed {x : List Char} (h : NoMark x) : IsOpener ['('] x
  /-- A parenthesis and a name, up to its angle bracket. -/
  | named {name : List Char} (h : '>' ∉ name) (x : List Char) :
    IsOpener ('(' :: '?' :: 'P' :: '<' :: (name ++ ['>'])) x
  /-- The same without a letter. A sign in front of a name makes it something else. -/
  | angled {name : List Char} (h : '>' ∉ name)
      (hfirst : name.head? ≠ some '=' ∧ name.head? ≠ some '!') (x : List Char) :
    IsOpener ('(' :: '?' :: '<' :: (name ++ ['>'])) x

/-- A name that ends makes an opener if it does not begin with a sign. -/
theorem isOpener_of_cons {c : Char} {name rest x : List Char} (hc : c ≠ '=' ∧ c ≠ '!')
    (hname : '>' ∉ name) (h : c :: rest = name ++ '>' :: x) :
    IsOpener ('(' :: '?' :: '<' :: (name ++ ['>'])) x := by
  refine .angled hname ⟨fun hfirst => ?_, fun hfirst => ?_⟩ x
  · obtain ⟨name, rfl⟩ := List.head?_eq_some_iff.mp hfirst
    exact hc.1 (List.cons.inj h).1
  · obtain ⟨name, rfl⟩ := List.head?_eq_some_iff.mp hfirst
    exact hc.2 (List.cons.inj h).1

/-- A parenthesis that is not part of an opener has something else behind it. -/
theorem exists_isOpener {x : List Char} (h : Opener.ofText x ≠ .other) :
    ∃ o y, IsOpener o y ∧ '(' :: x = o ++ y := by
  unfold Opener.ofText at h
  split at h
  case h_1 rest =>
    split_ifs at h with hmem
    · obtain ⟨name, y, rfl, hname⟩ := List.eq_append_cons_of_mem hmem
      exact ⟨_, y, .named hname y, by simp⟩
    · exact absurd rfl h
  case h_2 c rest =>
    split_ifs at h with hmem
    · obtain ⟨name, y, heq, hname⟩ := List.eq_append_cons_of_mem hmem.2.2
      exact ⟨_, y, isOpener_of_cons ⟨hmem.1, hmem.2.1⟩ hname heq, by rw [heq]; simp⟩
    · exact absurd rfl h
  case h_3 => exact absurd rfl h
  case h_4 hno =>
    refine ⟨_, x, .unnamed fun hmark => ?_, rfl⟩
    obtain ⟨y, hy⟩ := List.head?_eq_some_iff.mp hmark
    exact hno y hy

/-- **An opener is made one of a group that does not capture.** -/
theorem IsOpener.uncaptureFrom_append {o x : List Char} (h : IsOpener o x) :
    uncaptureFrom (.brackets 0) (o ++ x) =
      '(' :: '?' :: ':' :: uncaptureFrom (.brackets 0) x := by
  -- in both spellings a name goes on up to the first angle bracket that closes
  have hname {y : List Char} (hy : '>' ∉ y) (hopener : Opener.ofText (y ++ '>' :: x) = .named) :
      uncaptureFrom (.brackets 0) ('(' :: (y ++ '>' :: x)) =
        '(' :: '?' :: ':' :: uncaptureFrom (.brackets 0) x := by
    rw [uncaptureFrom.eq_def]
    dsimp only
    rw [if_neg (by decide), if_neg (by decide), if_neg (by decide), if_pos ⟨rfl, rfl⟩, hopener]
    dsimp only
    rw [uncaptureFrom_name hy]
  cases h with
  | unnamed hmark =>
    have hno (y : List Char) : x = '?' :: y → False := by
      rintro rfl
      exact hmark rfl
    have hopener : Opener.ofText x = .unnamed := by
      rw [Opener.ofText]
      · exact fun y => hno _
      · exact fun c y => hno _
      · exact fun y => hno _
    rw [List.singleton_append, uncaptureFrom.eq_def]
    dsimp only
    rw [if_neg (by decide), if_neg (by decide), if_neg (by decide), if_pos ⟨rfl, rfl⟩, hopener]
  | @named name hend =>
    have hmem : '>' ∈ name ++ '>' :: x := List.mem_append_right name List.mem_cons_self
    have hstep := hname (y := '?' :: 'P' :: '<' :: name) (by simp [hend]) (by
      simp only [List.cons_append, Opener.ofText]
      exact if_pos hmem)
    simpa using hstep
  | @angled name hend hfirst =>
    have hopener : Opener.ofText ('?' :: '<' :: (name ++ '>' :: x)) = .named := by
      cases name with
      | nil =>
        simp only [List.nil_append, Opener.ofText]
        exact if_pos ⟨by decide, by decide, List.mem_cons_self⟩
      | cons c name =>
        simp only [List.cons_append, Opener.ofText]
        refine if_pos ⟨fun heq => hfirst.1 (congrArg some heq),
          fun heq => hfirst.2 (congrArg some heq), ?_⟩
        exact List.mem_append_right (c :: name) List.mem_cons_self
    have hstep := hname (y := '?' :: '<' :: name) (by simp [hend]) hopener
    simpa using hstep

/-- The opening of a group with a name is an opener. -/
theorem isOpener_of_isName {o name : List Char} (ho : o = "(?P<".toList ∨ o = "(?<".toList)
    (hname : isName name = true) (x : List Char) : IsOpener (o ++ name ++ ['>']) x := by
  have hend : '>' ∉ name := not_mem_of_isName hname (by decide) (by decide)
  obtain rfl | rfl := ho
  · exact .named hend x
  · obtain ⟨c, y, rfl⟩ := List.exists_cons_of_ne_nil (l := name) (by rintro rfl; cases hname)
    have hfirst : isNameChar true c = true := (Bool.and_eq_true_iff.mp hname).1
    have hne (a : Char) (ha : isNameChar true a = false) : some c ≠ some a := by
      rintro heq
      rw [Option.some.inj heq, ha] at hfirst
      cases hfirst
    exact .angled hend ⟨hne '=' (by decide), hne '!' (by decide)⟩ x

/-- In brackets a group with a name is copied, and the brackets in the name are counted. -/
theorem exists_uncaptureFrom_named {o name : List Char}
    (ho : o = "(?P<".toList ∨ o = "(?<".toList) (hname : isName name = true) {d : Nat} (hd : d ≠ 0)
    (x : List Char) : ∃ d', uncaptureFrom (.brackets d) (o ++ name ++ ['>'] ++ x) =
      o ++ name ++ ['>'] ++ uncaptureFrom (.brackets d') x := by
  have htext : ∃ y, o = '(' :: y ∧ '\\' ∉ y ∧ '(' ∉ y := by
    obtain rfl | rfl := ho
    · exact ⟨_, rfl, by decide, by decide⟩
    · exact ⟨_, rfl, by decide, by decide⟩
  obtain ⟨y, rfl, hslash, hgroup⟩ := htext
  have hnot {a : Char} (hy : a ∉ y) (hfirst : isNameChar true a = false)
      (hlater : isNameChar false a = false) (hend : a ≠ '>') : a ∉ y ++ name ++ ['>'] := by
    simp [hy, not_mem_of_isName hname hfirst hlater, hend]
  obtain ⟨d', hcopy⟩ := exists_uncaptureFrom_copied
    (hnot hslash (by decide) (by decide) (by decide))
    (hnot hgroup (by decide) (by decide) (by decide)) d x
  refine ⟨d', ?_⟩
  change uncaptureFrom (.brackets d) ('(' :: (y ++ name ++ ['>'] ++ x)) = _
  rw [uncaptureFrom_cons (by decide) (fun _ => hd), hcopy]
  rfl

/-- Other groups are copied. -/
theorem uncaptureFrom_other {x : List Char} (h : Opener.ofText x = .other) (d : Nat) :
    uncaptureFrom (.brackets d) ('(' :: x) = '(' :: uncaptureFrom (.brackets d) x := by
  rw [uncaptureFrom.eq_def]
  dsimp only
  rw [if_neg (by decide), if_neg (by decide), if_neg (by decide), h]
  split <;> rfl

theorem ofText_eq_other {c : Char} (hc : c ∉ ['=', '!', '<', 'P']) (x : List Char) :
    Opener.ofText ('?' :: c :: x) = .other := by
  rw [Opener.ofText]
  · rintro y heq
    obtain ⟨rfl, -⟩ := List.cons.inj heq
    exact hc (by decide)
  · rintro a y heq
    obtain ⟨rfl, -⟩ := List.cons.inj heq
    exact hc (by decide)

/-! ### Tokens -/

/-- **A kind and the one without a capture.** -/
def Uncaptures (k k' : GroupKind) : Prop := k' = k.uncaptured

/-- A kind, and the same one or the one without a capture. -/
def MayUncapture (k k' : GroupKind) : Prop := k' = k.uncaptured ∨ k' = k

/-- Is the token no class with a range that ends in an opening bracket? -/
def isTame : Token → Bool
  | .class_ s => s.all (ClassSet.noRangeTo '[')
  | _ => true

/-- A group that captures without a name has no question mark behind it. -/
theorem noMark_of_read? {x : List Char}
    (h : Token.read? ('(' :: x) = some (.opening (.capture none), x)) : NoMark x := by
  intro hmark
  obtain ⟨y, rfl⟩ := List.head?_eq_some_iff.mp hmark
  change readOpening? ('?' :: y) = _ at h
  unfold readOpening? at h
  split at h
  case h_7 =>
    split at h
    · cases h
    · split at h <;> cases h
    · cases h
  case h_8 hno => exact hno y rfl
  all_goals simp at h

variable {cs mid rest : List Char} {t : Token} {ts : List Token}

/-- **What a token becomes**, in so many brackets: it is alike in any case. Outside of brackets it
does not capture, and the scan is outside of brackets behind it, unless it is a class with a range
that ends in one. -/
def Becomes (d : Nat) (cs : List Char) (t : Token) (rest : List Char) : Prop :=
  ∃ t' d', Token.read? (uncaptureFrom (.brackets d) cs) =
      some (t', uncaptureFrom (.brackets d') rest) ∧
    Token.Alike MayUncapture t t' ∧
    (d = 0 → isTame t = true → d' = 0 ∧ Token.Alike Uncaptures t t')

/-- A sign of a repetition is copied. -/
theorem uncaptureFrom_sign {c : Char} (hc : c = '+' ∨ c = '*') (d : Nat) (x : List Char) :
    uncaptureFrom (.brackets d) (c :: x) = c :: uncaptureFrom (.brackets d) x := by
  rcases hc with rfl | rfl
  · exact uncaptureFrom_cons (by decide) (fun heq => absurd heq (by decide)) x
  · exact uncaptureFrom_cons (by decide) (fun heq => absurd heq (by decide)) x

theorem uncaptureFrom_lazySign {c : Char} (hc : c = '+' ∨ c = '*') (d : Nat) (x : List Char) :
    uncaptureFrom (.brackets d) (c :: '?' :: x) = c :: '?' :: uncaptureFrom (.brackets d) x := by
  rw [uncaptureFrom_sign hc]
  exact congrArg (c :: ·)
    (uncaptureFrom_quiet (y := ['?']) (quiet_cons (by decide) quiet_nil) d x)

/-- Flags, and what they open, are copied. -/
theorem uncaptureFrom_flags {c : Char} {y : List Char} (hy : Quiet (c :: y))
    (hc : c ∉ ['=', '!', '<', 'P']) (d : Nat) (x : List Char) :
    uncaptureFrom (.brackets d) ('(' :: '?' :: c :: y ++ x) =
      '(' :: '?' :: c :: y ++ uncaptureFrom (.brackets d) x := by
  have hquiet : Quiet ('?' :: c :: y) := quiet_cons (by decide) hy
  have hcopy := uncaptureFrom_quiet hquiet d x
  change uncaptureFrom (.brackets d) ('(' :: '?' :: c :: (y ++ x)) = _
  rw [uncaptureFrom_other (ofText_eq_other hc _)]
  exact congrArg ('(' :: ·) hcopy

/-- A whole class is copied. -/
theorem exists_uncaptureFrom_class {s : ClassSet} {y : List Char} (h : s.ClassText y) (d : Nat)
    (x : List Char) :
    ∃ d', uncaptureFrom (.brackets d) ('[' :: y ++ x) = '[' :: y ++ uncaptureFrom (.brackets d') x ∧
      (isTame (.class_ s) = true → d' = d) := by
  obtain ⟨m, y, rfl, hm, hy⟩ := h
  obtain ⟨d', hcopy, hdepth⟩ := exists_uncaptureFrom_inside hy (Nat.succ_pos d) x
  have hm' : ClassSet.Opening m (y ++ x) := hm.congr (by cases hy <;> rfl)
  have htext : '[' :: (m ++ y) ++ x = '[' :: (m ++ (y ++ x)) := by simp
  refine ⟨d', ?_, fun htame => ?_⟩
  · rw [htext, uncaptureFrom_opening hm', hcopy]
    simp
  · have := hdepth (Bool.eq_false_iff.mp · htame)
    omega

section Becoming

variable {d d' : Nat} {x : List Char}

/-- **A token that is copied is read again**, whatever the scan makes of what stands behind it. -/
theorem read?_of_copied (hagain : ∀ r, Ahead mid r → Token.read? (x ++ r) = some (t, r))
    (hcopy : uncaptureFrom (.brackets d) (x ++ mid) = x ++ uncaptureFrom (.brackets d') mid) :
    Token.read? (uncaptureFrom (.brackets d) (x ++ mid)) =
      some (t, uncaptureFrom (.brackets d') mid) :=
  hcopy ▸ hagain _ (ahead_uncaptureFrom d' mid)

/-- A token that is copied and opens nothing is itself. -/
theorem becomes_of_copied (hagain : ∀ r, Ahead mid r → Token.read? (x ++ r) = some (t, r))
    (ht : t.isOpening = false)
    (hcopy : uncaptureFrom (.brackets d) (x ++ mid) = x ++ uncaptureFrom (.brackets d') mid)
    (hd : isTame t = true → d' = d) : Becomes d (x ++ mid) t mid :=
  ⟨t, d', read?_of_copied hagain hcopy, .same ht,
    fun h0 htame => ⟨h0 ▸ hd htame, .same ht⟩⟩

/-- **An opener does not capture outside of brackets**, and in brackets it is copied. -/
theorem becomes_of_opener {name : Option String}
    (hagain : ∀ r, Ahead mid r → Token.read? (x ++ r) = some (.opening (.capture name), r))
    (hopener : IsOpener x mid)
    (hcopy : d ≠ 0 →
      ∃ d', uncaptureFrom (.brackets d) (x ++ mid) = x ++ uncaptureFrom (.brackets d') mid) :
    Becomes d (x ++ mid) (.opening (.capture name)) mid := by
  by_cases h0 : d = 0
  · subst h0
    refine ⟨.opening (.plain ⟨[], []⟩), 0, ?_, .opening (Or.inl rfl),
      fun _ _ => ⟨rfl, .opening rfl⟩⟩
    rw [hopener.uncaptureFrom_append]
    rfl
  · obtain ⟨d', hcopy⟩ := hcopy h0
    exact ⟨_, d', read?_of_copied hagain hcopy, .opening (Or.inr rfl), fun heq => absurd heq h0⟩

end Becoming

/-- **Every token becomes one**: one case for each way in which it can be spelled. -/
theorem becomes_of_read? (h : Token.read? cs = some (t, mid)) (d : Nat) : Becomes d cs t mid := by
  obtain ⟨x, rfl, hx, hagain⟩ := Token.determined_read? h
  cases hx with
  | quiet ht ho hx => exact becomes_of_copied hagain ht (uncaptureFrom_quiet hx d mid) fun _ => rfl
  | sign hc bounds => exact becomes_of_copied hagain rfl (uncaptureFrom_sign hc d mid) fun _ => rfl
  | lazySign hc bounds =>
    exact becomes_of_copied hagain rfl (uncaptureFrom_lazySign hc d mid) fun _ => rfl
  | bracket =>
    -- the count may go down here, but outside of brackets it cannot
    exact ⟨_, d - 1, read?_of_copied hagain (uncaptureFrom_closing d mid), .same rfl,
      fun h0 _ => ⟨by rw [h0], .same rfl⟩⟩
  | escape ht ho hx =>
    obtain ⟨c, y, rfl, hy⟩ := hx
    refine becomes_of_copied hagain ht ?_ fun _ => rfl
    change uncaptureFrom (.brackets d) ('\\' :: c :: (y ++ mid)) = _
    rw [uncaptureFrom_escaped, uncaptureFrom_quiet hy]
    rfl
  | class_ ho hx =>
    obtain ⟨d', hcopy, hdepth⟩ := exists_uncaptureFrom_class hx d mid
    exact becomes_of_copied hagain rfl hcopy hdepth
  | group =>
    exact becomes_of_opener hagain (.unnamed (noMark_of_read? h)) fun h0 =>
      ⟨d, uncaptureFrom_cons (by decide) (fun _ => h0) mid⟩
  | named ho hname =>
    exact becomes_of_opener hagain (isOpener_of_isName ho hname mid) fun h0 =>
      exists_uncaptureFrom_named ho hname h0 mid
  | plain hx hc =>
    exact ⟨_, d, read?_of_copied hagain (uncaptureFrom_flags hx hc d mid), .opening (Or.inr rfl),
      fun h0 _ => ⟨h0, .opening rfl⟩⟩
  | flags hx hc =>
    exact becomes_of_copied hagain rfl (uncaptureFrom_flags hx hc d mid) fun _ => rfl

/-- **The scanned text is made of tokens that are alike.** If no range ends in an opening bracket,
the groups among them do not capture. -/
theorem exists_lexes (h : Token.Lexes cs ts rest) (d : Nat) : ∃ us d',
    Token.Lexes (uncaptureFrom (.brackets d) cs) us (uncaptureFrom (.brackets d') rest) ∧
      List.Forall₂ (Token.Alike MayUncapture) ts us ∧
      (d = 0 → (∀ t ∈ ts, isTame t = true) → List.Forall₂ (Token.Alike Uncaptures) ts us) := by
  induction h generalizing d with
  | done cs => exact ⟨[], d, .done _, .nil, fun _ _ => .nil⟩
  | step first _ ih =>
    obtain ⟨t', d', hread, halike, htame⟩ := becomes_of_read? first d
    obtain ⟨us, d'', hlex, halikes, htames⟩ := ih d'
    refine ⟨t' :: us, d'', .step hread hlex, .cons halike halikes, fun h0 hall => ?_⟩
    obtain ⟨ht, hts⟩ := List.forall_mem_cons.mp hall
    obtain ⟨hd', hfirst⟩ := htame h0 ht
    exact .cons hfirst (htames hd' hts)

end Pattern

end UrlRouting

import UrlRouting.Proofs.Regex.Classes
import UrlRouting.Regex.Token

/-!
# Tokens and what stands behind them

A token is determined by its text, and by what follows only as far as it looks ahead
(`UrlRouting.Regex.Token.determined_read?`): a repetition and a group look for a question mark, and
a word boundary for its name (`UrlRouting.Regex.Ahead`). Everything else ends at a mark, or where no
more fits.

So the tokens of a text stay what they are wherever nothing of this kind is added. A text that is
put into a group has a closing parenthesis behind it, which is not looked for
(`UrlRouting.Regex.Token.Lexes.inGroup`); and what was read up to a closing parenthesis can be read
by itself (`UrlRouting.Regex.Token.Lexes.alone`), but for one exception that is no token: a brace in
front of the parenthesis.

How a token is spelled (`UrlRouting.Regex.Token.Spelled`) is what a scan over the text has to know
about it.
-/

namespace UrlRouting

namespace Regex

/-! ### Looking ahead -/

/-- A text that does not begin with a question mark. -/
def NoMark (cs : List Char) : Prop := cs.head? ≠ some '?'

/-- **What a token may be followed by**, if something else followed it. -/
structure Ahead (r r' : List Char) : Prop where
  /-- No question mark appears. -/
  noMark : NoMark r → NoMark r'
  /-- No name of a boundary appears. -/
  unnamed : Unnamed r → Unnamed r'

/-- A name of a boundary begins with a brace and a letter or a dash. A brace at the end of a text
may begin one. -/
theorem unnamed_iff {r : List Char} :
    Unnamed r ↔ ∀ t, r = '{' :: t → ∃ c ∈ t.head?, isBoundaryNameChar c = false := by
  unfold Unnamed readBoundary?
  split
  · rename_i c t
    constructor
    · intro h t' ht
      obtain rfl := (List.cons.inj ht).2
      refine ⟨c, rfl, Bool.eq_false_iff.mpr fun hc => ?_⟩
      rw [if_pos hc] at h
      dsimp only at h
      split at h
      · split_ifs at h <;> cases h
      · cases h
    · intro h
      obtain ⟨d, hd, hno⟩ := h _ rfl
      obtain rfl := Option.some.inj hd
      rw [if_neg (Bool.eq_false_iff.mp hno)]
  · constructor
    · intro h
      cases h
    · intro h
      obtain ⟨d, hd, -⟩ := h [] rfl
      cases hd
  · rename_i hname hbrace
    refine ⟨fun _ t ht => ?_, fun _ => rfl⟩
    cases t with
    | nil => exact absurd ht hbrace
    | cons c t => exact absurd ht (hname c t)

section Ahead

variable {r z : List Char}

theorem Ahead.append (h : r = [] → NoMark z ∧ Unnamed z) : Ahead r (r ++ z) := by
  cases r with
  | nil => exact ⟨fun _ => (h rfl).1, fun _ => (h rfl).2⟩
  | cons c r =>
    refine ⟨fun hr => hr, fun hr => unnamed_iff.mpr fun t ht => ?_⟩
    obtain ⟨rfl, rfl⟩ := List.cons.inj ht
    obtain ⟨d, hd, hname⟩ := unnamed_iff.mp hr r rfl
    obtain ⟨r, rfl⟩ := List.head?_eq_some_iff.mp hd
    exact ⟨d, rfl, hname⟩

/-- A text may end in front of a closing parenthesis, unless it ends with a brace. -/
theorem Ahead.of_closing {more : List Char} (h : r ≠ ['{']) : Ahead (r ++ ')' :: more) r := by
  cases r with
  | nil => exact ⟨fun _ => by simp [NoMark], fun _ => rfl⟩
  | cons c r =>
    refine ⟨fun hr => hr, fun hr => unnamed_iff.mpr fun t ht => ?_⟩
    obtain ⟨rfl, rfl⟩ := List.cons.inj ht
    obtain ⟨d, hd, hname⟩ := unnamed_iff.mp hr _ rfl
    cases r with
    | nil => exact absurd rfl h
    | cons e r => exact ⟨d, hd, hname⟩

end Ahead

/-! ### Repetitions -/

/-- A number ends where neither a digit nor white space follows. -/
theorem determined_readBound? :
    Determined (fun _ => Quiet) (fun _ => SameHead) readBound? := by
  intro cs n rest h
  unfold readBound? at h
  obtain ⟨x, r, rfl, -, hx, hxblank, hxend⟩ := exists_cut Text.isBlank cs
  rw [hx] at h
  obtain ⟨y, r, rfl, hy, hy', hydigit, hyend⟩ := exists_cut (fun c => '0' ≤ c && c ≤ '9') r
  obtain ⟨z, r, rfl, -, hz, hzblank, hzend⟩ := exists_cut Text.isBlank r
  simp only [hy, hy', hz] at h
  split at h
  · cases h
  · rename_i hne
    split_ifs at h with hle
    obtain ⟨rfl, rfl⟩ := Prod.mk.inj (Option.some.inj h)
    have hquiet : Quiet (x ++ (y ++ z)) :=
      (quiet_of (by decide) hxblank).append
        ((quiet_of (by decide) hydigit).append (quiet_of (by decide) hzblank))
    refine ⟨x ++ (y ++ z), by simp, hquiet, fun r' hr => ?_⟩
    have hend {p : Char → Bool} {w : List Char} (hw : ∀ a ∈ (w ++ r).head?, p a = false) :
        ∀ a ∈ (w ++ r').head?, p a = false := by
      rwa [← hr.append w]
    have hcutx := cut_append hxblank (hend (w := y ++ z) (by rwa [List.append_assoc]))
    have hcuty := cut_append hydigit (hend hyend)
    have hcutz := cut_append hzblank (r := r') (hend (w := []) hzend)
    unfold readBound?
    simp only [List.append_assoc] at hcutx ⊢
    simp only [hcutx.2, hcuty.1, hcuty.2, hcutz.2]
    rw [if_pos hle]

/-- **Bounds end with a brace**, and nothing behind it matters. -/
theorem determined_readBounds? : Determined (fun _ => Quiet) (fun _ _ _ => True) readBounds? := by
  intro cs b rest h
  unfold readBounds? at h
  split at h
  · rename_i hbound
    cases h
    obtain ⟨x, rfl, hx, hagain⟩ := determined_readBound? hbound
    refine ⟨x ++ ['}'], by simp, hx.append (quiet_cons (by decide) quiet_nil), fun r _ => ?_⟩
    rw [List.append_assoc, List.singleton_append, readBounds?, hagain ('}' :: r) rfl]
    rfl
  · rename_i hbound
    cases h
    obtain ⟨x, rfl, hx, hagain⟩ := determined_readBound? hbound
    refine ⟨x ++ [',', '}'], by simp,
      hx.append (quiet_cons (by decide) (quiet_cons (by decide) quiet_nil)), fun r _ => ?_⟩
    rw [List.append_assoc, List.cons_append, List.singleton_append, readBounds?,
      hagain (',' :: '}' :: r) rfl]
    rfl
  · -- a comma and another number: the brace behind that one ends the bounds
    rename_i n behind hopen hbound
    split at h
    · rename_i m behind' hbound'
      split_ifs at h with hle
      cases h
      obtain ⟨x, rfl, hx, hagain⟩ := determined_readBound? hbound
      obtain ⟨y, rfl, hy, hagain'⟩ := determined_readBound? hbound'
      have hquiet : Quiet (x ++ ',' :: (y ++ ['}'])) :=
        hx.append (quiet_cons (by decide) (hy.append (quiet_cons (by decide) quiet_nil)))
      refine ⟨x ++ ',' :: (y ++ ['}']), by simp, hquiet, fun r _ => ?_⟩
      have htext : x ++ ',' :: (y ++ ['}']) ++ r = x ++ ',' :: (y ++ '}' :: r) := by simp
      rw [htext, readBounds?, hagain (',' :: (y ++ '}' :: r)) rfl]
      split
      · rename_i heq
        cases heq
      · -- the second number does not begin with the brace
        rename_i heq
        obtain ⟨-, heq⟩ := Prod.mk.inj (Option.some.inj heq)
        obtain ⟨t, ht⟩ := List.head?_eq_some_iff.mp
          ((sameHead_mark y '}' rest r).trans (congrArg List.head? (List.cons.inj heq).2))
        exact (hopen t ht).elim
      · rename_i heq
        cases heq
        rw [hagain' ('}' :: r) rfl]
        exact if_pos hle
      · rename_i hno
        exact (hno _ _ rfl).elim
    · cases h
  · cases h

/-- The repetition with the given bounds; a question mark behind it belongs to it. -/
theorem determined_repeated (bounds : Bounds) :
    Determined (fun t x => (t = .repetition bounds true ∧ x = []) ∨
        t = .repetition bounds false ∧ x = ['?'])
      (fun _ r r' => NoMark r → NoMark r') fun cs => some (Token.repeated bounds cs) := by
  intro cs t rest h
  dsimp only at h
  unfold Token.repeated at h
  split at h
  · cases h
    exact ⟨['?'], rfl, Or.inr ⟨rfl, rfl⟩, fun _ _ => rfl⟩
  · rename_i hno
    cases h
    have hmark : NoMark cs := by
      intro heq
      obtain ⟨t, ht⟩ := List.head?_eq_some_iff.mp heq
      exact hno t ht
    refine ⟨[], rfl, Or.inl ⟨rfl, rfl⟩, fun r hr => congrArg some ?_⟩
    rw [List.nil_append, Token.repeated]
    rintro t rfl
    exact hr hmark rfl

/-! ### Openings of groups -/

/-- A character that is in no name of a group. -/
theorem not_mem_of_isName {name : List Char} {d : Char} (h : isName name = true)
    (hfirst : isNameChar true d = false) (hlater : isNameChar false d = false) : d ∉ name := by
  cases name with
  | nil => cases h
  | cons c rest =>
    obtain ⟨hc, hrest⟩ := Bool.and_eq_true_iff.mp h
    intro hd
    rcases List.mem_cons.mp hd with rfl | hd
    · rw [hfirst] at hc
      cases hc
    · rw [List.all_eq_true.mp hrest d hd] at hlater
      cases hlater

/-- A name ends with its angle bracket. -/
theorem determined_readName? :
    Determined (fun name x => ∃ y, x = y ++ ['>'] ∧ isName y = true ∧ name = String.ofList y)
      (fun _ _ _ => True) readName? := by
  intro cs name rest h
  unfold readName? at h
  obtain ⟨y, r, rfl, hy, hr, hyname, hend⟩ := exists_cut (· != '>') cs
  dsimp only at h
  rw [hy, hr] at h
  cases r with
  | nil => cases h
  | cons d r =>
    obtain rfl : d = '>' := eq_of_mem_head? hend rfl
    dsimp only at h
    split_ifs at h with hname
    cases h
    refine ⟨y ++ ['>'], by simp, ⟨y, rfl, hname, rfl⟩, fun r' _ => ?_⟩
    have htext : y ++ ['>'] ++ r' = y ++ '>' :: r' := by simp
    rw [htext, readName?, (cut_mark hyname r').1, (cut_mark hyname r').2]
    exact if_pos hname

/-- A letter of a flag, or the dash between flags. -/
def isFlagChar (c : Char) : Bool := c == '-' || (Flag.ofChar? c).isSome

/-- Flags end in front of the colon or the closing parenthesis behind them. -/
theorem determined_readFlags? (negated : Option Bool) (change : FlagChange) :
    Determined (fun _ x => ∀ c ∈ x, isFlagChar c = true) (fun _ => SameHead)
      (readFlags? negated change) := by
  intro cs c rest h
  fun_induction readFlags? negated change cs with
  | case3 negated change c cs hc hdash =>
    cases h
    refine ⟨[], rfl, List.forall_mem_nil _, fun r hr => ?_⟩
    obtain ⟨t, rfl⟩ := List.head?_eq_some_iff.mp (hr.symm.trans (rfl : (c :: cs).head? = some c))
    rw [List.nil_append, readFlags?, if_pos hc, if_neg hdash]
  | case5 negated change cs hno hc ih =>
    obtain ⟨x, rfl, hx, hagain⟩ := ih h
    refine ⟨'-' :: x, rfl, List.forall_mem_cons.mpr ⟨rfl, hx⟩, fun r hr => ?_⟩
    rw [List.cons_append, readFlags?, if_neg hc, if_pos rfl, if_neg hno]
    exact hagain r hr
  | case8 negated change c cs hc hdash f hf hnew hno ih =>
    obtain ⟨x, rfl, hx, hagain⟩ := ih h
    refine ⟨c :: x, rfl, List.forall_mem_cons.mpr ⟨by simp [isFlagChar, hf], hx⟩, fun r hr => ?_⟩
    rw [List.cons_append, readFlags?, if_neg hc, if_neg hdash, hf]
    dsimp only
    rw [if_neg hnew, if_pos hno]
    exact hagain r hr
  | case9 negated change c cs hc hdash f hf hnew hno ih =>
    obtain ⟨x, rfl, hx, hagain⟩ := ih h
    refine ⟨c :: x, rfl, List.forall_mem_cons.mpr ⟨by simp [isFlagChar, hf], hx⟩, fun r hr => ?_⟩
    rw [List.cons_append, readFlags?, if_neg hc, if_neg hdash, hf]
    dsimp only
    rw [if_neg hnew, if_neg hno]
    exact hagain r hr
  | _ => cases h

/-! ### How tokens are spelled -/

namespace Token

/-- Does the token open a group? -/
def isOpening : Token → Bool
  | .opening _ => true
  | _ => false

/-- Is the token no class with a range that ends in front of its start? -/
def isOrdered : Token → Bool
  | .class_ s => s.all ClassSet.isOrdered
  | _ => true

/-- **How a token is spelled**: what a scan has to know of its text. -/
inductive Spelled : Token → List Char → Prop
  /-- A quiet text. -/
  | quiet {t : Token} {c : Char} {x : List Char} (ht : t.isOpening = false)
    (ho : t.isOrdered = true) (hx : Quiet (c :: x)) : Spelled t (c :: x)
  /-- A repetition without an upper bound. -/
  | sign {c : Char} (hc : c = '+' ∨ c = '*') (bounds : Bounds) :
    Spelled (.repetition bounds true) [c]
  /-- A lazy repetition without an upper bound. -/
  | lazySign {c : Char} (hc : c = '+' ∨ c = '*') (bounds : Bounds) :
    Spelled (.repetition bounds false) [c, '?']
  /-- A closing bracket that closes nothing. -/
  | bracket : Spelled (.char ']') [']']
  /-- An escape. -/
  | escape {t : Token} {x : List Char} (ht : t.isOpening = false) (ho : t.isOrdered = true)
    (hx : EscapeText x) : Spelled t ('\\' :: x)
  /-- A class. -/
  | class_ {s : ClassSet} {x : List Char} (ho : s.all ClassSet.isOrdered = true)
    (hx : s.ClassText x) : Spelled (.class_ s) ('[' :: x)
  /-- A group that captures without a name. -/
  | group : Spelled (.opening (.capture none)) ['(']
  /-- A group that captures under a name. -/
  | named {o name : List Char} (ho : o = "(?P<".toList ∨ o = "(?<".toList)
    (hname : isName name = true) :
    Spelled (.opening (.capture (some (String.ofList name)))) (o ++ name ++ ['>'])
  /-- A group that does not capture. -/
  | plain {change : FlagChange} {c : Char} {x : List Char} (hx : Quiet (c :: x))
    (hc : c ∉ ['=', '!', '<', 'P']) : Spelled (.opening (.plain change)) ('(' :: '?' :: c :: x)
  /-- A change of flags. -/
  | flags {change : FlagChange} {c : Char} {x : List Char} (hx : Quiet (c :: x))
    (hc : c ∉ ['=', '!', '<', 'P']) : Spelled (.flags change) ('(' :: '?' :: c :: x)

theorem Spelled.ne_nil {t : Token} {x : List Char} (h : Spelled t x) : x ≠ [] := by
  cases h with
  | named ho hname => exact List.append_ne_nil_of_right_ne_nil _ (List.cons_ne_nil _ _)
  | _ => exact List.cons_ne_nil _ _

theorem Spelled.isOrdered {t : Token} {x : List Char} (h : Spelled t x) : t.isOrdered = true := by
  cases h with
  | quiet ht ho hx => exact ho
  | escape ht ho hx => exact ho
  | class_ ho hx => exact ho
  | _ => rfl

/-- Flags and the mark behind them are quiet, and are taken for nothing else. -/
theorem flags_spelled {x : List Char} {d : Char} (hx : ∀ c ∈ x, isFlagChar c = true)
    (hd : d = ':' ∨ d = ')') :
    ∃ c y, x ++ [d] = c :: y ∧ Quiet (c :: y) ∧ c ∉ ['=', '!', '<', 'P'] := by
  have hmark : d ∉ loud ∧ d ∉ ['=', '!', '<', 'P'] := by
    rcases hd with rfl | rfl <;> decide
  have hquiet : Quiet (x ++ [d]) :=
    (quiet_of (by decide) hx).append (quiet_cons hmark.1 quiet_nil)
  cases x with
  | nil => exact ⟨d, [], rfl, hquiet, hmark.2⟩
  | cons c x =>
    refine ⟨c, x ++ [d], rfl, hquiet, fun hc => ?_⟩
    have hnone : ['=', '!', '<', 'P'].any isFlagChar = false := by decide
    exact List.any_eq_false.mp hnone c hc (hx c List.mem_cons_self)

/-- A name and its angle bracket are the rest of the opening of a group. -/
theorem determined_readNamed? :
    Determined (fun t x => ∃ y, x = y ++ ['>'] ∧ isName y = true ∧
        t = Token.opening (.capture (some (String.ofList y)))) (fun _ _ _ => True)
      fun r => (readName? r).map fun r => (Token.opening (.capture (some r.1)), r.2) := by
  refine determined_readName?.map (fun name => Token.opening (.capture (some name))) ?_
    fun _ _ _ _ => trivial
  rintro _ x ⟨y, rfl, hy, rfl⟩
  exact ⟨y, rfl, hy, rfl⟩

/-- A name is not taken for the sign of a look-behind. -/
theorem ne_cons_of_isName {name : List Char} {d : Char} (h : isName name = true)
    (hd : isNameChar true d = false) (r t : List Char) : name ++ r ≠ d :: t := by
  intro ht
  cases name with
  | nil => cases h
  | cons c name =>
    obtain ⟨rfl, -⟩ := List.cons.inj ht
    rw [isName, hd] at h
    cases h

/-- Flags are read up to the mark that shows whether a group follows them. -/
theorem readOpening?_flags {x r : List Char} {d : Char} {change : FlagChange} {t : Token}
    (hx : ∀ c ∈ x, isFlagChar c = true)
    (hflags : readFlags? none ⟨[], []⟩ (x ++ d :: r) = some (change, d :: r))
    (ht : d = ':' ∧ t = .opening (.plain change) ∨
      d = ')' ∧ ¬(change.on.isEmpty && change.off.isEmpty) = true ∧ t = .flags change) :
    readOpening? ('?' :: (x ++ d :: r)) = some (t, r) := by
  obtain ⟨c, y, hy, -, hc⟩ := flags_spelled hx (ht.imp And.left And.left)
  have htext : x ++ d :: r = c :: (y ++ r) := by
    rw [← List.cons_append, ← hy, List.append_assoc, List.singleton_append]
  have hno (e : Char) (he : e ∈ ['=', '!', '<', 'P']) (t : List Char)
      (heq : x ++ d :: r = e :: t) : False := by
    obtain ⟨rfl, -⟩ := List.cons.inj (htext.symm.trans heq)
    exact hc he
  rw [readOpening?.eq_7 (x ++ d :: r) (hno '=' (by decide)) (hno '!' (by decide))
    (fun t => hno '<' (by decide) _) (fun t => hno '<' (by decide) _)
    (fun t => hno 'P' (by decide) _) (hno '<' (by decide)), hflags]
  obtain ⟨rfl, rfl⟩ | ⟨rfl, hchange, rfl⟩ := ht
  · rfl
  · exact if_neg hchange

/-- Flags are determined by their text and the mark behind them. -/
theorem exists_flags {cs rest : List Char} {d : Char} {change : FlagChange} {t : Token}
    (hflags : readFlags? none ⟨[], []⟩ cs = some (change, d :: rest))
    (ht : d = ':' ∧ t = .opening (.plain change) ∨
      d = ')' ∧ ¬(change.on.isEmpty && change.off.isEmpty) = true ∧ t = .flags change) :
    ∃ x, '?' :: cs = x ++ rest ∧ Spelled t ('(' :: x) ∧ ∀ r, readOpening? (x ++ r) = some (t, r) := by
  obtain ⟨x, rfl, hx, hagain⟩ := determined_readFlags? _ _ hflags
  obtain ⟨c, y, hy, hquiet, hc⟩ := flags_spelled hx (ht.imp And.left And.left)
  refine ⟨'?' :: (x ++ [d]), by simp, ?_, fun r => ?_⟩
  · rw [hy]
    obtain ⟨-, rfl⟩ | ⟨-, -, rfl⟩ := ht
    · exact .plain hquiet hc
    · exact .flags hquiet hc
  · rw [List.cons_append, List.append_assoc, List.singleton_append]
    exact readOpening?_flags hx (hagain (d :: r) rfl) ht

/-- **The opening of a group is determined by its text**; one that captures without a name looks for
a question mark. -/
theorem determined_readOpening? :
    Determined (fun t x => Spelled t ('(' :: x)) (fun _ r r' => NoMark r → NoMark r')
      readOpening? := by
  intro cs t rest h
  unfold readOpening? at h
  split at h
  · cases h
  · cases h
  · cases h
  · cases h
  · obtain ⟨_, rfl, ⟨y, rfl, hy, rfl⟩, hagain⟩ := determined_readNamed? h
    refine ⟨"?P<".toList ++ y ++ ['>'], by simp, .named (Or.inl rfl) hy, fun r _ => ?_⟩
    change readOpening? ('?' :: 'P' :: '<' :: (y ++ ['>'] ++ r)) = _
    rw [readOpening?]
    exact hagain r trivial
  · obtain ⟨_, rfl, ⟨y, rfl, hy, rfl⟩, hagain⟩ := determined_readNamed? h
    refine ⟨"?<".toList ++ y ++ ['>'], by simp, .named (Or.inr rfl) hy, fun r _ => ?_⟩
    change readOpening? ('?' :: '<' :: (y ++ ['>'] ++ r)) = _
    have hfirst (d : Char) (hd : isNameChar true d = false) (t : List Char) :
        y ++ ['>'] ++ r ≠ d :: t := by
      rw [List.append_assoc]
      exact ne_cons_of_isName hy hd _ t
    rw [readOpening?]
    · exact hagain r trivial
    · exact hfirst '=' (by decide)
    · exact hfirst '!' (by decide)
  · -- flags, with a group behind them or without one
    split at h
    · rename_i change behind hflags
      cases h
      obtain ⟨x, hx, hspelled, hagain⟩ := exists_flags hflags (Or.inl ⟨rfl, rfl⟩)
      exact ⟨x, hx, hspelled, fun r _ => hagain r⟩
    · rename_i change behind hflags
      split_ifs at h with hempty
      cases h
      obtain ⟨x, hx, hspelled, hagain⟩ := exists_flags hflags (Or.inr ⟨rfl, hempty, rfl⟩)
      exact ⟨x, hx, hspelled, fun r _ => hagain r⟩
    · cases h
  · rename_i h1 h2 h3 h4 h5 h6 hmark
    cases h
    have hno : NoMark cs := by
      intro heq
      obtain ⟨t, ht⟩ := List.head?_eq_some_iff.mp heq
      exact hmark t ht
    refine ⟨[], rfl, .group, fun r hr => ?_⟩
    have hnext (t : List Char) : r = '?' :: t → False := by
      rintro rfl
      exact hr hno rfl
    rw [List.nil_append, readOpening?]
    all_goals exact fun t => hnext _

/-! ### Reading one token -/

/-- A repetition without an upper bound, and the question mark that it may have. -/
theorem Spelled.signRepetition {c : Char} (hc : c = '+' ∨ c = '*') (bounds : Bounds)
    (greedy : Bool) :
    Spelled (.repetition bounds greedy) (if greedy then [c] else [c] ++ ['?']) := by
  cases greedy with
  | true => exact .sign hc bounds
  | false => exact .lazySign hc bounds

/-- A repetition with other bounds, and the question mark that it may have. -/
theorem Spelled.quietRepetition {c : Char} {x : List Char} (hx : Quiet (c :: x)) (bounds : Bounds)
    (greedy : Bool) :
    Spelled (.repetition bounds greedy) (if greedy then c :: x else c :: x ++ ['?']) := by
  cases greedy with
  | true => exact .quiet rfl rfl hx
  | false => exact .quiet rfl rfl (hx.append (quiet_cons (by decide) quiet_nil))

/-- A character that means nothing else. -/
theorem Spelled.char {c : Char} (h : ∀ d ∈ loud, d ≠ ']' → c ≠ d) : Spelled (.char c) [c] := by
  by_cases hend : c = ']'
  · subst hend
    exact .bracket
  · exact .quiet rfl rfl (quiet_cons (fun hloud => h c hloud hend rfl) quiet_nil)

/-- **A repetition is read** up to the question mark that it may have. -/
theorem exists_repetition {cs x r rest : List Char} {bounds : Bounds} {t : Token}
    (hcs : cs = x ++ r) (hread : ∀ r, read? (x ++ r) = some (repeated bounds r))
    (hx : ∀ greedy, Spelled (.repetition bounds greedy) (if greedy then x else x ++ ['?']))
    (h : repeated bounds r = (t, rest)) :
    ∃ x, cs = x ++ rest ∧ Spelled t x ∧ ∀ r, Ahead rest r → read? (x ++ r) = some (t, r) := by
  obtain ⟨y, rfl, hy, hagain⟩ := determined_repeated bounds (congrArg some h)
  refine ⟨x ++ y, by rw [hcs, List.append_assoc], ?_, fun r' hr => ?_⟩
  · obtain ⟨rfl, rfl⟩ | ⟨rfl, rfl⟩ := hy
    · rw [List.append_nil]
      exact hx true
    · exact hx false
  · rw [List.append_assoc, hread]
    exact hagain r' hr.noMark

/-- **A token is determined by its text**, and by what follows as far as it looks ahead. -/
theorem determined_read? : Determined Spelled (fun _ => Ahead) read? := by
  intro cs t rest h
  cases cs with
  | nil => cases h
  | cons c cs =>
    unfold read? at h
    dsimp only at h
    -- a character that is a token whatever follows
    have hone {t : Token} (ht : Spelled t [c]) (hread : ∀ r, read? (c :: r) = some (t, r)) :
        ∃ x, c :: cs = x ++ cs ∧ Spelled t x ∧
          ∀ r, Ahead cs r → read? (x ++ r) = some (t, r) :=
      ⟨[c], rfl, ht, fun r _ => hread r⟩
    have hmark {t : Token} (ht : t.isOpening = false) (ho : t.isOrdered = true) (hc : c ∉ loud) :
        Spelled t [c] := .quiet ht ho (quiet_cons hc quiet_nil)
    split at h
    · obtain ⟨x, rfl, hx, hagain⟩ := determined_readOpening? h
      exact ⟨_, rfl, hx, fun r hr => hagain r hr.noMark⟩
    · cases h
      exact hone (hmark rfl rfl (by decide)) fun _ => rfl
    · cases h
      exact hone (hmark rfl rfl (by decide)) fun _ => rfl
    · obtain ⟨⟨s, rest⟩, hs, heq⟩ := Option.map_eq_some_iff.mp h
      obtain ⟨rfl, rfl⟩ := Prod.mk.inj heq
      obtain ⟨x, rfl, ⟨ho, hx⟩, hagain⟩ := ClassSet.determined_read? hs
      refine ⟨'[' :: x, rfl, .class_ ho hx, fun r _ => ?_⟩
      exact congrArg (Option.map fun r => (Token.class_ r.1, r.2)) (hagain r trivial)
    · exact exists_repetition (x := ['?']) rfl (fun _ => rfl)
        (.quietRepetition (quiet_cons (by decide) quiet_nil) _) (Option.some.inj h)
    · exact exists_repetition (x := ['*']) rfl (fun _ => rfl) (.signRepetition (Or.inr rfl) _)
        (Option.some.inj h)
    · exact exists_repetition (x := ['+']) rfl (fun _ => rfl) (.signRepetition (Or.inl rfl) _)
        (Option.some.inj h)
    · obtain ⟨⟨b, behind⟩, hb, hr⟩ := Option.map_eq_some_iff.mp h
      obtain ⟨x, rfl, hx, hagain⟩ := determined_readBounds? hb
      refine exists_repetition (x := '{' :: x) rfl (fun r => ?_)
        (.quietRepetition (quiet_cons (by decide) hx) b) hr
      exact congrArg (Option.map fun r => Token.repeated r.1 r.2) (hagain r trivial)
    · cases h
      exact hone (hmark rfl rfl (by decide)) fun _ => rfl
    · cases h
      exact hone (hmark rfl rfl (by decide)) fun _ => rfl
    · cases h
      exact hone (hmark rfl rfl (by decide)) fun _ => rfl
    · split at h
      all_goals first
        | cases h; done
        | rename_i hread
          cases h
          obtain ⟨x, rfl, hx, hagain⟩ := determined_escape hread
          refine ⟨'\\' :: x, rfl, .escape rfl rfl hx, fun r hr => ?_⟩
          have hagain' := hagain r fun _ => hr.unnamed
          rw [List.cons_append, read?, hagain']
    · rename_i hopen hclose hbar hbracket hquestion hstar hplus hbrace hdot hcaret hdollar hslash
      cases h
      refine hone (.char fun d hd hend heq => ?_) fun r => ?_
      · subst heq
        simp only [loud, List.mem_cons, List.not_mem_nil, or_false] at hd
        obtain rfl | rfl | rfl | rfl | rfl | rfl := hd
        exacts [hslash rfl, hbracket rfl, hend rfl, hopen rfl, hplus rfl, hstar rfl]
      · rw [read?]
        all_goals assumption

/-! ### Texts -/

/-- **A text begins with tokens**: they are read off it one after the other, and a rest is left. -/
inductive Lexes : List Char → List Token → List Char → Prop
  /-- No more tokens are read. -/
  | done (cs : List Char) : Lexes cs [] cs
  /-- One token is read, then others. -/
  | step {cs mid rest : List Char} {t : Token} {ts : List Token} (first : read? cs = some (t, mid))
      (more : Lexes mid ts rest) : Lexes cs (t :: ts) rest

variable {cs mid rest : List Char} {t : Token} {ts us : List Token} {fuel : Nat}

theorem Lexes.single (h : read? cs = some (t, rest)) : Lexes cs [t] rest := .step h (.done rest)

theorem Lexes.append (h : Lexes cs ts mid) (h' : Lexes mid us rest) : Lexes cs (ts ++ us) rest := by
  induction h with
  | done => exact h'
  | step first _ ih => exact .step first (ih h')

theorem Lexes.suffix (h : Lexes cs ts rest) : rest <:+ cs := by
  induction h with
  | done cs => exact List.suffix_refl cs
  | step first _ ih =>
    obtain ⟨x, rfl, -⟩ := determined_read? first
    exact ih.trans (List.suffix_append x _)

/-- There are no more tokens than characters. -/
theorem Lexes.length_le (h : Lexes cs ts rest) : ts.length ≤ cs.length := by
  induction h with
  | done => exact Nat.zero_le _
  | step first _ ih =>
    obtain ⟨x, rfl, hx, -⟩ := determined_read? first
    have hpos := List.length_pos_iff.mpr hx.ne_nil
    rw [List.length_cons, List.length_append]
    omega

/-- **Tokens in front of a closing parenthesis** are those of the text by itself. -/
theorem Lexes.inGroup (h : Lexes cs ts rest) (more : List Char) :
    Lexes (cs ++ ')' :: more) ts (rest ++ ')' :: more) := by
  induction h with
  | done => exact .done _
  | step first _ ih =>
    obtain ⟨x, rfl, -, hagain⟩ := determined_read? first
    rw [List.append_assoc]
    refine .step (hagain _ (.append fun _ => ⟨by simp [NoMark], unnamed_iff.mpr ?_⟩)) ih
    exact fun t ht => absurd (List.cons.inj ht).1 (by decide)

/-- A brace in front of a closing parenthesis begins no token. -/
theorem read?_brace (more : List Char) : read? ('{' :: ')' :: more) = none := by
  have hblank : Text.isBlank ')' = false := by decide
  simp [read?, readBounds?, readBound?, hblank]

/-- **Tokens up to a closing parenthesis** are the tokens of the text in front of it. -/
theorem Lexes.alone {more : List Char} (h : Lexes (cs ++ ')' :: more) ts (')' :: more)) :
    Lexes cs ts [] := by
  generalize hfull : cs ++ ')' :: more = full at h
  generalize hend : ')' :: more = last at h
  induction h generalizing cs with
  | done =>
    subst hfull
    have hnil : cs = [] := List.append_left_eq_self.mp hend.symm
    subst hnil
    exact .done []
  | @step _ mid _ t ts first hmore ih =>
    subst hend
    obtain ⟨x, rfl, -, hagain⟩ := determined_read? first
    obtain ⟨y, rfl⟩ := hmore.suffix
    obtain rfl : cs = x ++ y :=
      List.append_cancel_right (hfull.trans (List.append_assoc x y _).symm)
    by_cases hbrace : y = ['{']
    · subst hbrace
      cases hmore with
      | step first' =>
        change read? ('{' :: ')' :: more) = _ at first'
        rw [read?_brace] at first'
        cases first'
    · exact .step (hagain y (.of_closing hbrace)) (ih rfl rfl)

theorem lexes_of_readAll? (h : readAll? fuel cs = some ts) :
    Lexes cs ts [] ∧ ts.length ≤ fuel := by
  induction fuel generalizing cs ts with
  | zero =>
    cases cs with
    | nil =>
      cases h
      exact ⟨.done [], Nat.le_refl 0⟩
    | cons c cs => cases h
  | succ fuel ih =>
    cases cs with
    | nil =>
      cases h
      exact ⟨.done [], Nat.zero_le _⟩
    | cons c cs =>
      rw [readAll?] at h
      split at h
      · rename_i t mid hread
        obtain ⟨us, hus, rfl⟩ := Option.map_eq_some_iff.mp h
        obtain ⟨hlex, hle⟩ := ih hus
        exact ⟨.step hread hlex, Nat.succ_le_succ hle⟩
      · cases h

theorem Lexes.readAll?_eq (h : Lexes cs ts []) (hle : ts.length ≤ fuel) :
    readAll? fuel cs = some ts := by
  generalize hrest : ([] : List Char) = rest at h
  induction h generalizing fuel with
  | done cs =>
    subst hrest
    cases fuel <;> rfl
  | @step cs mid rest t ts first _ ih =>
    obtain ⟨n, rfl⟩ := Nat.exists_eq_add_of_lt hle
    cases cs with
    | nil => cases first
    | cons c cs =>
      rw [readAll?, first]
      dsimp only
      rw [ih (by rw [List.length_cons] at hle; omega) hrest]
      rfl

/-- **The tokens of a text**: all that it begins with when nothing is left. -/
theorem ofText?_eq_some_iff {text : String} :
    ofText? text = some ts ↔ Lexes text.toList ts [] ∧ ts.length ≤ text.toList.length :=
  ⟨lexes_of_readAll?, fun h => h.1.readAll?_eq h.2⟩

end Token

end Regex

end UrlRouting

import UrlRouting.Proofs.Regex.Ways

/-!
# A search finds the first way

The value of an expression at a place was computed from what is known of the next place. Here it is
shown to be what it should be: the notes of the first of all ways that can be continued
(`UrlRouting.Regex.Expr.value_eq`), whatever the value of what follows is. So a search finds the
first way from the first place where there is one (`UrlRouting.Regex.Expr.find?_eq`).

The argument is an invariant, `UrlRouting.Regex.Expr.Knows`: what is known of a place and of those
behind it is the continuation behind each set and each word there. It holds behind the end of a
text, where nothing is known, and looking at a place in front keeps it
(`UrlRouting.Regex.Expr.knows_step`). The continuation depends on where in the expression one is.
Behind a round of a loop it is the loop again, and that is where the two values of the body of a
loop come from: it is entered with a round that may read nothing, and gone on with by rounds that
may not.
-/

namespace UrlRouting

namespace Regex

open Ways

/-- What follows at each place: the notes from there to the end, if the end can be reached. -/
abbrev After := Position → Option Trail

/-! ### Continuations -/

/-- What follows at the beginning of a list of ways. -/
def along (ways : Position → List Way) (after : After) : After := fun P => firstTrail (ways P) after

/-- What follows at the end of a capture. -/
def closing (name : Option String) (after : After) : After :=
  fun P => noted (.closed · P.rest) name (after P)

section Along

variable {after other : After} {ways : Position → List Way} {P : Position} {n : Nat}

theorem along_extend (ways next : Position → List Way) (after : After) :
    along (fun P => extend (ways P) next) after = along ways (along next after) :=
  funext fun _ => firstTrail_extend _

theorem along_stay (after : After) : along stay after = after :=
  funext fun _ => firstTrail_stay _

/-- Of a continuation only the places matter that can still be reached. -/
theorem along_congr (hl : Leads P (ways P)) (hn : P.rest.length < n)
    (h : ∀ Q : Position, Q.rest.length < n → after Q = other Q) :
    along ways after P = along ways other P := by
  refine firstTrail_congr fun w hw => ?_
  obtain ⟨x, hx⟩ := hl w hw
  exact h _ (Nat.lt_of_le_of_lt hx.length_le hn)

end Along

/-! ### Rounds that are written out -/

section Rounds

variable {α : Type} {knows knows' : After → α → Prop} {after after' : Nat → After}
  {round : α → Option Trail → Option Trail × α} {P : Position}

/-- What is known of rounds written out one behind the other: `after n` is what follows in front of
the last `n` of them. -/
def KnowsRounds (knows : After → α → Prop) (after : Nat → After) : List α → Prop
  | [] => True
  | m :: ms => knows (after ms.length) m ∧ KnowsRounds knows after ms

theorem KnowsRounds.imp (h : ∀ n m, knows (after n) m → knows' (after' n) m) {ms : List α}
    (hk : KnowsRounds knows after ms) : KnowsRounds knows' after' ms := by
  induction ms with
  | nil => trivial
  | cons m ms ih => exact ⟨h _ _ hk.1, ih hk.2⟩

/-- **Rounds are looked at one after the other**, the last one first: if a look at one of them is
right, so is a look at all of them. -/
theorem knowsRounds_rounds
    (hround : ∀ n m, knows (after n) m →
      (round m (after n P)).1 = after (n + 1) P ∧ knows' (after n) (round m (after n P)).2)
    {ms : List α} (hk : KnowsRounds knows after ms) :
    (Expr.rounds round (after 0 P) ms).1 = after ms.length P ∧
      (Expr.rounds round (after 0 P) ms).2.length = ms.length ∧
      KnowsRounds knows' after (Expr.rounds round (after 0 P) ms).2 := by
  induction ms with
  | nil => exact ⟨rfl, rfl, trivial⟩
  | cons m ms ih =>
    obtain ⟨hv, hlen, hrest⟩ := ih hk.2
    have hcons : Expr.rounds round (after 0 P) (m :: ms) =
        ((round m (Expr.rounds round (after 0 P) ms).1).1,
          (round m (Expr.rounds round (after 0 P) ms).1).2 :: (Expr.rounds round (after 0 P) ms).2) := rfl
    rw [hcons, hv]
    obtain ⟨h1, h2⟩ := hround ms.length m hk.1
    exact ⟨h1, congrArg (· + 1) hlen, hlen ▸ h2, hrest⟩

end Rounds

/-! ### The invariant -/

namespace Expr

/-- **What is known of places**, the nearest one first, when `after` follows: behind a set, what
follows at the nearest place; behind a word, what follows at all of them. -/
def Knows : (e : Expr) → After → List Position → e.Memo → Prop
  | .empty, _, _, _ => True
  | .word _, after, places, known => known = places.map after
  | .set _, after, places, known => known = places.head?.bind after
  | .look _, _, _, _ => True
  | .capture name body, after, places, known => body.Knows (closing name after) places known
  | .seq first second, after, places, known =>
    first.Knows (along second.ways after) places known.1 ∧ second.Knows after places known.2
  | .alt first second, after, places, known =>
    first.Knows after places known.1 ∧ second.Knows after places known.2
  | .atLeast greedy least body, after, places, known =>
    known.1.length = least - 1 ∧
      KnowsRounds (body.Knows · places)
        (fun n => along (times body.ways n) (along (enter greedy body.ways) after)) known.1 ∧
      body.Knows (along (again greedy body.ways) after) places known.2
  | .between greedy least more body, after, places, known =>
    known.1.length = least ∧ known.2.length = more ∧
      KnowsRounds (body.Knows · places)
        (fun n => along (times body.ways n) (along (upTo greedy body.ways more) after)) known.1 ∧
      KnowsRounds (body.Knows · places) (fun n => along (upTo greedy body.ways n) after) known.2

theorem knowsRounds_replicate {α : Type} {knows : After → α → Prop} {after : Nat → After} {m : α}
    (h : ∀ other, knows other m) (n : Nat) : KnowsRounds knows after (List.replicate n m) := by
  induction n with
  | zero => trivial
  | succ n ih => exact ⟨h _, ih⟩

/-- Behind the end of a text nothing is known, and there is nothing to know. -/
theorem knows_nothingKnown (e : Expr) (after : After) : e.Knows after [] e.nothingKnown := by
  induction e generalizing after with
  | empty => trivial
  | word text => rfl
  | set s => rfl
  | look l => trivial
  | capture name body ih => exact ih _
  | seq first second ih1 ih2 => exact ⟨ih1 _, ih2 _⟩
  | alt first second ih1 ih2 => exact ⟨ih1 _, ih2 _⟩
  | atLeast greedy least body ih =>
    exact ⟨List.length_replicate, knowsRounds_replicate ih _, ih _⟩
  | between greedy least more body ih =>
    exact ⟨List.length_replicate, List.length_replicate, knowsRounds_replicate ih _,
      knowsRounds_replicate ih _⟩

/-- Only what follows at the places themselves matters, and at those behind them. -/
theorem Knows.congr {e : Expr} {after other : After} {places : List Position} {known : e.Memo} {n : Nat}
    (hp : ∀ Q ∈ places, Q.rest.length < n)
    (h : ∀ Q : Position, Q.rest.length < n → after Q = other Q) (hk : e.Knows after places known) :
    e.Knows other places known := by
  have hal {ways : Position → List Way} (hl : ∀ Q, Leads Q (ways Q)) {after other : After}
      (h : ∀ Q : Position, Q.rest.length < n → after Q = other Q) (Q : Position)
      (hQ : Q.rest.length < n) : along ways after Q = along ways other Q :=
    along_congr (hl Q) hQ h
  induction e generalizing after other with
  | empty => trivial
  | word text =>
    exact Eq.trans hk (List.map_congr_left fun Q hQ => h Q (hp Q hQ))
  | set s =>
    refine Eq.trans hk ?_
    cases places with
    | nil => rfl
    | cons Q places => exact h Q (hp Q List.mem_cons_self)
  | look l => trivial
  | capture name body ih =>
    exact ih (fun Q hQ => congrArg (noted _ name) (h Q hQ)) hk
  | seq first second ih1 ih2 =>
    exact ⟨ih1 (hal second.leads_ways h) hk.1, ih2 h hk.2⟩
  | alt first second ih1 ih2 => exact ⟨ih1 h hk.1, ih2 h hk.2⟩
  -- the rounds of a loop lead on from the places, and so to places that count
  | atLeast greedy least body ih =>
    have hl := body.leads_ways
    refine ⟨hk.1, hk.2.1.imp fun k m => ih ?_, ih (hal (composes_reads.again hl greedy) h) hk.2.2⟩
    exact hal (composes_reads.times hl k) (hal (composes_reads.enter hl greedy) h)
  | between greedy least more body ih =>
    have hl := body.leads_ways
    refine ⟨hk.1, hk.2.1, hk.2.2.1.imp fun k m => ih ?_, hk.2.2.2.imp fun k m => ih ?_⟩
    · exact hal (composes_reads.times hl k) (hal (composes_reads.upTo hl greedy more) h)
    · exact hal (composes_reads.upTo hl greedy k) h

/-- What is known of the places behind a place does not depend on what follows at the place. -/
theorem Knows.later {e : Expr} {after other : After} {P : Position} {known : e.Memo}
    (h : ∀ Q : Position, Q.rest.length < P.rest.length → after Q = other Q)
    (hk : e.Knows after P.later known) : e.Knows other P.later known :=
  hk.congr (fun _ hQ => Position.length_lt_of_mem_later hQ) h

/-! ### One place -/

/-- A look at a place gives the value there. -/
theorem step_fst (before : Option Char) (rest : List Char) (e : Expr) (next : e.Memo)
    (after : Option Trail) : (step before rest e next after).1 = value before rest e next after := by
  have hrounds {α : Type} (round : α → Option Trail → Option Trail × α)
      (v : α → Option Trail → Option Trail) (h : ∀ m t, (round m t).1 = v m t)
      (after : Option Trail) (ms : List α) :
      (rounds round after ms).1 = ms.foldr v after := by
    induction ms with
    | nil => rfl
    | cons m ms ih => exact (h m _).trans (congrArg (v m) ih)
  induction e generalizing after with
  | empty => rfl
  | word text => rfl
  | set s => rfl
  | look l => rfl
  | capture name body ih => exact congrArg (noted _ name) (ih next _)
  | seq first second ih1 ih2 => exact (ih1 next.1 _).trans (congrArg _ (ih2 next.2 after))
  | alt first second ih1 ih2 =>
    exact congr (congrArg Option.or (ih1 next.1 after)) (ih2 next.2 after)
  | atLeast greedy least body ih =>
    simp only [step, value]
    rw [hrounds _ _ ih]
  | between greedy least more body ih =>
    simp only [step, value]
    rw [hrounds _ (value before rest body) ih,
      hrounds _ (fun m v => prefer greedy (value before rest body m v) after)
        fun m t => by rw [ih]]

section Position

variable {P : Position} {after : After}

theorem along_capture (name : Option String) (body : Expr) (P : Position) (after : After) :
    along (Expr.capture name body).ways after P =
      noted (.opened · P.rest) name (along body.ways (closing name after) P) := by
  unfold along
  rw [ways]
  induction body.ways P with
  | nil => cases name <;> rfl
  | cons w ws ih =>
    rw [List.map_cons, firstTrail_cons, firstTrail_cons, ih]
    cases name <;> cases h : after w.stop <;> simp [noted, closing, h]

/-- The value of a word is what follows behind it. -/
theorem wordValue_eq (text : List Char) (after : After) (P : Position) :
    wordValue text P.rest ((P :: P.later).map after) = along (Expr.word text).ways after P := by
  unfold wordValue along ways
  by_cases h : text.isPrefixOf P.rest = true
  · have hpre := List.isPrefixOf_iff_prefix.mp h
    have htake : P.rest.take text.length = text := (List.prefix_iff_eq_take.mp hpre).symm
    have hplace : (P :: P.later)[text.length]? = some (P.skip text) := by
      have := Position.getElem?_places P.before P.rest text.length hpre.length_le
      rwa [htake] at this
    rw [if_pos h, firstTrail_stay, List.getElem?_map, hplace]
    cases ha : after (P.skip text) <;> simp [h, ha]
  · rw [if_neg h]
    simp [h]

/-- The value of a set is what follows at the next place. -/
theorem setValue_eq (s : CharSet) (after : After) (P : Position) :
    (if P.rest.head?.any s.mem then P.later.head?.bind after else none) =
      along (Expr.set s).ways after P := by
  obtain ⟨b, rest⟩ := P
  cases rest with
  | nil => rfl
  | cons c rest =>
    by_cases h : s.mem c = true
    · have hways : (Expr.set s).ways ⟨b, c :: rest⟩ = stay ⟨some c, rest⟩ := if_pos h
      rw [along, hways, firstTrail_stay]
      exact if_pos h
    · have hways : (Expr.set s).ways ⟨b, c :: rest⟩ = [] := if_neg h
      rw [along, hways]
      exact if_neg h

theorem lookValue_eq (l : Look) (after : After) (P : Position) :
    (if l.holds P.before P.rest then after P else none) = along (Expr.look l).ways after P := by
  unfold along ways
  split
  · rw [firstTrail_stay]
  · rfl

/-- What follows in a round from a place: at the places behind it one thing, at itself another. -/
def apart (P : Position) (beyond here : After) : After :=
  fun Q => if Q.rest.length < P.rest.length then beyond Q else here Q

theorem apart_self (P : Position) (beyond here : After) : apart P beyond here P = here P :=
  if_neg (Nat.lt_irrefl _)

theorem apart_of_lt {Q : Position} (h : Q.rest.length < P.rest.length) (beyond here : After) :
    apart P beyond here Q = beyond Q :=
  if_pos h

theorem apart_of_not_lt {Q : Position} (h : ¬Q.rest.length < P.rest.length) (beyond here : After) :
    apart P beyond here Q = here Q :=
  if_neg h

/-- A loop is entered with a round behind which there is the loop, if it has read something, and
else what follows the loop. -/
theorem along_enter (greedy : Bool) (round : Position → List Way) (after : After) (P : Position) :
    along (enter greedy round) after P =
      along round (apart P (along (again greedy round) after) after) P := by
  unfold along enter
  rw [firstTrail_flatMap]
  refine congrArg (round P |>.findSome? ·) (funext fun w => ?_)
  by_cases h : w.stop.rest.length < P.rest.length
  · rw [if_pos (advances_iff.mpr h), apart_of_lt h, firstTrail_map_behind]
  · rw [if_neg (mt advances_iff.mp h), apart_of_not_lt h, firstTrail_cons, firstTrail_nil,
      Option.or_none]

/-- A loop is gone on with by a round that reads something, behind which there is the loop. -/
theorem along_again (greedy : Bool) (round : Position → List Way) (after : After) (P : Position) :
    along (again greedy round) after P =
      prefer greedy (along round (apart P (along (again greedy round) after) fun _ => none) P)
        (after P) := by
  have hfilter (ws : List Way) (next : After) :
      firstTrail (ws.filter (advances P)) next = firstTrail ws (apart P next fun _ => none) := by
    induction ws with
    | nil => rfl
    | cons w ws ih =>
      by_cases h : w.stop.rest.length < P.rest.length
      · rw [List.filter_cons_of_pos (advances_iff.mpr h), firstTrail_cons, firstTrail_cons, ih,
          apart_of_lt h]
      · rw [List.filter_cons_of_neg (mt advances_iff.mp h), firstTrail_cons, ih, apart_of_not_lt h]
        rfl
  rw [along, again_eq, firstTrail_inOrder, firstTrail_stay, firstTrail_extend, hfilter]
  rfl

/-- What follows in front of rounds is what follows in front of the first one. -/
theorem along_times_succ (round : Position → List Way) (n : Nat) (after : After) :
    along (times round (n + 1)) after = along round (along (times round n) after) :=
  along_extend _ _ _

theorem along_upTo_succ (greedy : Bool) (round : Position → List Way) (n : Nat) (after : After)
    (P : Position) :
    along (upTo greedy round (n + 1)) after P =
      prefer greedy (along round (along (upTo greedy round n) after) P) (after P) := by
  rw [along, upTo, firstTrail_inOrder, firstTrail_stay, firstTrail_extend]
  rfl

theorem along_atLeast (greedy : Bool) (least : Nat) (round : Position → List Way) (after : After)
    (P : Position) :
    along (Ways.atLeast greedy least round) after P =
      if least = 0 then prefer greedy (along (enter greedy round) after P) (after P)
      else along (times round (least - 1)) (along (enter greedy round) after) P := by
  cases least with
  | zero => rw [if_pos rfl, along, Ways.atLeast, firstTrail_inOrder, firstTrail_stay]; rfl
  | succ n => exact firstTrail_extend _

/-- The value of rounds written out, from the value behind them. -/
theorem foldr_eq {α : Type} {knows : After → α → Prop} {after : Nat → After}
    {v : α → Option Trail → Option Trail} {P : Position}
    (hround : ∀ n m, knows (after n) m → v m (after n P) = after (n + 1) P) {ms : List α}
    (hk : KnowsRounds knows after ms) : ms.foldr v (after 0 P) = after ms.length P := by
  induction ms with
  | nil => rfl
  | cons m ms ih => exact (congrArg (v m) (ih hk.2)).trans (hround _ m hk.1)

/-- The value of a number of rounds, from the value behind them. -/
theorem foldr_times {α : Type} {knows : After → α → Prop} {base : After}
    {round : Position → List Way} {v : α → Option Trail → Option Trail} {P : Position}
    (hround : ∀ after m, knows after m → v m (after P) = along round after P) {ms : List α}
    (hk : KnowsRounds knows (fun n => along (times round n) base) ms) :
    ms.foldr v (base P) = along (times round ms.length) base P := by
  have h := foldr_eq (P := P) (v := v) (fun n m hm => ?_) hk
  · rwa [show along (times round 0) base = base from along_stay base] at h
  · rw [along_times_succ]
    exact hround _ m hm

/-- The value of optional rounds, from the value behind them. -/
theorem foldr_upTo {α : Type} {knows : After → α → Prop} {base : After} {greedy : Bool}
    {round : Position → List Way} {v : α → Option Trail → Option Trail} {P : Position}
    (hround : ∀ after m, knows after m → v m (after P) = along round after P) {ms : List α}
    (hk : KnowsRounds knows (fun n => along (upTo greedy round n) base) ms) :
    ms.foldr (fun m t => prefer greedy (v m t) (base P)) (base P) =
      along (upTo greedy round ms.length) base P := by
  have h := foldr_eq (P := P) (v := fun m t => prefer greedy (v m t) (base P))
    (fun n m hm => ?_) hk
  · rwa [show along (upTo greedy round 0) base = base from along_stay base] at h
  · rw [along_upTo_succ, hround _ m hm]

/-- A loop is entered with what is known of the places behind: its body is read with the loop
behind it there, and with what follows the loop at the place itself. -/
theorem value_enter {body : Expr} {greedy : Bool} {next : body.Memo}
    (hbody : ∀ other, body.Knows other P.later next →
      value P.before P.rest body next (other P) = along body.ways other P)
    (hloop : body.Knows (along (again greedy body.ways) after) P.later next) :
    value P.before P.rest body next (after P) = along (enter greedy body.ways) after P := by
  have hround := hbody _ (hloop.later fun Q hQ => (apart_of_lt hQ _ after).symm)
  rwa [apart_self, ← along_enter] at hround

/-- A loop is gone on with in the same way, but nothing follows a round at the place itself. -/
theorem value_again {body : Expr} {greedy : Bool} {next : body.Memo}
    (hbody : ∀ other, body.Knows other P.later next →
      value P.before P.rest body next (other P) = along body.ways other P)
    (hloop : body.Knows (along (again greedy body.ways) after) P.later next) :
    prefer greedy (value P.before P.rest body next none) (after P) =
      along (again greedy body.ways) after P := by
  have hround := hbody _ (hloop.later fun Q hQ => (apart_of_lt hQ _ fun _ => none).symm)
  rw [apart_self] at hround
  rw [hround, along_again]

/-- **The value of an expression at a place is that of its first way.** -/
theorem value_eq {e : Expr} {after : After} {P : Position} {next : e.Memo}
    (hk : e.Knows after P.later next) :
    value P.before P.rest e next (after P) = along e.ways after P := by
  induction e generalizing after with
  | empty => exact (firstTrail_stay P).symm
  | word text => rw [← wordValue_eq, List.map_cons, ← hk]; rfl
  | set s => rw [← setValue_eq, ← hk]; rfl
  | look l => exact lookValue_eq l after P
  | capture name body ih =>
    exact (congrArg (noted _ name) (ih hk)).trans (along_capture name body P after).symm
  | seq first second ih1 ih2 =>
    exact (congrArg _ (ih2 hk.2)).trans ((ih1 hk.1).trans (firstTrail_extend _).symm)
  | alt first second ih1 ih2 =>
    exact (congr (congrArg Option.or (ih1 hk.1)) (ih2 hk.2)).trans firstTrail_append.symm
  | atLeast greedy least body ih =>
    obtain ⟨hlen, hrounds, hloop⟩ := hk
    have hentered := foldr_times (fun _ _ hm => ih hm) hrounds
    rw [hlen, ← value_enter (fun _ hm => ih hm) hloop] at hentered
    rw [show along (atLeast greedy least body).ways after P = _ from along_atLeast ..]
    simp only [value]
    rw [hentered]
    cases least with
    | zero => exact congrArg (prefer greedy · _) (congrFun (along_stay _) P)
    | succ n => rfl
  | between greedy least more body ih =>
    obtain ⟨hlen, hlen', hneeded, hfurther⟩ := hk
    have hbase := foldr_upTo (fun _ _ hm => ih hm) hfurther
    have hall := foldr_times (fun _ _ hm => ih hm) hneeded
    rw [hlen'] at hbase
    rw [hlen, ← hbase] at hall
    refine Eq.trans hall ?_
    exact (congrFun (along_extend _ _ _) P).symm

/-- A look at a place finds the first way. -/
theorem step_fst_eq {e : Expr} {next : e.Memo} (hk : e.Knows after P.later next) :
    (step P.before P.rest e next (after P)).1 = along e.ways after P :=
  (step_fst ..).trans (value_eq hk)

/-- What is known after a look at rounds written out. -/
theorem knowsRounds_times {α : Type} {knows knows' : After → α → Prop} {base : After}
    {ways : Position → List Way} {round : α → Option Trail → Option Trail × α} {P : Position}
    (hround : ∀ after m, knows after m →
      (round m (after P)).1 = along ways after P ∧ knows' after (round m (after P)).2) {ms : List α}
    (hk : KnowsRounds knows (fun n => along (times ways n) base) ms) :
    (rounds round (base P) ms).2.length = ms.length ∧
      KnowsRounds knows' (fun n => along (times ways n) base) (rounds round (base P) ms).2 := by
  have hrounds (n : Nat) (m : α) (hm : knows (along (times ways n) base) m) :
      (round m (along (times ways n) base P)).1 = along (times ways (n + 1)) base P ∧
        knows' (along (times ways n) base) (round m (along (times ways n) base P)).2 := by
    rw [along_times_succ]
    exact hround _ m hm
  have h := knowsRounds_rounds hrounds hk
  rw [show along (times ways 0) base = base from along_stay base] at h
  exact h.2

/-- What is known after a look at optional rounds. -/
theorem knowsRounds_upTo {α : Type} {knows knows' : After → α → Prop} {base : After}
    {greedy : Bool} {ways : Position → List Way} {round : α → Option Trail → Option Trail × α}
    {P : Position}
    (hround : ∀ after m, knows after m →
      (round m (after P)).1 = along ways after P ∧ knows' after (round m (after P)).2) {ms : List α}
    (hk : KnowsRounds knows (fun n => along (upTo greedy ways n) base) ms) :
    (rounds (fun m t => (prefer greedy (round m t).1 (base P), (round m t).2)) (base P) ms).1 =
        along (upTo greedy ways ms.length) base P ∧
      (rounds (fun m t => (prefer greedy (round m t).1 (base P), (round m t).2)) (base P) ms).2.length
        = ms.length ∧
      KnowsRounds knows' (fun n => along (upTo greedy ways n) base)
        (rounds (fun m t => (prefer greedy (round m t).1 (base P), (round m t).2)) (base P) ms).2 := by
  have hrounds (n : Nat) (m : α) (hm : knows (along (upTo greedy ways n) base) m) :
      prefer greedy (round m (along (upTo greedy ways n) base P)).1 (base P) =
          along (upTo greedy ways (n + 1)) base P ∧
        knows' (along (upTo greedy ways n) base)
          (round m (along (upTo greedy ways n) base P)).2 := by
    obtain ⟨h1, h2⟩ := hround _ m hm
    rw [along_upTo_succ]
    exact ⟨by rw [h1], h2⟩
  have h := @knowsRounds_rounds α knows knows' _
    (fun m t => (prefer greedy (round m t).1 (base P), (round m t).2)) P hrounds ms hk
  rwa [show along (upTo greedy ways 0) base = base from along_stay base] at h

/-- **A look at a place keeps the invariant.** -/
theorem knows_step {e : Expr} {after : After} {P : Position} {next : e.Memo}
    (hk : e.Knows after P.later next) :
    e.Knows after (P :: P.later) (step P.before P.rest e next (after P)).2 := by
  induction e generalizing after with
  | empty => trivial
  | word text => exact congrArg (after P :: ·) hk
  | set s => rfl
  | look l => trivial
  | capture name body ih => exact ih hk
  | seq first second ih1 ih2 =>
    refine ⟨?_, ih2 hk.2⟩
    have hfirst := ih1 hk.1
    rwa [← step_fst_eq hk.2] at hfirst
  | alt first second ih1 ih2 => exact ⟨ih1 hk.1, ih2 hk.2⟩
  | atLeast greedy least body ih =>
    obtain ⟨hlen, hrounds, hloop⟩ := hk
    obtain ⟨hlen', hrounds'⟩ := knowsRounds_times (fun _ _ hm => ⟨step_fst_eq hm, ih hm⟩) hrounds
    -- What the written-out rounds are looked at with is the value with which the loop is entered,
    -- and what the body is noted for is the value with which it is gone on with.
    have hentered := value_enter (fun _ => value_eq) hloop
    refine ⟨?_, ?_, ?_⟩
    · simp only [step]
      rw [hentered, hlen', hlen]
    · simp only [step]
      rw [hentered]
      exact hrounds'
    · simp only [step]
      rw [value_again (fun _ => value_eq) hloop]
      exact ih hloop
  | between greedy least more body ih =>
    obtain ⟨hlen, hlen', hneeded, hfurther⟩ := hk
    have hround (other : After) (m : body.Memo) (hm : body.Knows other P.later m) :
        (step P.before P.rest body m (other P)).1 = along body.ways other P ∧
          body.Knows other (P :: P.later) (step P.before P.rest body m (other P)).2 :=
      ⟨step_fst_eq hm, ih hm⟩
    obtain ⟨hvalue, hmore, hfurther'⟩ := knowsRounds_upTo hround hfurther
    obtain ⟨hleast, hneeded'⟩ := knowsRounds_times hround hneeded
    rw [hlen'] at hvalue
    refine ⟨?_, hmore.trans hlen', ?_, hfurther'⟩
    · simp only [step]
      rw [hvalue, hleast, hlen]
    · simp only [step]
      rw [hvalue]
      exact hneeded'

end Position

/-! ### A text -/

/-- The first trail among some places. -/
def firstFrom (e : Expr) (places : List Position) : Option Trail :=
  places.findSome? fun P => (e.ways P).head?.map (·.trail)

/-- A scan that has come to a place knows what there is to know of it. -/
structure Scan.Right {e : Expr} (s : Scan e) (P : Position) : Prop where
  /-- It has come to the place. -/
  rest_eq : s.rest = P.rest
  /-- It knows the place and those behind it. -/
  knows : e.Knows (fun _ => some []) (P :: P.later) s.known
  /-- It has found what there is from the place on. -/
  found_eq : s.found = firstFrom e (P :: P.later)

theorem lookAt_right {e : Expr} {P : Position} {next : e.Memo} {found : Option Trail}
    (hk : e.Knows (fun _ => some []) P.later next) (hf : found = firstFrom e P.later) :
    (lookAt e P.before P.rest next found).Right P := by
  refine ⟨rfl, knows_step hk, ?_⟩
  have hvalue := step_fst_eq hk
  rw [along, firstTrail_all] at hvalue
  rw [firstFrom, List.findSome?_cons]
  change (step P.before P.rest e next (some [])).1.or found = _
  rw [hvalue, hf]
  cases (e.ways P).head?.map (·.trail) <;> rfl

theorem Scan.Right.back {e : Expr} {s : Scan e} {c : Char} {cs : List Char}
    (h : s.Right ⟨some c, cs⟩) (before : Option Char) : (s.back before c).Right ⟨before, c :: cs⟩ := by
  unfold Scan.back
  rw [h.rest_eq]
  exact lookAt_right (P := ⟨before, c :: cs⟩) h.knows h.found_eq

theorem scan_right (e : Expr) (before : Option Char) (cs : List Char) :
    (((before :: cs.map some).zip cs).foldr (fun p s => s.back p.1 p.2)
      (e.lookAt (cs.getLast?.or before) [] e.nothingKnown none)).Right ⟨before, cs⟩ := by
  induction cs generalizing before with
  | nil => exact lookAt_right (P := ⟨before, []⟩) (knows_nothingKnown e _) rfl
  | cons c cs ih =>
    have hlast : (c :: cs).getLast?.or before = cs.getLast?.or (some c) := by
      rw [List.getLast?_cons]
      cases cs.getLast? <;> rfl
    rw [hlast, List.map_cons, List.zip_cons_cons, List.foldr_cons]
    exact (ih (some c)).back before

/-- **A search finds the first way from the first place of a text where there is one.** -/
theorem find?_eq (e : Expr) (text : String) :
    e.find? text = firstFrom e (⟨none, text.toList⟩ :: Position.behindEach text.toList) := by
  have h := scan_right e none text.toList
  rw [Option.or_none] at h
  exact h.found_eq

end Expr

end Regex

end UrlRouting

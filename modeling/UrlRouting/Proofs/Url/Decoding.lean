import UrlRouting.Regex.Escape
import UrlRouting.Url.Form

/-!
# Reading a query string

What a server does with the query of a url: it cuts it at the ampersands, cuts every piece at its
first equals sign, and reads both sides as UTF-8, in which a plus sign stands for a blank and a
percent sign with two hexadecimal digits for a byte (`UrlRouting.Form.decode?`). A piece without an
equals sign is a name with an empty value, an empty piece is none at all, and a percent sign without
two digits behind it stands for itself.

Reading gives back what was encoded (`UrlRouting.Form.decode?_encode`), whatever the names and the
values are made of. It comes down to two facts about a single byte: its encoding is read as that
byte, in front of any text (`UrlRouting.Form.decodeBytes_encodeByte`), and has neither of the two
separators in it (`UrlRouting.Form.not_mem_encodeByte`).
-/

namespace UrlRouting

namespace Form

open Regex (hexValue?)

/-! ### Decoding -/

/-- The byte that two hexadecimal digits, of either case, spell. -/
def hexByte? (high low : Char) : Option UInt8 := do
  let h ← hexValue? high
  let l ← hexValue? low
  return UInt8.ofNat (16 * h + l)

/-- The bytes that a text stands for. -/
def decodeBytes : List Char → List UInt8
  | [] => []
  | '+' :: rest => 0x20 :: decodeBytes rest
  | '%' :: high :: low :: rest =>
    match hexByte? high low with
    | some b => b :: decodeBytes rest
    | none => 0x25 :: decodeBytes (high :: low :: rest)
  | c :: rest => String.utf8EncodeChar c ++ decodeBytes rest

/-- The text that is encoded, if its bytes are UTF-8. -/
def decodeText? (cs : List Char) : Option String :=
  String.fromUTF8? (decodeBytes cs).toByteArray

/-- The pair that is encoded: what stands in front of the first equals sign, and what stands behind
it. -/
def decodePair? (cs : List Char) : Option (String × String) := do
  let name ← decodeText? (cs.takeWhile (· != '='))
  let value ← decodeText? ((cs.dropWhile (· != '=')).drop 1)
  return (name, value)

/-- The pairs of a query string. -/
def decode? (query : String) : Option (List (String × String)) :=
  ((query.toList.splitOn '&').filter (!·.isEmpty)).mapM decodePair?

/-! ### One byte -/

/-- A byte that stands for itself is written as one character, which is none of those that mean
something else. -/
theorem of_isPlain {b : UInt8} (h : isPlain b = true) :
    String.utf8EncodeChar (Char.ofNat b.toNat) = [b] ∧
      Char.ofNat b.toNat ∉ ['+', '%', '&', '='] := by
  simp only [isPlain, Bool.and_eq_true, decide_eq_true_eq] at h
  obtain ⟨hlt, hc⟩ := h
  have hlt : b.toNat < 128 := UInt8.lt_iff_toNat_lt.mp hlt
  constructor
  · have hval : (Char.ofNat b.toNat).val.toNat = b.toNat := by
      have hvalid : b.toNat.isValidChar := .inl (by omega)
      rw [Char.ofNat, dif_pos hvalid]
      rfl
    have hone : b.toNat ≤ 127 := by omega
    simp only [String.utf8EncodeChar, hval, if_pos hone]
    rw [UInt8.ofNat_toNat]
  · intro hmem
    simp only [List.mem_cons, List.not_mem_nil, or_false] at hmem
    rcases hmem with heq | heq | heq | heq
    all_goals
      rw [heq] at hc
      revert hc
      decide

theorem hexValue?_hexDigit {n : Nat} (h : n < 16) : hexValue? (hexDigit n) = some n := by
  have hall : ∀ n < 16, hexValue? (hexDigit n) = some n := by decide
  exact hall n h

/-- The two digits of a byte spell it. -/
theorem hexByte?_hexDigit (b : UInt8) :
    hexByte? (hexDigit (b.toNat / 16)) (hexDigit (b.toNat % 16)) = some b := by
  have hlt : b.toNat < 256 := b.toNat_lt
  rw [hexByte?, hexValue?_hexDigit (by omega), hexValue?_hexDigit (by omega)]
  change some (UInt8.ofNat (16 * (b.toNat / 16) + b.toNat % 16)) = some b
  rw [Nat.div_add_mod, UInt8.ofNat_toNat]

/-- **The encoding of a byte is read as that byte**, in front of any text. -/
theorem decodeBytes_encodeByte (b : UInt8) (rest : List Char) :
    decodeBytes (encodeByte b ++ rest) = b :: decodeBytes rest := by
  rw [encodeByte]
  split
  · next hplain =>
    obtain ⟨hbytes, hmark⟩ := of_isPlain hplain
    simp only [List.mem_cons, not_or] at hmark
    obtain ⟨hplus, hpercent, -⟩ := hmark
    rw [List.singleton_append, decodeBytes.eq_4 _ _ hplus fun _ _ _ heq _ => hpercent heq, hbytes]
    rfl
  · split
    · next hblank => rw [hblank, List.singleton_append, decodeBytes]
    · rw [List.cons_append, List.cons_append, List.singleton_append, decodeBytes,
        hexByte?_hexDigit]

/-- **The encoding of a byte has no separator in it.** -/
theorem not_mem_encodeByte (b : UInt8) : '&' ∉ encodeByte b ∧ '=' ∉ encodeByte b := by
  have hdigit : ∀ n < 16, hexDigit n ≠ '&' ∧ hexDigit n ≠ '=' := by decide
  have hlt : b.toNat < 256 := b.toNat_lt
  have hhigh := hdigit (b.toNat / 16) (by omega)
  have hlow := hdigit (b.toNat % 16) (by omega)
  rw [encodeByte]
  split
  · next hplain =>
    have hmark := (of_isPlain hplain).2
    simp only [List.mem_cons, not_or] at hmark
    obtain ⟨-, -, hpiece, hpair, -⟩ := hmark
    exact ⟨fun h => hpiece (List.mem_singleton.mp h).symm,
      fun h => hpair (List.mem_singleton.mp h).symm⟩
  · split
    · decide
    · simp [hhigh.1.symm, hlow.1.symm, hhigh.2.symm, hlow.2.symm]

/-! ### Texts -/

theorem decodeBytes_flatMap (bytes : List UInt8) :
    decodeBytes (bytes.flatMap encodeByte) = bytes := by
  induction bytes with
  | nil => rfl
  | cons b bytes ih => rw [List.flatMap_cons, decodeBytes_encodeByte, ih]

theorem decodeText?_encodeText (s : String) : decodeText? (encodeText s) = some s := by
  have hbytes : (s.toList.flatMap String.utf8EncodeChar).toByteArray = s.toByteArray := by
    rw [← String.utf8Encode_toList]
    rfl
  rw [decodeText?, encodeText, decodeBytes_flatMap, hbytes, String.fromUTF8?,
    dif_pos s.isValidUTF8]
  rfl

theorem not_mem_encodeText (s : String) : '&' ∉ encodeText s ∧ '=' ∉ encodeText s := by
  have hno (c : Char) (hc : ∀ b, c ∉ encodeByte b) : c ∉ encodeText s := by
    intro hmem
    obtain ⟨b, -, hb⟩ := List.mem_flatMap.mp hmem
    exact hc b hb
  exact ⟨hno '&' fun b => (not_mem_encodeByte b).1, hno '=' fun b => (not_mem_encodeByte b).2⟩

/-! ### Pairs -/

theorem decodePair?_encodePair (pair : String × String) :
    decodePair? (encodePair pair) = some pair := by
  have hname : ∀ c ∈ encodeText pair.1, (c != '=') = true := fun c hc =>
    bne_iff_ne.mpr fun heq => (not_mem_encodeText pair.1).2 (heq ▸ hc)
  have hfront : (encodePair pair).takeWhile (· != '=') = encodeText pair.1 := by
    rw [encodePair, List.takeWhile_append_of_pos hname, List.takeWhile_cons]
    simp
  have hback : (encodePair pair).dropWhile (· != '=') = '=' :: encodeText pair.2 := by
    rw [encodePair, List.dropWhile_append_of_pos hname, List.dropWhile_cons]
    simp
  rw [decodePair?, hfront, hback, List.drop_one, List.tail_cons, decodeText?_encodeText,
    decodeText?_encodeText]
  rfl

theorem encodePair_ne_nil (pair : String × String) : encodePair pair ≠ [] :=
  List.append_ne_nil_of_right_ne_nil _ (List.cons_ne_nil _ _)

/-- An encoded pair is one piece. -/
theorem not_mem_encodePair (pair : String × String) : '&' ∉ encodePair pair := by
  rw [encodePair, List.mem_append, List.mem_cons, not_or, not_or]
  exact ⟨(not_mem_encodeText pair.1).1, by decide, (not_mem_encodeText pair.2).1⟩

/-- **Reading gives back the pairs that were encoded.** -/
theorem decode?_encode (pairs : List (String × String)) : decode? (encode pairs) = some pairs := by
  have hpieces : ((encode pairs).toList.splitOn '&').filter (!·.isEmpty) =
      pairs.map encodePair := by
    rw [encode, String.toList_ofList]
    cases pairs with
    | nil => rfl
    | cons pair pairs =>
      rw [List.splitOn_intercalate]
      · refine List.filter_eq_self.mpr fun piece hpiece => ?_
        obtain ⟨pair, -, rfl⟩ := List.mem_map.mp hpiece
        rw [List.isEmpty_eq_false_iff.mpr (encodePair_ne_nil pair)]
        rfl
      · intro piece hpiece
        obtain ⟨pair, -, rfl⟩ := List.mem_map.mp hpiece
        exact not_mem_encodePair pair
      · exact List.cons_ne_nil _ _
  have hpair : decodePair? ∘ encodePair = (pure ·) := funext decodePair?_encodePair
  rw [decode?, hpieces, List.mapM_map, hpair, List.mapM_pure, List.map_id']
  rfl

/-- More is read than is encoded: an empty piece, a name without a value, a percent sign alone. -/
example : decode? "q=a+b&tags%5b0%5D=%25%zz&&flag" =
    some [("q", "a b"), ("tags[0]", "%%zz"), ("flag", "")] := by rfl

end Form

end UrlRouting

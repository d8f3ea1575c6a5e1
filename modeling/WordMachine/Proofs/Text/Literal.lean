import WordMachine.Text.Quoted

/-!
# Quoted texts are literals

A quoted text is read back whole by `Quoted.decode`, whatever follows it. Here it is looked at from
outside: nothing in it is a control byte, and its only bare quotes are the first and the last byte.
A quote is bare unless the text before it ends in a backslash that is not escaped itself
(`leavesOpen`), and a text without bare quotes that leaves nothing escaped after it is `Sealed`.
What stands between the quotes is sealed, and the decoder reads up to the end of a sealed text and
no further (`sealed_of_decode`).

All of this is settled byte by byte. `Written` lists the three forms that a byte is written in, and
each fact is one case analysis of it followed by one induction over the text.

**For a text in UTF-8 the quoted form is a literal of JSON that denotes it** (`isLiteral_encode`).
`Json.Denotes` gives the rules of such literals, on characters. Bytes and characters meet in
`written_char`: a character beyond ASCII is made of high bytes, all of which are written as they
are, and below that a byte is a character.
-/

set_option autoImplicit false

namespace WordMachine
namespace Text
namespace Quoted

/-! ## One byte -/

/-- The forms in which a byte is written. -/
inductive Written : UInt8 → Text → Prop
  | letter {b c : UInt8} : (b, c) ∈ escapes → Written b [backslash, c]
  | control {b : UInt8} : b < 0x20 →
      Written b [backslash, 0x75, 0x30, 0x30, hexDigit (b.toNat / 16), hexDigit (b.toNat % 16)]
  | plain {b : UInt8} : 0x20 ≤ b → b ≠ quote → b ≠ backslash → Written b [b]

theorem written_encodeByte (b : UInt8) : Written b (encodeByte b) := by
  unfold encodeByte
  cases hl : letter? b with
  | some c =>
    obtain ⟨p, hp, rfl⟩ := Option.map_eq_some_iff.mp hl
    have hb : p.1 = b := by simpa using List.find?_some hp
    subst hb
    exact .letter (List.mem_of_find?_eq_some hp)
  | none =>
    by_cases hlow : b < 0x20
    · simp only [hlow, if_true]
      exact .control hlow
    · simp only [hlow, if_false]
      refine .plain (UInt8.not_lt.mp hlow) ?_ ?_
      · rintro rfl
        simp [letter?_quote] at hl
      · rintro rfl
        simp [letter?_backslash] at hl

theorem bounds_of_mem_escapes {b c : UInt8} (h : (b, c) ∈ escapes) :
    b < 0x7f ∧ 0x20 ≤ c ∧ c < 0x7f := by
  have key : escapes.all (fun p => p.1 < 0x7f && 0x20 ≤ p.2 && p.2 < 0x7f) = true := by decide
  simpa [and_assoc] using List.all_eq_true.mp key _ h

theorem hexDigit_bounds {n : Nat} (h : n < 16) : 0x20 ≤ hexDigit n ∧ hexDigit n < 0x7f := by
  have key : ∀ n : Fin 16, 0x20 ≤ hexDigit n.1 ∧ hexDigit n.1 < 0x7f := by decide
  exact key ⟨n, h⟩

theorem high_lt (b : UInt8) : b.toNat / 16 < 16 := by
  have := b.toNat_lt
  omega

theorem low_lt (b : UInt8) : b.toNat % 16 < 16 := Nat.mod_lt _ (by decide)

/-- A byte is written as it is, or else it is below `0x7f` and so are the bytes it is written in,
none of which is a control byte. -/
theorem Written.bounds {b : UInt8} {t : Text} (h : Written b t) :
    (0x20 ≤ b ∧ t = [b]) ∨ (b < 0x7f ∧ ∀ c ∈ t, 0x20 ≤ c ∧ c < 0x7f) := by
  cases h with
  | letter hmem =>
    obtain ⟨hb, hc⟩ := bounds_of_mem_escapes hmem
    refine Or.inr ⟨hb, ?_⟩
    simp only [List.forall_mem_cons, List.not_mem_nil, false_implies, implies_true, and_true]
    exact ⟨by decide, hc⟩
  | control hlow =>
    refine Or.inr ⟨UInt8.lt_trans hlow (by decide), ?_⟩
    simp only [List.forall_mem_cons, List.not_mem_nil, false_implies, implies_true, and_true]
    exact ⟨by decide, by decide, by decide, by decide, hexDigit_bounds (high_lt b),
      hexDigit_bounds (low_lt b)⟩
  | plain hlow _ _ => exact Or.inl ⟨hlow, rfl⟩

/-! ## Bare quotes -/

/-- Whether a text ends in a backslash that is not escaped itself, so that it escapes the byte that
follows. -/
def leavesOpen (t : Text) : Bool := t.foldl (fun isOpen b => !isOpen && b == backslash) false

theorem leavesOpen_append {s : Text} (h : leavesOpen s = false) (t : Text) :
    leavesOpen (s ++ t) = leavesOpen t := by
  simp only [leavesOpen] at h
  simp [leavesOpen, h]

/-- A text whose quotes are all escaped, and that does not escape what follows it. -/
structure Sealed (t : Text) : Prop where
  shut : leavesOpen t = false
  quotes : ∀ before after, t = before ++ quote :: after → leavesOpen before = true

theorem sealed_nil : Sealed [] := by
  refine ⟨rfl, ?_⟩
  intro before after h
  simp at h

theorem Sealed.append {s t : Text} (hs : Sealed s) (ht : Sealed t) : Sealed (s ++ t) := by
  refine ⟨by rw [leavesOpen_append hs.shut, ht.shut], ?_⟩
  intro before after h
  rcases List.append_eq_append_iff.mp h with ⟨middle, rfl, htail⟩ | ⟨middle, hhead, htail⟩
  · rw [leavesOpen_append hs.shut]
    exact ht.quotes middle after htail
  · cases middle with
    | nil =>
      -- the quote stands at the front of `t`, where nothing escapes it
      have hopen := ht.quotes [] after htail.symm
      simp [leavesOpen] at hopen
    | cons b middle =>
      obtain ⟨rfl, -⟩ := List.cons.inj htail
      exact hs.quotes before middle hhead

theorem sealed_singleton {b : UInt8} (hq : b ≠ quote) (hb : b ≠ backslash) : Sealed [b] := by
  refine ⟨by simp [leavesOpen, hb], ?_⟩
  intro before after h
  have hmem : quote ∈ [b] := by rw [h]; simp
  exact absurd (List.mem_singleton.mp hmem).symm hq

/-- A backslash and the byte that it escapes. -/
theorem sealed_escape (c : UInt8) : Sealed [backslash, c] := by
  refine ⟨by simp [leavesOpen], ?_⟩
  intro before after h
  cases before with
  | nil => exact absurd (List.cons.inj h).1 (by decide)
  | cons b before =>
    obtain ⟨rfl, htail⟩ := List.cons.inj h
    cases before with
    | nil => rfl
    | cons b before => simp at htail

/-! ## Escapes, and where reading stops -/

theorem readEscape_cases {t rest : Text} {b : UInt8} (h : readEscape t = some (b, rest)) :
    (∃ c, t = c :: rest) ∨
      ∃ high low, t = 0x75 :: 0x30 :: 0x30 :: high :: low :: rest ∧
        (hexValue? high).isSome = true ∧ (hexValue? low).isSome = true := by
  unfold readEscape at h
  split at h
  · cases h
  · split at h
    · cases h
      exact Or.inl ⟨_, rfl⟩
    · split at h
      · split at h
        · rename_i hhigh hlow
          split at h
          · rename_i hform
            obtain ⟨rfl, rfl, rfl⟩ := hform
            cases h
            exact Or.inr ⟨_, _, rfl, by simp [hhigh], by simp [hlow]⟩
          · cases h
        · cases h
      · cases h

theorem sealed_hex {b : UInt8} (h : (hexValue? b).isSome = true) : Sealed [b] := by
  refine sealed_singleton ?_ ?_
  · rintro rfl
    exact absurd h (by decide)
  · rintro rfl
    exact absurd h (by decide)

theorem sealed_of_readEscape {t rest : Text} {b : UInt8} (h : readEscape t = some (b, rest)) :
    ∃ escape, t = escape ++ rest ∧ Sealed (backslash :: escape) := by
  rcases readEscape_cases h with ⟨c, rfl⟩ | ⟨high, low, rfl, hhigh, hlow⟩
  · exact ⟨[c], rfl, sealed_escape c⟩
  · refine ⟨[0x75, 0x30, 0x30, high, low], rfl, ?_⟩
    have hzero : Sealed [0x30] := sealed_hex (by decide)
    exact (sealed_escape 0x75).append (hzero.append (hzero.append
      ((sealed_hex hhigh).append (sealed_hex hlow))))

theorem Written.sealed {b : UInt8} {t : Text} (h : Written b t) : Sealed t := by
  cases h with
  | letter _ => exact sealed_escape _
  | control hlow =>
    -- what is read after the backslash is all that stands there
    obtain ⟨escape, hescape, hsealed⟩ := sealed_of_readEscape (readEscape_control hlow [])
    rw [List.append_nil] at hescape
    rw [hescape]
    exact hsealed
  | plain _ hq hb => exact sealed_singleton hq hb

theorem sealed_of_decodeBody {t value rest : Text} (h : decodeBody t = some (value, rest)) :
    ∃ body, t = body ++ quote :: rest ∧ Sealed body := by
  fun_induction decodeBody t generalizing value with
  | case1 => cases h
  | case2 =>
    cases h
    exact ⟨[], rfl, sealed_nil⟩
  | case3 => cases h
  | case4 t c rest' hescape _ ih =>
    obtain ⟨r, hr, heq⟩ := Option.map_eq_some_iff.mp h
    cases heq
    obtain ⟨body, rfl, hbody⟩ := ih hr
    obtain ⟨escape, rfl, hsealed⟩ := sealed_of_readEscape hescape
    exact ⟨backslash :: escape ++ body, by simp, hsealed.append hbody⟩
  | case5 b t hq hb ih =>
    obtain ⟨r, hr, heq⟩ := Option.map_eq_some_iff.mp h
    cases heq
    obtain ⟨body, rfl, hbody⟩ := ih hr
    exact ⟨b :: body, rfl, (sealed_singleton hq hb).append hbody⟩

/-- The decoder stops at the first bare quote after the opening one. -/
theorem sealed_of_decode {t value rest : Text} (h : decode t = some (value, rest)) :
    ∃ body, t = quote :: body ++ quote :: rest ∧ Sealed body := by
  cases t with
  | nil => cases h
  | cons b t =>
    rw [decode] at h
    split at h
    · rename_i hb
      subst hb
      obtain ⟨body, rfl, hbody⟩ := sealed_of_decodeBody h
      exact ⟨body, rfl, hbody⟩
    · cases h

/-! ## Whole texts -/

theorem sealed_flatMap (t : Text) : Sealed (t.flatMap encodeByte) := by
  induction t with
  | nil => exact sealed_nil
  | cons b t ih =>
    rw [List.flatMap_cons]
    exact (written_encodeByte b).sealed.append ih

theorem printable_encode (t : Text) : ∀ b ∈ encode t, 0x20 ≤ b := by
  intro b hb
  simp only [encode, List.cons_append, List.mem_cons, List.mem_append, List.mem_flatMap,
    List.not_mem_nil, or_false] at hb
  rcases hb with rfl | ⟨c, -, hc⟩ | rfl
  · decide
  · rcases (written_encodeByte c).bounds with ⟨hlow, ht⟩ | ⟨-, hall⟩
    · rw [ht, List.mem_singleton] at hc
      rw [hc]
      exact hlow
    · exact (hall b hc).1
  · decide

/-- The bare quotes of a quoted text are those around it. -/
theorem leavesOpen_eq_false_iff {t before after : Text}
    (h : encode t = before ++ quote :: after) :
    leavesOpen before = false ↔ before = [] ∨ after = [] := by
  have hbody := sealed_flatMap t
  cases before with
  | nil => simp [leavesOpen]
  | cons first before =>
    rw [encode, List.cons_append, List.cons_append] at h
    obtain ⟨rfl, htail⟩ := List.cons.inj h
    -- the opening quote escapes nothing
    have hopen : leavesOpen (quote :: before) = leavesOpen before := rfl
    rw [hopen]
    rcases List.eq_nil_or_concat after with rfl | ⟨after, last, rfl⟩
    · obtain ⟨rfl, -⟩ := List.append_inj' htail rfl
      simp [hbody.shut]
    · have hsplit : t.flatMap encodeByte = before ++ quote :: after := by
        rw [List.concat_eq_append, ← List.cons_append, ← List.append_assoc] at htail
        exact (List.append_inj' htail rfl).1
      simp [hbody.quotes before after hsplit]

theorem filter_encodeByte (b : UInt8) :
    (encodeByte b).filter (0x7f ≤ ·) = [b].filter (0x7f ≤ ·) := by
  rcases (written_encodeByte b).bounds with ⟨-, ht⟩ | ⟨hb, hall⟩
  · rw [ht]
  · have hnone : (encodeByte b).filter (0x7f ≤ ·) = [] := by
      rw [List.filter_eq_nil_iff]
      intro c hc
      simpa using (hall c hc).2
    simpa [hnone] using hb

/-- The high bytes of a text are written as they are, and no others are added. -/
theorem filter_encode (t : Text) : (encode t).filter (0x7f ≤ ·) = t.filter (0x7f ≤ ·) := by
  have hquote : [quote].filter (0x7f ≤ ·) = [] := by decide
  have hbody : (t.flatMap encodeByte).filter (0x7f ≤ ·) = t.filter (0x7f ≤ ·) := by
    induction t with
    | nil => rfl
    | cons b t ih =>
      rw [List.flatMap_cons, List.filter_append, ih, filter_encodeByte, ← List.filter_append]
      rfl
  rw [encode, List.cons_append, ← List.singleton_append, List.filter_append, List.filter_append,
    hquote, hbody, List.nil_append, List.append_nil]

theorem append_encode_inj {a b t u : Text} (h : encode a ++ t = encode b ++ u) :
    a = b ∧ t = u := by
  have hread := decode_encode_append a t
  rw [h, decode_encode_append] at hread
  cases hread
  exact ⟨rfl, rfl⟩

end Quoted

/-! ## Literals of JSON -/

namespace Json

/-- The letters that may stand after a backslash, each with the character it stands for. -/
def letters : List (Char × Char) :=
  [('"', '"'), ('\\', '\\'), ('/', '/'), ('b', '\x08'), ('f', '\x0c'), ('n', '\n'), ('r', '\r'),
    ('t', '\t')]

/-- The value of a hexadecimal digit. -/
def hexValue? (c : Char) : Option Nat :=
  if '0' ≤ c ∧ c ≤ '9' then some (c.toNat - 0x30)
  else if 'a' ≤ c ∧ c ≤ 'f' then some (c.toNat - 0x57)
  else if 'A' ≤ c ∧ c ≤ 'F' then some (c.toNat - 0x37)
  else none

/-- What stands between the quotes of a literal, and the characters that it denotes. Characters
beyond sixteen bits are written as they are; their escapes, which take two codes, are left out. -/
inductive Denotes : List Char → List Char → Prop
  | nil : Denotes [] []
  | plain {c : Char} {body value : List Char} :
      0x20 ≤ c.toNat → c ≠ '"' → c ≠ '\\' → Denotes body value → Denotes (c :: body) (c :: value)
  | letter {l c : Char} {body value : List Char} :
      (l, c) ∈ letters → Denotes body value → Denotes ('\\' :: l :: body) (c :: value)
  | code {h₃ h₂ h₁ h₀ c : Char} {v₃ v₂ v₁ v₀ : Nat} {body value : List Char} :
      hexValue? h₃ = some v₃ → hexValue? h₂ = some v₂ → hexValue? h₁ = some v₁ →
      hexValue? h₀ = some v₀ → c.toNat = 4096 * v₃ + 256 * v₂ + 16 * v₁ + v₀ →
      Denotes body value → Denotes ('\\' :: 'u' :: h₃ :: h₂ :: h₁ :: h₀ :: body) (c :: value)

/-- A text is a literal that denotes another one. -/
def IsLiteral (literal value : String) : Prop :=
  ∃ body, literal.toList = '"' :: body ++ ['"'] ∧ Denotes body value.toList

end Json

/-! ## Characters and bytes -/

theorem ofString_eq_flatMap (s : String) : ofString s = s.toList.flatMap String.utf8EncodeChar := by
  have h : s.toByteArray = s.toList.utf8Encode := by
    rw [← String.toByteArray_ofList, String.ofList_toList]
  rw [ofString, String.toUTF8_eq_toByteArray, h, List.utf8Encode]
  simp

theorem ofString_ofList (l : List Char) :
    ofString (String.ofList l) = l.flatMap String.utf8EncodeChar := by
  rw [ofString_eq_flatMap, String.toList_ofList]

theorem val_ofUInt8 (b : UInt8) : (Char.ofUInt8 b).val = b.toUInt32 := rfl

theorem utf8EncodeChar_ofUInt8 {b : UInt8} (h : b < 0x80) :
    String.utf8EncodeChar (Char.ofUInt8 b) = [b] := by
  have hsize : (Char.ofUInt8 b).utf8Size = 1 := by
    rw [Char.utf8Size_eq_one_iff, val_ofUInt8, UInt32.le_iff_toNat_le]
    have hb : b.toNat < 128 := UInt8.lt_iff_toNat_lt.mp h
    simpa using Nat.le_of_lt_succ hb
  rw [String.utf8EncodeChar_eq_singleton hsize, val_ofUInt8]
  simp

theorem flatMap_map_ofUInt8 {t : Text} (h : ∀ b ∈ t, b < 0x80) :
    (t.map Char.ofUInt8).flatMap String.utf8EncodeChar = t := by
  induction t with
  | nil => rfl
  | cons b t ih =>
    obtain ⟨hb, ht⟩ := List.forall_mem_cons.mp h
    rw [List.map_cons, List.flatMap_cons, utf8EncodeChar_ofUInt8 hb, ih ht, List.singleton_append]

theorem exists_ofUInt8 {c : Char} (h : c.toNat < 0x80) : ∃ b < 0x80, c = Char.ofUInt8 b := by
  have hc : c.val.toNat < 128 := h
  refine ⟨c.val.toUInt8, ?_, ?_⟩
  · rw [UInt8.lt_iff_toNat_lt, UInt32.toNat_toUInt8]
    simp only [UInt8.reduceToNat]
    omega
  · refine Char.ext (UInt32.toNat_inj.mp ?_)
    simp only [val_ofUInt8, UInt8.toNat_toUInt32, UInt32.toNat_toUInt8]
    omega

theorem high_of_mem_utf8EncodeChar {c : Char} (h : 0x80 ≤ c.toNat) :
    ∀ b ∈ String.utf8EncodeChar c, 0x7f ≤ b := by
  have hc : ¬c.val.toNat ≤ 127 := Nat.not_le.mpr h
  have hbyte : ∀ n, 128 ≤ n → n < 256 → 0x7f ≤ UInt8.ofNat n := by
    intro n hlow hhigh
    rw [UInt8.le_iff_toNat_le, UInt8.toNat_ofNat', Nat.mod_eq_of_lt hhigh]
    exact Nat.le_of_succ_le hlow
  unfold String.utf8EncodeChar
  simp only [hc, if_false]
  intro b hb
  split at hb
  · simp only [List.mem_cons, List.not_mem_nil, or_false] at hb
    rcases hb with rfl | rfl
    · exact hbyte _ (by omega) (by omega)
    · exact hbyte _ (by omega) (by omega)
  · split at hb
    · simp only [List.mem_cons, List.not_mem_nil, or_false] at hb
      rcases hb with rfl | rfl | rfl
      · exact hbyte _ (by omega) (by omega)
      · exact hbyte _ (by omega) (by omega)
      · exact hbyte _ (by omega) (by omega)
    · simp only [List.mem_cons, List.not_mem_nil, or_false] at hb
      rcases hb with rfl | rfl | rfl | rfl
      · exact hbyte _ (by omega) (by omega)
      · exact hbyte _ (by omega) (by omega)
      · exact hbyte _ (by omega) (by omega)
      · exact hbyte _ (by omega) (by omega)

namespace Quoted

theorem flatMap_encodeByte_of_high {t : Text} (h : ∀ b ∈ t, 0x7f ≤ b) :
    t.flatMap encodeByte = t := by
  induction t with
  | nil => rfl
  | cons b t ih =>
    obtain ⟨hb, ht⟩ := List.forall_mem_cons.mp h
    rw [List.flatMap_cons, ih ht]
    rcases (written_encodeByte b).bounds with ⟨-, hwritten⟩ | ⟨hlow, -⟩
    · rw [hwritten, List.singleton_append]
    · exact absurd hb (UInt8.not_le.mpr hlow)

theorem Written.ascii {b : UInt8} {t : Text} (h : Written b t) (hb : b < 0x80) :
    ∀ c ∈ t, c < 0x80 := by
  intro c hc
  rcases h.bounds with ⟨-, rfl⟩ | ⟨-, hall⟩
  · rw [List.mem_singleton.mp hc]
    exact hb
  · exact UInt8.lt_trans (hall c hc).2 (by decide)

theorem hexValue?_hexDigit {n : Nat} (h : n < 16) :
    Json.hexValue? (Char.ofUInt8 (hexDigit n)) = some n := by
  have key : ∀ n : Fin 16, Json.hexValue? (Char.ofUInt8 (hexDigit n.1)) = some n.1 := by decide
  exact key ⟨n, h⟩

theorem toNat_ofUInt8 (b : UInt8) : (Char.ofUInt8 b).toNat = b.toNat := by
  rw [Char.toNat, val_ofUInt8, UInt8.toNat_toUInt32]

theorem ofUInt8_ne {b : UInt8} {c : Char} (h : b.toNat ≠ c.toNat) : Char.ofUInt8 b ≠ c := by
  rintro rfl
  exact h (toNat_ofUInt8 b).symm

theorem Written.denotes {b : UInt8} {t : Text} (h : Written b t) {body value : List Char}
    (hrest : Json.Denotes body value) :
    Json.Denotes (t.map Char.ofUInt8 ++ body) (Char.ofUInt8 b :: value) := by
  cases h with
  | letter hmem =>
    have key : escapes.all (fun p => Json.letters.contains (Char.ofUInt8 p.2, Char.ofUInt8 p.1))
        = true := by decide
    exact .letter (List.contains_iff_mem.mp (List.all_eq_true.mp key _ hmem)) hrest
  | control _ =>
    have hzero : Json.hexValue? (Char.ofUInt8 0x30) = some 0 := by decide
    refine .code hzero hzero (hexValue?_hexDigit (high_lt b)) (hexValue?_hexDigit (low_lt b)) ?_
      hrest
    rw [toNat_ofUInt8]
    omega
  | plain hlow hq hb =>
    refine .plain ?_ (ofUInt8_ne ?_) (ofUInt8_ne ?_) hrest
    · rw [toNat_ofUInt8]
      exact UInt8.le_iff_toNat_le.mp hlow
    · exact fun heq => hq (UInt8.toNat_inj.mp heq)
    · exact fun heq => hb (UInt8.toNat_inj.mp heq)

/-- The bytes of a character are written as the bytes of characters that denote it. -/
theorem written_char (c : Char) :
    ∃ chars : List Char,
      (String.utf8EncodeChar c).flatMap encodeByte = chars.flatMap String.utf8EncodeChar ∧
      ∀ body value, Json.Denotes body value → Json.Denotes (chars ++ body) (c :: value) := by
  by_cases hascii : c.toNat < 0x80
  · obtain ⟨b, hb, rfl⟩ := exists_ofUInt8 hascii
    have hwritten := written_encodeByte b
    refine ⟨(encodeByte b).map Char.ofUInt8, ?_, ?_⟩
    · rw [utf8EncodeChar_ofUInt8 hb, flatMap_map_ofUInt8 (hwritten.ascii hb)]
      simp
    · intro body value h
      exact hwritten.denotes h
  · refine ⟨[c], ?_, ?_⟩
    · rw [flatMap_encodeByte_of_high (high_of_mem_utf8EncodeChar (Nat.not_lt.mp hascii))]
      simp
    · intro body value h
      refine .plain (by omega) ?_ ?_ h
      · rintro rfl
        exact hascii (by decide)
      · rintro rfl
        exact hascii (by decide)

theorem exists_denotes (value : List Char) :
    ∃ body : List Char,
      (value.flatMap String.utf8EncodeChar).flatMap encodeByte
        = body.flatMap String.utf8EncodeChar ∧ Json.Denotes body value := by
  induction value with
  | nil => exact ⟨[], rfl, .nil⟩
  | cons c value ih =>
    obtain ⟨chars, hchars, hdenotes⟩ := written_char c
    obtain ⟨body, hbody, hvalue⟩ := ih
    refine ⟨chars ++ body, ?_, hdenotes body value hvalue⟩
    rw [List.flatMap_cons, List.flatMap_append, hchars, hbody, List.flatMap_append]

theorem isLiteral_encode (s : String) :
    ∃ literal : String, encode (ofString s) = ofString literal ∧ Json.IsLiteral literal s := by
  obtain ⟨body, hbody, hdenotes⟩ := exists_denotes s.toList
  refine ⟨String.ofList ('"' :: body ++ ['"']), ?_, body, String.toList_ofList, hdenotes⟩
  have hquote : String.utf8EncodeChar '"' = [quote] := by decide
  rw [ofString_ofList, ofString_eq_flatMap, encode, hbody]
  simp [hquote]

/-- **Quoting is self-delimiting, and what it writes is a literal.** The decoder, which stops at
the first bare quote after the opening one, reads a quoted text back whole from in front of
anything; so no two quoted texts with something after them are alike. A quoted text holds no control
byte, it begins and ends with a quote, and its other quotes are escaped. Bytes from `0x7f` on are
written as they are. The quoted form of a text in UTF-8 is in UTF-8 again, and as a literal of JSON
it denotes that text. -/
theorem encode_self_delimiting (t : Text) :
    (∀ input value rest, decode input = some (value, rest) →
      ∃ body, input = quote :: body ++ quote :: rest ∧ Sealed body) ∧
    (∀ tail, decode (encode t ++ tail) = some (t, tail)) ∧
    (∀ other tail tail', encode t ++ tail = encode other ++ tail' → t = other ∧ tail = tail') ∧
    (∀ b ∈ encode t, 0x20 ≤ b) ∧
    (∃ body, encode t = quote :: body ++ [quote]) ∧
    (∀ before after, encode t = before ++ quote :: after →
      (leavesOpen before = false ↔ before = [] ∨ after = [])) ∧
    (encode t).filter (0x7f ≤ ·) = t.filter (0x7f ≤ ·) ∧
    (∀ s : String, t = ofString s →
      ∃ literal : String, encode t = ofString literal ∧ Json.IsLiteral literal s) := by
  refine ⟨?_, decode_encode_append t, ?_, printable_encode t, ⟨_, rfl⟩, ?_, filter_encode t, ?_⟩
  · intro input value rest h
    exact sealed_of_decode h
  · intro other tail tail' h
    exact append_encode_inj h
  · intro before after h
    exact leavesOpen_eq_false_iff h
  · rintro s rfl
    exact isLiteral_encode s

/-- A quote before a letter with an accent. The quote inside is not bare, reading stops behind the
closing one, no other text is quoted like this, and the form is a literal. -/
theorem encode_self_delimiting_accent :
    leavesOpen [quote, backslash] ≠ false ∧
    (∃ body, encode (ofString "\"é") ++ [quote] = quote :: body ++ [quote, quote] ∧ Sealed body) ∧
    (∀ tail, encode (ofString "\"é") ++ tail ≠ encode [] ++ tail) ∧
    ∃ literal : String, encode (ofString "\"é") = ofString literal ∧
      Json.IsLiteral literal "\"é" := by
  obtain ⟨hstop, hread, hinj, -, -, hbare, -, hliteral⟩ :=
    encode_self_delimiting (ofString "\"é")
  refine ⟨?_, hstop _ _ _ (hread [quote]), ?_, hliteral "\"é" rfl⟩
  · have hsplit : encode (ofString "\"é")
        = [quote, backslash] ++ quote :: [0xc3, 0xa9, quote] := by decide
    simp [hbare _ _ hsplit]
  · intro tail h
    exact absurd (hinj [] tail tail h).1 (by decide)

end Quoted
end Text
end WordMachine

import Mathlib.Data.List.Forall2
import WordMachine.Proofs.Binary64.Distinct
import WordMachine.Proofs.Binary64.Length
import WordMachine.Proofs.Text.Literal
import WordMachine.Stack

/-!
# Printed stacks are unambiguous

**Stacks that are printed alike hold the same values**, position by position: the same kinds, the
same texts byte for byte, and the same numbers bit for bit, NaNs of one sign apart. A string may
hold anything, even a text that looks like the end of its item and the beginning of another.

The reason is that a printed item shows where it ends, whatever is printed behind it
(`Value.append_text_inj`). Its first byte gives the kind. A string ends at the closing quote, a
number or a word at the first closing parenthesis, and here a word has to be plain: the symbol
`a), word(b` is printed as two words would be.
-/

set_option autoImplicit false

namespace WordMachine

theorem Text.append_cons_inj {b : UInt8} {s s' t t' : Text} (hs : b ∉ s) (hs' : b ∉ s')
    (h : s ++ b :: t = s' ++ b :: t') : s = s' ∧ t = t' := by
  have hfront : ∀ {r : Text}, b ∉ r → ∀ u : Text, (r ++ b :: u).takeWhile (· != b) = r := by
    intro r hr u
    have hne : ∀ c ∈ r, (c != b) = true := fun c hc => bne_iff_ne.mpr (ne_of_mem_of_not_mem hc hr)
    rw [List.takeWhile_append_of_pos hne, List.takeWhile_cons_of_neg (by simp), List.append_nil]
  have heq : s = s' := by rw [← hfront hs t, h, hfront hs' t']
  subst heq
  exact ⟨rfl, (List.cons.inj (List.append_cancel_left h)).2⟩

/-! ## Values -/

theorem Tag.eq_of_head? {a b : Tag} : a.name.head? = b.name.head? → a = b := by
  cases a <;> cases b <;> decide

namespace Value

/-- A number, a string, or a word without a closing parenthesis in its symbol. -/
inductive IsPlain : Value → Prop
  | number (x : Binary64) : IsPlain (.number x)
  | string (content : Text) : IsPlain (.string content)
  | word {symbol : Text} : (0x29 : UInt8) ∉ symbol → IsPlain (.word symbol)

/-- Values of one kind with one payload, where NaNs of one sign count as one. -/
inductive Alike : Value → Value → Prop
  | number {x y : Binary64} : x.Alike y → Alike (.number x) (.number y)
  | string (content : Text) : Alike (.string content) (.string content)
  | word (symbol : Text) : Alike (.word symbol) (.word symbol)

variable {v w : Value} {t u : Text}

theorem Alike.text_eq (h : v.Alike w) : v.text = w.text := by
  cases h with
  | number h =>
    rw [text, text, payloadText_number, payloadText_number, Binary64.text_eq_iff.mpr h]
    rfl
  | string => rfl
  | word => rfl

theorem text_append_eq (v : Value) (t : Text) :
    v.text ++ t = v.tag.name ++ 0x28 :: (v.payloadText ++ 0x29 :: t) := by
  rw [text, List.append_assoc, List.append_assoc, List.append_assoc]
  rfl

theorem head?_text_append (v : Value) (t : Text) : (v.text ++ t).head? = v.tag.name.head? := by
  rw [text_append_eq]
  cases v with
  | number => rfl
  | string => rfl
  | word => rfl
  | primitive => rfl

theorem tag_eq_of_append_text (h : v.text ++ t = w.text ++ u) : v.tag = w.tag := by
  have hhead : v.tag.name.head? = w.tag.name.head? := by
    rw [← head?_text_append v t, h, head?_text_append]
  exact Tag.eq_of_head? hhead

/-- An item never begins with the bracket that ends a stack. -/
theorem text_append_ne (v : Value) (t u : Text) : v.text ++ t ≠ 0x5d :: u := by
  intro h
  have hhead := v.head?_text_append t
  rw [h, List.head?_cons] at hhead
  generalize v.tag = a at hhead
  cases a <;> exact absurd hhead (by decide)

/-- A printed item ends in one place only, whatever follows it. -/
theorem append_text_inj (hv : v.IsPlain) (hw : w.IsPlain) (h : v.text ++ t = w.text ++ u) :
    v.Alike w ∧ t = u := by
  have htag := tag_eq_of_append_text h
  rw [text_append_eq, text_append_eq, htag] at h
  have hpayload := (List.cons.inj (List.append_cancel_left h)).2
  cases hv with
  | number x =>
    cases hw with
    | number y =>
      rw [payloadText_number, payloadText_number] at hpayload
      have hparen : ∀ z : Binary64, (0x29 : UInt8) ∉ z.text :=
        Binary64.not_mem_text (by decide) (by decide)
      obtain ⟨htext, hrest⟩ := Text.append_cons_inj (hparen x) (hparen y) hpayload
      exact ⟨.number (Binary64.text_eq_iff.mp htext), hrest⟩
    | string => cases htag
    | word => cases htag
  | string content =>
    cases hw with
    | number => cases htag
    | string content' =>
      obtain ⟨rfl, hrest⟩ := Text.Quoted.append_encode_inj hpayload
      exact ⟨.string content, (List.cons.inj hrest).2⟩
    | word => cases htag
  | word hsymbol =>
    cases hw with
    | number => cases htag
    | string => cases htag
    | word hsymbol' =>
      obtain ⟨hsame, hrest⟩ := Text.append_cons_inj hsymbol hsymbol' hpayload
      cases hsame
      exact ⟨.word _, hrest⟩

end Value

/-! ## Stacks -/

namespace Stack

/-- What is printed behind the first item of a stack. -/
def othersText (vs : List Value) : Text :=
  (vs.map Value.text).flatMap (Text.ofString ", " ++ ·) ++ Text.ofString "]"

theorem othersText_cons (v : Value) (vs : List Value) :
    othersText (v :: vs) = 0x2c :: 0x20 :: (v.text ++ othersText vs) := by
  simp only [othersText, List.map_cons, List.flatMap_cons, List.append_assoc]
  rfl

theorem text_of_toList_cons {s : Stack} {v : Value} {vs : List Value} (h : s.toList = v :: vs) :
    s.text = 0x5b :: (v.text ++ othersText vs) := by
  rw [text, h, List.map_cons, Text.join, othersText, List.append_assoc, List.append_assoc]
  rfl

theorem text_of_toList_nil {s : Stack} (h : s.toList = []) : s.text = [0x5b, 0x5d] := by
  rw [text, h]
  rfl

variable {vs ws : List Value}

/-- Items behind items: each comma begins one, and the bracket ends them all. -/
theorem alike_of_othersText (hv : ∀ v ∈ vs, v.IsPlain) (hw : ∀ w ∈ ws, w.IsPlain)
    (h : othersText vs = othersText ws) : List.Forall₂ Value.Alike vs ws := by
  induction vs generalizing ws with
  | nil =>
    cases ws with
    | nil => exact .nil
    | cons w ws => rw [othersText_cons] at h; cases h
  | cons v vs ih =>
    cases ws with
    | nil => rw [othersText_cons] at h; cases h
    | cons w ws =>
      obtain ⟨hvh, hvt⟩ := List.forall_mem_cons.mp hv
      obtain ⟨hwh, hwt⟩ := List.forall_mem_cons.mp hw
      rw [othersText_cons, othersText_cons, List.cons.injEq, List.cons.injEq] at h
      obtain ⟨halike, hrest⟩ := Value.append_text_inj hvh hwh h.2.2
      exact .cons halike (ih hvt hwt hrest)

theorem map_text_eq_of_alike (h : List.Forall₂ Value.Alike vs ws) :
    vs.map Value.text = ws.map Value.text := by
  induction h with
  | nil => rfl
  | cons hvw _ ih => rw [List.map_cons, List.map_cons, hvw.text_eq, ih]

/-- **Printed stacks are unambiguous.** Two stacks of plain values have one text if and only if they
have one depth and their values are alike, position by position. -/
theorem text_unambiguous {s t : Stack} (hs : ∀ v ∈ s.toList, v.IsPlain)
    (ht : ∀ v ∈ t.toList, v.IsPlain) :
    s.text = t.text ↔ s.depth = t.depth ∧ List.Forall₂ Value.Alike s.toList t.toList := by
  constructor
  · intro h
    suffices halike : List.Forall₂ Value.Alike s.toList t.toList from ⟨halike.length_eq, halike⟩
    cases hvs : s.toList with
    | nil =>
      cases hws : t.toList with
      | nil => exact .nil
      | cons w ws =>
        rw [text_of_toList_nil hvs, text_of_toList_cons hws, List.cons.injEq] at h
        exact absurd h.2.symm (w.text_append_ne _ _)
    | cons v vs =>
      cases hws : t.toList with
      | nil =>
        rw [text_of_toList_cons hvs, text_of_toList_nil hws, List.cons.injEq] at h
        exact absurd h.2 (v.text_append_ne _ _)
      | cons w ws =>
        rw [hvs, List.forall_mem_cons] at hs
        rw [hws, List.forall_mem_cons] at ht
        rw [text_of_toList_cons hvs, text_of_toList_cons hws, List.cons.injEq] at h
        obtain ⟨halike, hrest⟩ := Value.append_text_inj hs.1 ht.1 h.2
        exact .cons halike (alike_of_othersText hs.2 ht.2 hrest)
  · rintro ⟨-, halike⟩
    rw [text, text, map_text_eq_of_alike halike]

/-- A string that closes its own quote and goes on like a word is not taken for two items, and two
NaNs that differ in their payloads only are printed alike. -/
theorem text_unambiguous_forged :
    (ofList [.string (Text.ofString "a\"), word(b")]).text
      ≠ (ofList [.string (Text.ofString "a"), .word (Text.ofString "b")]).text ∧
    (ofList [.number (.ofBits 0xfff8000000000000)]).text
      = (ofList [.number (.ofBits 0xfff0000000000001)]).text := by
  constructor
  · intro h
    obtain ⟨hdepth, -⟩ := (text_unambiguous
      (List.forall_mem_singleton.mpr (.string _))
      (List.forall_mem_cons.mpr ⟨.string _, List.forall_mem_singleton.mpr (.word (by decide))⟩)).mp h
    cases hdepth
  · refine (text_unambiguous (List.forall_mem_singleton.mpr (.number _))
      (List.forall_mem_singleton.mpr (.number _))).mpr ⟨rfl, .cons (.number ?_) .nil⟩
    exact Or.inr (by decide)

/-- A word that is not plain can be taken for two. -/
example : (ofList [.word (Text.ofString "a), word(b")]).text
    = (ofList [.word (Text.ofString "a"), .word (Text.ofString "b")]).text := by decide

end Stack
end WordMachine

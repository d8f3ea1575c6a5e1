import WordMachine.Proofs.StandardWords.Depth

/-!
# What applying a standard word comes to

The cases of `StandardWord.Performs` say what a word does when it is left to itself. Here the words
are applied as primitives, so that an underflow is blamed on them, and each is described from the
outside: from a stack, of whatever values, **which stack is handed back, when operands are lacking,
and which kind of operand is refused** (`Primitive.Behaves`). The three exclude each other, and
there is no fourth.

An arithmetic word on a stack of one value shows why the description is by stacks and not by depth.
The word lacks an operand if that value is a number, and refuses it if it is not: the top is taken
off and looked at before anything is known about what lies below.
-/

set_option autoImplicit false

namespace WordMachine

theorem Tag.name_injective {a b : Tag} (h : a.name = b.name) : a = b := by
  revert h
  cases a <;> cases b <;> decide

theorem Stack.depth_lt_one_iff {s : Stack} : s.depth < 1 ↔ s = empty := by
  constructor
  · intro h
    rcases s.eq_empty_or_push with rfl | ⟨t, v, rfl⟩
    · rfl
    · rw [depth_push] at h
      omega
  · rintro rfl
    decide

theorem Stack.depth_lt_two_iff {s : Stack} : s.depth < 2 ↔ s = empty ∨ ∃ v, s = empty.push v := by
  constructor
  · intro h
    rcases s.eq_empty_or_push with rfl | ⟨t, v, rfl⟩
    · exact Or.inl rfl
    · rw [depth_push] at h
      have ht : t = empty := depth_lt_one_iff.mp (by omega)
      exact Or.inr ⟨v, by rw [ht]⟩
  · rintro (rfl | ⟨v, rfl⟩)
    · decide
    · rw [depth_push]
      decide

/-- What applying a primitive to a stack comes to: the stack handed back, or a failure in the name
of the primitive, for lack of operands or for an operand of a kind that it refuses. -/
structure Primitive.Behaves (p : Primitive) (host : Host) (s : Stack) (gives : Stack → Prop)
    (lacks : Prop) (refuses : Tag → Prop) : Prop where
  done_iff : ∀ t, p.apply host s = .done t ↔ gives t
  arity_iff : (∃ message, p.apply host s = .failed (.arityMismatch p.name message)) ↔ lacks
  type_iff : ∀ tag : Tag, p.apply host s
      = .failed (.typeMismatch p.name (Text.ofString "expected number, got " ++ tag.name)) ↔
    refuses tag
  failed_cases : ∀ e, p.apply host s = .failed e →
    (∃ message, e = .arityMismatch p.name message) ∨
      ∃ tag : Tag, e = .typeMismatch p.name (Text.ofString "expected number, got " ++ tag.name)
  ne_aborted : ∀ r, p.apply host s ≠ .aborted r

namespace StandardWord

variable {w : StandardWord} {s : Stack} {op : Binary64 → Binary64 → Binary64}

theorem refusal_eq_iff {v : Value} {tag : Tag} :
    w.refusal v = .typeMismatch w.name (Text.ofString "expected number, got " ++ tag.name) ↔
      v.tag = tag := by
  constructor
  · intro h
    have hmessage := congrArg Error.message h
    exact Tag.name_injective (List.append_cancel_left hmessage)
  · rintro rfl
    rfl

theorem blame_refusal (w : StandardWord) (v : Value) (primitive : Text) :
    (w.refusal v).blame primitive = w.refusal v :=
  Error.blame_of_kind_ne (by simp [refusal, Error.typeMismatch]) primitive

/-- A word applied as a primitive behaves as its cases say: underflows are lacks, and the other
errors refusals. -/
theorem behaves_of_performs {gives : Stack → Prop} {lacks : Prop} {refuses : Tag → Prop}
    (hok : ∀ t, w.Performs s (.ok t) ↔ gives t)
    (herror : ∀ e, w.Performs s (.error e) →
      (e.kind = .stackUnderflow ∧ lacks) ∨ ∃ v, e = w.refusal v ∧ refuses v.tag)
    (hlacks : lacks → ∃ e, w.Performs s (.error e) ∧ e.kind = .stackUnderflow)
    (hrefuses : ∀ tag, refuses tag → ∃ v, v.tag = tag ∧ w.Performs s (.error (w.refusal v)))
    (serial : Nat) (host : Host) :
    (w.primitive serial).Behaves host s gives lacks refuses := by
  have hfailed : ∀ e, (w.primitive serial).apply host s = .failed e →
      (lacks ∧ ∃ message, e = .arityMismatch w.name message) ∨
        ∃ v, e = w.refusal v ∧ refuses v.tag := by
    intro e h
    obtain ⟨cause, hcause, rfl⟩ := (Primitive.apply_eq_failed_iff rfl).mp h
    rcases herror cause hcause with ⟨hkind, hl⟩ | ⟨v, rfl, hv⟩
    · exact Or.inl ⟨hl, _, Error.blame_of_underflow hkind _⟩
    · exact Or.inr ⟨v, w.blame_refusal v _, hv⟩
  constructor
  · intro t
    exact (Primitive.apply_eq_done_iff rfl).trans (hok t)
  · constructor
    · rintro ⟨message, h⟩
      rcases hfailed _ h with ⟨hl, -⟩ | ⟨v, hv, -⟩
      · exact hl
      · cases hv
    · intro hl
      obtain ⟨e, he, hkind⟩ := hlacks hl
      have hblame := Error.blame_of_underflow hkind w.name
      exact ⟨_, (Primitive.apply_eq_failed_iff rfl).mpr ⟨e, he, hblame⟩⟩
  · intro tag
    constructor
    · intro h
      rcases hfailed _ h with ⟨-, message, hm⟩ | ⟨v, hv, hr⟩
      · cases hm
      · rw [refusal_eq_iff.mp hv.symm] at hr
        exact hr
    · intro hr
      obtain ⟨v, hv, hp⟩ := hrefuses tag hr
      have hblame := (w.blame_refusal v w.name).trans (refusal_eq_iff.mpr hv)
      exact (Primitive.apply_eq_failed_iff rfl).mpr ⟨_, hp, hblame⟩
  · intro e h
    rcases hfailed e h with ⟨-, hm⟩ | ⟨v, rfl, -⟩
    · exact Or.inl hm
    · exact Or.inr ⟨v.tag, rfl⟩
  · intro r
    exact Primitive.IsStandard.apply_ne_aborted ⟨w, serial, rfl⟩ r

/-! ## Word by word -/

theorem behaves_arithmetic (h : w.operator? = some op) (serial : Nat) (host : Host) (s : Stack) :
    (w.primitive serial).Behaves host s
      (fun t => ∃ rest x y, s = (Stack.push rest (.number x)).push (.number y) ∧
        t = rest.push (.number (op x y)))
      (s = .empty ∨ ∃ y, s = Stack.empty.push (.number y))
      (fun tag => tag ≠ .number ∧ ∃ rest v, v.tag = tag ∧
        (s = Stack.push rest v ∨ ∃ y, s = (Stack.push rest v).push (.number y))) := by
  have hsome : w.operator?.isSome := by rw [h]; rfl
  apply behaves_of_performs
  · intro t
    constructor
    · intro hp
      cases hp with
      | arithmetic hop =>
        rw [h] at hop
        cases hop
        exact ⟨_, _, _, rfl, rfl⟩
      -- the other words that succeed are not arithmetic
      | _ => cases h
    · rintro ⟨rest, x, y, rfl, rfl⟩
      exact .arithmetic h
  · intro e hp
    cases hp with
    | badTop _ hv => exact Or.inr ⟨_, rfl, hv, _, _, rfl, Or.inl rfl⟩
    | badLeft _ hv => exact Or.inr ⟨_, rfl, hv, _, _, rfl, Or.inr ⟨_, rfl⟩⟩
    | empty _ => exact Or.inl ⟨rfl, Or.inl rfl⟩
    | loneRight _ => exact Or.inl ⟨rfl, Or.inr ⟨_, rfl⟩⟩
    | loneSwap => cases h
    | shortOver _ => cases h
  · rintro (rfl | ⟨y, rfl⟩)
    · refine ⟨_, .empty ?_, rfl⟩
      rintro rfl
      cases h
    · exact ⟨_, .loneRight hsome, rfl⟩
  · rintro tag ⟨htag, rest, v, rfl, rfl | ⟨y, rfl⟩⟩
    · exact ⟨v, rfl, .badTop (isNumeric_of_operator h) htag⟩
    · exact ⟨v, rfl, .badLeft hsome htag⟩

theorem behaves_sqrt (serial : Nat) (host : Host) (s : Stack) :
    (StandardWord.sqrt.primitive serial).Behaves host s
      (fun t => ∃ rest x, s = Stack.push rest (.number x) ∧ t = rest.push (.number x.sqrt))
      (s = .empty)
      (fun tag => tag ≠ .number ∧ ∃ rest v, v.tag = tag ∧ s = Stack.push rest v) := by
  apply behaves_of_performs
  · intro t
    constructor
    · intro hp
      cases hp with
      | arithmetic hop => cases hop
      | sqrt => exact ⟨_, _, rfl, rfl⟩
    · rintro ⟨rest, x, rfl, rfl⟩
      exact .sqrt
  · intro e hp
    cases hp with
    | badTop _ hv => exact Or.inr ⟨_, rfl, hv, _, _, rfl, rfl⟩
    | badLeft hw _ => cases hw
    | empty _ => exact Or.inl ⟨rfl, rfl⟩
    | loneRight hw => cases hw
  · rintro rfl
    exact ⟨_, .empty (by decide), rfl⟩
  · rintro tag ⟨htag, rest, v, rfl, rfl⟩
    exact ⟨v, rfl, .badTop rfl htag⟩

/-- The words that move values of every kind refuse none, and lack operands just when the stack is
not as deep as they need it. -/
theorem behaves_moving {gives : Stack → Prop} (hw : w.isNumeric = false)
    (hok : ∀ t, w.Performs s (.ok t) ↔ gives t) (serial : Nat) (host : Host) :
    (w.primitive serial).Behaves host s gives (s.depth < w.need) (fun _ => False) := by
  have hnone : ¬w.operator?.isSome := by
    intro h
    obtain ⟨op, hop⟩ := Option.isSome_iff_exists.mp h
    rw [isNumeric_of_operator hop] at hw
    cases hw
  apply behaves_of_performs hok
  · intro e hp
    cases hp with
    | badTop h _ => rw [h] at hw; cases hw
    | badLeft h _ => exact absurd h hnone
    | empty _ => exact Or.inl ⟨rfl, w.need_pos⟩
    | loneRight h => exact absurd h hnone
    | loneSwap => exact Or.inl ⟨rfl, by rw [Stack.depth_push]; decide⟩
    | shortOver hs => exact Or.inl ⟨rfl, hs⟩
  · intro hs
    cases w with
    | add | subtract | multiply | divide | sqrt => cases hw
    | dup | drop =>
      rw [Stack.depth_lt_one_iff.mp hs]
      exact ⟨_, .empty (by decide), rfl⟩
    | swap =>
      rcases Stack.depth_lt_two_iff.mp hs with rfl | ⟨v, rfl⟩
      · exact ⟨_, .empty (by decide), rfl⟩
      · exact ⟨_, .loneSwap, rfl⟩
    | «over» => exact ⟨_, .shortOver hs, rfl⟩
  · intro tag h
    exact h.elim

theorem performs_dup_iff {t : Stack} :
    Performs .dup s (.ok t) ↔ ∃ rest x, s = Stack.push rest x ∧ t = (rest.push x).push x := by
  constructor
  · intro h
    cases h with
    | arithmetic hop => cases hop
    | dup => exact ⟨_, _, rfl, rfl⟩
  · rintro ⟨rest, x, rfl, rfl⟩
    exact .dup

theorem performs_drop_iff {t : Stack} :
    Performs .drop s (.ok t) ↔ ∃ rest x, s = Stack.push rest x ∧ t = rest := by
  constructor
  · intro h
    cases h with
    | arithmetic hop => cases hop
    | drop => exact ⟨_, _, rfl, rfl⟩
  · rintro ⟨rest, x, rfl, rfl⟩
    exact .drop

theorem performs_swap_iff {t : Stack} :
    Performs .swap s (.ok t) ↔
      ∃ rest x y, s = (Stack.push rest x).push y ∧ t = (rest.push y).push x := by
  constructor
  · intro h
    cases h with
    | arithmetic hop => cases hop
    | swap => exact ⟨_, _, _, rfl, rfl⟩
  · rintro ⟨rest, x, y, rfl, rfl⟩
    exact .swap

theorem performs_over_iff {t : Stack} :
    Performs .over s (.ok t) ↔
      ∃ rest x y, s = (Stack.push rest x).push y ∧ t = ((rest.push x).push y).push x := by
  constructor
  · intro h
    cases h with
    | arithmetic hop => cases hop
    | «over» => exact ⟨_, _, _, rfl, rfl⟩
  · rintro ⟨rest, x, y, rfl, rfl⟩
    exact .over

/-- **What the nine words mean**, on every stack. The four arithmetic words replace two numbers by
one, the top being the right operand; they lack operands on the empty stack and on a lone number;
and they refuse a top that is no number, also if nothing lies below it, and under a number a value
that is none. The square root does so with one number. The other four words move values of every
kind, refuse none, and lack operands just when the stack is less deep than they need. Every failure
is in the name of the word. -/
theorem standard_words_exact (serial : Nat) (host : Host) (s : Stack) :
    (∀ w op, operator? w = some op → (w.primitive serial).Behaves host s
      (fun t => ∃ rest x y, s = (Stack.push rest (.number x)).push (.number y) ∧
        t = rest.push (.number (op x y)))
      (s = .empty ∨ ∃ y, s = Stack.empty.push (.number y))
      (fun tag => tag ≠ .number ∧ ∃ rest v, v.tag = tag ∧
        (s = Stack.push rest v ∨ ∃ y, s = (Stack.push rest v).push (.number y)))) ∧
    (StandardWord.sqrt.primitive serial).Behaves host s
      (fun t => ∃ rest x, s = Stack.push rest (.number x) ∧ t = rest.push (.number x.sqrt))
      (s = .empty)
      (fun tag => tag ≠ .number ∧ ∃ rest v, v.tag = tag ∧ s = Stack.push rest v) ∧
    (StandardWord.dup.primitive serial).Behaves host s
      (fun t => ∃ rest x, s = Stack.push rest x ∧ t = (rest.push x).push x)
      (s.depth < 1) (fun _ => False) ∧
    (StandardWord.drop.primitive serial).Behaves host s
      (fun t => ∃ rest x, s = Stack.push rest x ∧ t = rest)
      (s.depth < 1) (fun _ => False) ∧
    (StandardWord.swap.primitive serial).Behaves host s
      (fun t => ∃ rest x y, s = (Stack.push rest x).push y ∧ t = (rest.push y).push x)
      (s.depth < 2) (fun _ => False) ∧
    (StandardWord.over.primitive serial).Behaves host s
      (fun t => ∃ rest x y, s = (Stack.push rest x).push y ∧ t = ((rest.push x).push y).push x)
      (s.depth < 2) (fun _ => False) := by
  refine ⟨?_, behaves_sqrt serial host s, ?_, ?_, ?_, ?_⟩
  · intro w op h
    exact behaves_arithmetic h serial host s
  · exact behaves_moving rfl (fun _ => performs_dup_iff) serial host
  · exact behaves_moving rfl (fun _ => performs_drop_iff) serial host
  · exact behaves_moving rfl (fun _ => performs_swap_iff) serial host
  · exact behaves_moving rfl (fun _ => performs_over_iff) serial host

/-- A text alone on the stack is refused by the sum, which does not get to see that it lacks an
operand; a number alone is not enough. -/
theorem standard_words_exact_lone :
    (StandardWord.add.primitive 0).apply .none (.ofList [.string []])
      = .failed (.typeMismatch StandardWord.add.name
          (Text.ofString "expected number, got " ++ Tag.string.name)) ∧
    (¬∃ message, (StandardWord.add.primitive 0).apply .none (.ofList [.string []])
      = .failed (.arityMismatch StandardWord.add.name message)) ∧
    ∃ message, (StandardWord.add.primitive 0).apply .none (.ofList [.number (.ofNat 1)])
      = .failed (.arityMismatch StandardWord.add.name message) := by
  have htext := (standard_words_exact 0 .none (.ofList [.string []])).1 .add _ rfl
  have hnumber := (standard_words_exact 0 .none (.ofList [.number (.ofNat 1)])).1 .add _ rfl
  refine ⟨?_, ?_, ?_⟩
  · refine (htext.type_iff .string).mpr ⟨by decide, .empty, .string [], rfl, Or.inl rfl⟩
  · intro h
    rcases htext.arity_iff.mp h with h | ⟨y, h⟩
    · cases h
    · cases h
  · exact hnumber.arity_iff.mpr (Or.inr ⟨_, rfl⟩)

end StandardWord
end WordMachine

import WordMachine.Stack

/-!
# Stacks are lists with the top at the head

A stack is stored with its bottom first, and a position is counted back from the end of what is
stored. None of this can be told from outside: **whatever is asked of a stack, it answers as a list
with the top at its head would, and is left with the contents of that list.**

The list is the other side of the comparison (`Lifo.serve`). It knows nothing of ends and of machine
words: a push is a `cons`, a pop takes the head off, and a read that finds nothing is refused. A
single request commutes with the view `toTopFirst` (`map_serve`), hence so does a whole sequence
(`Request.map_history`, `Request.map_after`), and what holds of lists holds of stacks. So the value
at a position is the one that is popped after as many pops, and what a stack held at first stays
where it is as long as nothing reaches below it.
-/

set_option autoImplicit false

namespace WordMachine
namespace Stack

/-! ## Requests -/

/-- What a stack can be asked for. -/
inductive Request where
  | push (v : Value)
  | pop
  | top
  | peek (i : UInt64)
deriving DecidableEq

namespace Request

/-- A request that was made, the answer to it, and the state it led to. -/
structure Entry (ρ σ : Type) where
  request : Request
  answer : ρ
  state : σ

variable {ρ ρ' σ σ' : Type}

/-- The same entry with its answer and its state seen in another way. -/
def Entry.map (f : ρ → ρ') (g : σ → σ') (e : Entry ρ σ) : Entry ρ' σ' :=
  ⟨e.request, f e.answer, g e.state⟩

/-- One request to a state that serves it. -/
def entry (serve : σ → Request → ρ × σ) (s : σ) (r : Request) : Entry ρ σ :=
  ⟨r, (serve s r).1, (serve s r).2⟩

/-- Requests one after another, each to the state that the one before led to. -/
def history (serve : σ → Request → ρ × σ) : σ → List Request → List (Entry ρ σ)
  | _, [] => []
  | s, r :: rest => entry serve s r :: history serve (serve s r).2 rest

/-- The state that requests lead to in the end. -/
def after (serve : σ → Request → ρ × σ) : σ → List Request → σ
  | s, [] => s
  | s, r :: rest => after serve (serve s r).2 rest

section Simulation

variable {serve : σ → Request → ρ × σ} {serve' : σ' → Request → ρ' × σ'}
variable {f : ρ → ρ'} {g : σ → σ'} (h : ∀ s r, Prod.map f g (serve s r) = serve' (g s) r)
include h

/-- A view that commutes with every request commutes with every sequence of them. -/
theorem map_history (s : σ) (requests : List Request) :
    (history serve s requests).map (Entry.map f g) = history serve' (g s) requests := by
  induction requests generalizing s with
  | nil => rfl
  | cons r rest ih =>
    have hentry : (entry serve s r).map f g = entry serve' (g s) r := by
      rw [entry, entry, ← h]
      rfl
    have hstate : g (serve s r).2 = (serve' (g s) r).2 := by rw [← h, Prod.map_snd]
    rw [history, history, List.map_cons, ih, hentry, hstate]

theorem map_after (s : σ) (requests : List Request) :
    g (after serve s requests) = after serve' (g s) requests := by
  induction requests generalizing s with
  | nil => rfl
  | cons r rest ih =>
    have hstate : g (serve s r).2 = (serve' (g s) r).2 := by rw [← h, Prod.map_snd]
    rw [after, after, ih, hstate]

end Simulation
end Request

/-! ## Lists -/

namespace Lifo

/-- How a list with the top at its head serves a request. A push is answered without a value; a read
that finds no value is refused, and changes nothing. -/
def serve (l : List Value) : Request → Option (Option Value) × List Value
  | .push v => (some none, v :: l)
  | .pop => (l.head?.map some, l.tail)
  | .top => (l.head?.map some, l)
  | .peek i => (l[i.toNat]?.map some, l)

theorem after_pops (l : List Value) (n : Nat) :
    Request.after serve l (List.replicate n .pop) = l.drop n := by
  induction n generalizing l with
  | zero => rfl
  | succ n ih =>
    rw [List.replicate_succ, Request.after, ih, ← List.drop_tail]
    rfl

/-- What lies at the bottom stays there, unless the list becomes shorter than it. -/
theorem suffix_serve {base l : List Value} {r : Request} (h : base <:+ l)
    (hlength : base.length ≤ (serve l r).2.length) : base <:+ (serve l r).2 := by
  cases r with
  | push v => exact h.trans (List.suffix_cons v l)
  | pop =>
    cases l with
    | nil => exact h
    | cons v rest =>
      -- a pop reaches into the base only if there is nothing on it, and then it is cut short
      rcases List.suffix_cons_iff.mp h with rfl | hrest
      · exact absurd hlength (Nat.not_succ_le_self _)
      · exact hrest
  | top => exact h
  | peek i => exact h

theorem suffix_after {base l : List Value} {requests : List Request} (h : base <:+ l)
    (hlength : ∀ e ∈ Request.history serve l requests, base.length ≤ e.state.length) :
    base <:+ Request.after serve l requests := by
  induction requests generalizing l with
  | nil => exact h
  | cons r rest ih =>
    obtain ⟨hfirst, hrest⟩ := List.forall_mem_cons.mp hlength
    exact ih (suffix_serve h hfirst) hrest

end Lifo

/-! ## Stacks -/

/-- The answer of a stack: a value if one was asked for, and an error if there was none. -/
abbrev Answer := Except Error (Option Value)

/-- How a stack serves a request. A pop that fails makes no other stack, so the old one remains. -/
def serve (s : Stack) : Request → Answer × Stack
  | .push v => (.ok none, s.push v)
  | .pop =>
    match s.pop with
    | .ok (v, rest) => (.ok (some v), rest)
    | .error e => (.error e, s)
  | .top => (s.top.map some, s)
  | .peek i => ((s.peek i).map some, s)

/-- Requests to a stack, one after another. -/
abbrev history (s : Stack) (requests : List Request) : List (Request.Entry Answer Stack) :=
  Request.history serve s requests

/-- The stack that requests lead to. -/
abbrev after (s : Stack) (requests : List Request) : Stack := Request.after serve s requests

theorem toOption_peek (s : Stack) (i : UInt64) :
    (s.peek i).toOption = s.toTopFirst[i.toNat]? := by
  rw [peek_eq]
  cases s.toTopFirst[i.toNat]? with
  | none => rfl
  | some v => rfl

theorem toOption_map_some (read : Except Error Value) :
    (read.map some).toOption = read.toOption.map some := by
  cases read with
  | error e => rfl
  | ok v => rfl

/-- **A request is served as by the list**, with the same answer and the same contents. -/
theorem map_serve (s : Stack) (r : Request) :
    Prod.map Except.toOption toTopFirst (s.serve r) = Lifo.serve s.toTopFirst r := by
  cases r with
  | push v =>
    rw [serve, Lifo.serve, Prod.map_apply, toTopFirst_push]
    rfl
  | pop =>
    rcases s.eq_empty_or_push with rfl | ⟨t, v, rfl⟩
    · rfl
    · rw [serve, Lifo.serve, pop_push, toTopFirst_push, Prod.map_apply]
      rfl
  | top =>
    rw [serve, Lifo.serve, Prod.map_apply, toOption_map_some, top, toOption_peek,
      List.head?_eq_getElem?]
    rfl
  | peek i => rw [serve, Lifo.serve, Prod.map_apply, toOption_map_some, toOption_peek]

theorem toTopFirst_after (s : Stack) (requests : List Request) :
    (s.after requests).toTopFirst = Request.after Lifo.serve s.toTopFirst requests :=
  Request.map_after map_serve s requests

/-! ## Positions and pops -/

theorem exists_peek_iff (s : Stack) (i : UInt64) :
    (∃ v, s.peek i = .ok v) ↔ i.toNat < s.depth := by
  refine ⟨fun ⟨v, hv⟩ => Nat.lt_of_not_le fun hle => ?_, exists_peek_of_lt⟩
  rw [peek_eq_error_iff.mpr ⟨hle, rfl⟩] at hv
  cases hv

theorem peek_eq_ok_iff {s : Stack} {i : UInt64} {v : Value} :
    s.peek i = .ok v ↔ s.toTopFirst[i.toNat]? = some v := by
  rw [← toOption_peek]
  cases s.peek i with
  | error e => exact ⟨nofun, nofun⟩
  | ok w => exact ⟨fun h => by cases h; rfl, fun h => by cases h; rfl⟩

theorem exists_pop_iff {s : Stack} {v : Value} :
    (∃ t, s.pop = .ok (v, t)) ↔ s.toTopFirst.head? = some v := by
  rcases s.eq_empty_or_push with rfl | ⟨t, w, rfl⟩
  · simp
  · simp

/-- A position is a number of pops: the value there is what the next pop gives. -/
theorem peek_eq_ok_iff_pop (s : Stack) (i : UInt64) (v : Value) :
    s.peek i = .ok v ↔ ∃ t, (s.after (List.replicate i.toNat .pop)).pop = .ok (v, t) := by
  rw [exists_pop_iff, toTopFirst_after, Lifo.after_pops, List.head?_drop, peek_eq_ok_iff]

/-! ## Failures -/

theorem kind_of_map_peek {s : Stack} {i : UInt64} {e : Error}
    (h : (s.peek i).map some = .error e) : e.kind = .stackUnderflow := by
  cases hread : s.peek i with
  | ok v =>
    rw [hread] at h
    cases h
  | error e' =>
    rw [hread] at h
    cases h
    exact kind_of_peek hread

/-- Requests fail for want of values only, and change nothing then. -/
theorem serve_of_error {s : Stack} {r : Request} {e : Error} (h : (s.serve r).1 = .error e) :
    e.kind = .stackUnderflow ∧ (s.serve r).2 = s := by
  cases r with
  | push v => cases h
  | pop =>
    rcases s.eq_empty_or_push with rfl | ⟨t, v, rfl⟩
    · cases h
      exact ⟨rfl, rfl⟩
    · rw [serve, pop_push] at h
      cases h
  | top => exact ⟨kind_of_map_peek h, rfl⟩
  | peek i => exact ⟨kind_of_map_peek h, rfl⟩

/-! ## Depths -/

namespace Request.Entry

/-- A value was pushed. -/
def pushed (e : Entry Answer Stack) : Bool := e.request matches .push _

/-- A value was popped. -/
def popped (e : Entry Answer Stack) : Bool := e.request == .pop && e.answer.isOk

end Request.Entry

theorem depth_serve (s : Stack) (r : Request) :
    (s.serve r).2.depth + (if (Request.entry serve s r).popped then 1 else 0)
      = s.depth + (if (Request.entry serve s r).pushed then 1 else 0) := by
  cases r with
  | push v => exact depth_push s v
  | pop =>
    rcases s.eq_empty_or_push with rfl | ⟨t, v, rfl⟩
    · rfl
    · simp [Request.entry, Request.Entry.popped, Request.Entry.pushed, serve, Except.isOk,
        Except.toBool]
  | top => rfl
  | peek i => rfl

/-- Pushes and pops are all that counts for the depth, and of the pops those that succeed. -/
theorem depth_after (s : Stack) (requests : List Request) :
    (s.after requests).depth + (s.history requests).countP Request.Entry.popped
      = s.depth + (s.history requests).countP Request.Entry.pushed := by
  induction requests generalizing s with
  | nil => rfl
  | cons r rest ih =>
    have hstep := depth_serve s r
    have hrest := ih (s.serve r).2
    simp only [after, history, Request.after, Request.history, List.countP_cons] at hrest ⊢
    omega

/-- What was there at first is there in the end, below everything that was pushed since. -/
theorem suffix_after {s : Stack} {requests : List Request}
    (h : ∀ e ∈ s.history requests, s.depth ≤ e.state.depth) :
    s.toTopFirst <:+ (s.after requests).toTopFirst := by
  rw [toTopFirst_after]
  refine Lifo.suffix_after (List.suffix_refl _) ?_
  rw [← Request.map_history map_serve]
  intro e he
  obtain ⟨e', he', rfl⟩ := List.mem_map.mp he
  rw [Request.Entry.map, length_toTopFirst, length_toTopFirst]
  exact h e' he'

theorem after_eq_self {s : Stack} {requests : List Request}
    (h : ∀ e ∈ s.history requests, s.depth ≤ e.state.depth)
    (hdepth : (s.after requests).depth = s.depth) : s.after requests = s := by
  rw [← length_toTopFirst, ← length_toTopFirst] at hdepth
  exact ext_toTopFirst ((suffix_after h).eq_of_length hdepth.symm).symm

/-- **A stack is a list with the top at its head.** From any contents, every sequence of requests is
answered as by that list and leads to its contents, request by request. Wherever it has led, a
position has a value if and only if it is above the bottom, and it is the value that is popped after
as many pops; the top is at position zero; a request that fails is an underflow and changes nothing;
and the depth is what it was at first, with the values that were pushed and without those that were
popped. Where the depth never was less than at first and is the same again, so are the contents. -/
theorem serves_as_list (s : Stack) (requests : List Request) :
    (s.history requests).map (Request.Entry.map Except.toOption toTopFirst)
      = Request.history Lifo.serve s.toTopFirst requests ∧
    (s.after requests).toTopFirst = Request.after Lifo.serve s.toTopFirst requests ∧
    (∀ i, (∃ v, (s.after requests).peek i = .ok v) ↔ i.toNat < (s.after requests).depth) ∧
    (∀ i v, (s.after requests).peek i = .ok v ↔
      ∃ t, ((s.after requests).after (List.replicate i.toNat .pop)).pop = .ok (v, t)) ∧
    (s.after requests).top = (s.after requests).peek 0 ∧
    (∀ r e, ((s.after requests).serve r).1 = .error e →
      e.kind = .stackUnderflow ∧ ((s.after requests).serve r).2 = s.after requests) ∧
    (s.after requests).depth + (s.history requests).countP Request.Entry.popped
      = s.depth + (s.history requests).countP Request.Entry.pushed ∧
    ((∀ e ∈ s.history requests, s.depth ≤ e.state.depth) →
      (s.after requests).depth = s.depth → s.after requests = s) := by
  refine ⟨Request.map_history map_serve s requests, s.toTopFirst_after requests,
    exists_peek_iff _, peek_eq_ok_iff_pop _, rfl, ?_, s.depth_after requests, after_eq_self⟩
  intro r e h
  exact serve_of_error h

/-- A word comes and goes while positions are read, the last one that a machine word can name
included; then a pop too many is refused. -/
theorem serves_as_list_visit :
    (ofList [.string [0x61]]).after [.push (.word [0x62]), .peek 0xffffffffffffffff, .peek 1, .pop]
      = ofList [.string [0x61]] ∧
    ∃ e, (((ofList [.string [0x61]]).after [.pop]).serve .pop).1 = .error e ∧
      e.kind = .stackUnderflow ∧
      (((ofList [.string [0x61]]).after [.pop]).serve .pop).2
        = (ofList [.string [0x61]]).after [.pop] := by
  obtain ⟨-, -, -, -, -, -, -, hvisit⟩ := serves_as_list (ofList [.string [0x61]])
    [.push (.word [0x62]), .peek 0xffffffffffffffff, .peek 1, .pop]
  obtain ⟨-, -, -, -, -, hfailure, -⟩ := serves_as_list (ofList [.string [0x61]]) [.pop]
  exact ⟨hvisit (by decide) (by decide), .stackUnderflow 1 0, rfl, hfailure .pop _ rfl⟩

end Stack
end WordMachine

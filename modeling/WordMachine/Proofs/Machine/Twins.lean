import WordMachine.Proofs.Machine.Bindings
import WordMachine.Proofs.Script.Body

/-!
# When a primitive was made does not matter

Every load makes the standard words anew, and primitives made at different times are different
values. But what one does is settled by its name and its word, and **a run never compares
primitives; it applies them**. So environments that bind the same words to the same values, or to
primitives that differ in nothing but when they were made, cannot be told apart by running programs
(`run_twins`).

Nor can operations of the host tell them apart, although these may run programs of their own in the
very environments that differ: hosts of two worlds with such environments are equal, level by level
of nesting (`hostOf_twins`).
-/

set_option autoImplicit false

namespace WordMachine

/-- One value, or primitives of one name for one standard word, whenever they were made. -/
inductive Value.Twins : Value → Value → Prop
  | refl {v : Value} : Twins v v
  | standard {name : Text} {word : StandardWord} {i j : Nat} :
      Twins (.primitive ⟨name, .standard word i⟩) (.primitive ⟨name, .standard word j⟩)

/-- Environments that bind the same words, and to twins. -/
def Environment.Twins (a b : Environment) : Prop :=
  ∀ key, Option.Rel Value.Twins (a.find? key) (b.find? key)

theorem Environment.Twins.refl (e : Environment) : e.Twins e := by
  intro key
  cases e.find? key with
  | none => exact .none
  | some v => exact .some .refl

namespace Machine

variable {a b : Environment} {host : Host}

theorem execute_twins {u v : Value} (h : u.Twins v) (s : Stack) :
    (Machine.mk a host).execute u s = (Machine.mk b host).execute v s := by
  cases h with
  | refl => cases u <;> rfl
  | standard => rfl

theorem step_twins (h : a.Twins b) (instruction : Value) (s : Stack) :
    (Machine.mk a host).step instruction s = (Machine.mk b host).step instruction s := by
  cases instruction with
  | word symbol =>
    have hsymbol := h symbol
    generalize ha : a.find? symbol = x at hsymbol
    generalize hb : b.find? symbol = y at hsymbol
    cases hsymbol with
    | none => rw [step_of_unbound ha, step_of_unbound hb]
    | some huv =>
      rw [step_of_denotes (.bound ha), step_of_denotes (.bound hb)]
      exact execute_twins huv s
  | number x => rfl
  | string content => rfl
  | primitive p => rfl

/-- Environments that differ in when their primitives were made run programs alike. -/
theorem run_twins (h : a.Twins b) (host : Host) (p : Program) (pc : Nat) (s : Stack) :
    (Machine.mk a host).run p pc s = (Machine.mk b host).run p pc s := by
  rw [← observe_snd, ← observe_snd, observe, observe,
    observeList_congr (fun i _ s => step_twins h i s)]

end Machine

/-! ## Hosts -/

/-- The world in which a name stands for the given environment. -/
def World.setEnvironment (w : World) (name : Text) (e : Environment) : World :=
  { w with environments := fun other => if other = name then e else w.environments other }

/-- Worlds that differ in nothing but when the primitives of their environments were made. -/
structure World.Twins (w w' : World) : Prop where
  programs : w.programs = w'.programs
  environments : ∀ name, (w.environments name).Twins (w'.environments name)

theorem World.Twins.setEnvironment {a b : Environment} (h : a.Twins b) (w : World) (name : Text) :
    (w.setEnvironment name a).Twins (w.setEnvironment name b) := by
  refine ⟨rfl, ?_⟩
  intro other
  by_cases hother : other = name
  · simpa [World.setEnvironment, hother] using h
  · simpa [World.setEnvironment, hother] using Environment.Twins.refl _

namespace World

variable {w w' : World}

theorem act_twins (h : w.Twins w') (host : Host) (action : Action) (s : Stack) :
    w.act host action s = w'.act host action s := by
  cases action with
  | run environment program =>
    rw [act, act, Machine.run_twins (h.environments environment), h.programs]
  | _ => rfl

theorem perform_twins (h : w.Twins w') (host : Host) (body : Body) (s : Stack) :
    body.perform w host s = body.perform w' host s := by
  induction body generalizing s with
  | finish => rfl
  | look choose ih => exact ih s s
  | act action next ih =>
    rw [Body.perform, Body.perform, act_twins h]
    exact congrArg _ (funext ih)
  | attempt action next otherwise ihn iho =>
    rw [Body.perform, Body.perform, act_twins h]
    cases w'.act host action s with
    | done s' => exact ihn s'
    | failed e => exact iho e s
    | aborted r => rfl

/-- Their hosts are equal, however deep operations are nested in runs and runs in operations. -/
theorem hostOf_twins (h : w.Twins w') (bodies : Nat → Body) (allowance : Nat) :
    w.hostOf bodies allowance = w'.hostOf bodies allowance := by
  induction allowance with
  | zero => rfl
  | succ allowance ih =>
    funext handle s
    rw [hostOf, hostOf, ih]
    exact perform_twins h _ (bodies handle) s

end World
end WordMachine

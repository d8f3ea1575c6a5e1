import WordMachine.Script

/-!
# Bodies of hosted operations

A script carries out its actions one after the other and looks at nothing. An operation of the host
need not be so plain: it may look at the stack before it decides what to do next, and it may make
provision for an action that fails. A `Body` is an operation that does this, with the actions of
scripts for its steps. **Scripts are the bodies that do neither** (`hostOf_scripts`), so whatever
holds for every choice of bodies holds for the host of a world.

A body fails where it comes to an action whose failure it does not provide for, and that action
fails (`perform_eq_failed_iff`).
-/

set_option autoImplicit false

namespace WordMachine

/-- What an operation of the host does. -/
inductive Body where
  /-- Hands back the stack. -/
  | finish
  /-- Goes on as the stack tells. -/
  | look (choose : Stack → Body)
  /-- Acts and goes on; a failure is passed on. -/
  | act (action : Action) (next : Body)
  /-- Acts and goes on; after a failure, with the stack as it was, goes on as the error tells. -/
  | attempt (action : Action) (next : Body) (otherwise : Error → Body)

namespace Body

/-- Carries out a body; primitives and programs that it calls are left to `host`. -/
def perform (w : World) (host : Host) : Body → Stack → Outcome Error Stack
  | .finish, s => .done s
  | .look choose, s => (choose s).perform w host s
  | .act action next, s => (w.act host action s).bind (next.perform w host)
  | .attempt action next otherwise, s =>
    match w.act host action s with
    | .done s' => next.perform w host s'
    | .failed e => (otherwise e).perform w host s
    | .aborted r => .aborted r

/-- The body that carries out a script. -/
def ofScript : Script → Body
  | [] => .finish
  | action :: rest => .act action (ofScript rest)

/-- Carrying out a body from a stack comes to an action with a stack: what was done before has
succeeded, or has failed and was provided for; a failure of this action is not. -/
inductive Reaches (w : World) (host : Host) : Body → Stack → Action → Stack → Prop
  | here {action : Action} {next : Body} {s : Stack} : Reaches w host (.act action next) s action s
  | look {choose : Stack → Body} {s t : Stack} {a : Action} :
      Reaches w host (choose s) s a t → Reaches w host (.look choose) s a t
  | act {action a : Action} {next : Body} {s s' t : Stack} :
      w.act host action s = .done s' → Reaches w host next s' a t →
      Reaches w host (.act action next) s a t
  | attempt {action a : Action} {next : Body} {otherwise : Error → Body} {s s' t : Stack} :
      w.act host action s = .done s' → Reaches w host next s' a t →
      Reaches w host (.attempt action next otherwise) s a t
  | recover {action a : Action} {next : Body} {otherwise : Error → Body} {s t : Stack}
      {e : Error} :
      w.act host action s = .failed e → Reaches w host (otherwise e) s a t →
      Reaches w host (.attempt action next otherwise) s a t

variable {w : World} {host : Host}

theorem perform_ofScript (script : Script) (s : Stack) :
    (ofScript script).perform w host s = w.perform host script s := by
  induction script generalizing s with
  | nil => rfl
  | cons action rest ih =>
    rw [ofScript, perform, World.perform]
    cases w.act host action s with
    | done s' => exact ih s'
    | failed e => rfl
    | aborted r => rfl

theorem perform_eq_failed_of_reaches {body : Body} {s t : Stack} {a : Action} {e : Error}
    (h : Reaches w host body s a t) (he : w.act host a t = .failed e) :
    body.perform w host s = .failed e := by
  induction h with
  | here => rw [perform, he]; rfl
  | look _ ih => exact ih he
  | act hd _ ih => rw [perform, hd]; exact ih he
  | attempt hd _ ih => rw [perform, hd]; exact ih he
  | recover hf _ ih => rw [perform, hf]; exact ih he

/-- A body fails with the error of the action that it came to and did not provide for. -/
theorem perform_eq_failed_iff {body : Body} {s : Stack} {e : Error} :
    body.perform w host s = .failed e ↔
      ∃ a t, Reaches w host body s a t ∧ w.act host a t = .failed e := by
  constructor
  · intro h
    induction body generalizing s with
    | finish => cases h
    | look choose ih =>
      obtain ⟨a, t, hr, he⟩ := ih s h
      exact ⟨a, t, .look hr, he⟩
    | act action next ih =>
      rw [perform] at h
      cases ha : w.act host action s with
      | done s' =>
        rw [ha] at h
        obtain ⟨a, t, hr, he⟩ := ih h
        exact ⟨a, t, .act ha hr, he⟩
      | failed e' =>
        rw [ha] at h
        cases h
        exact ⟨action, s, .here, ha⟩
      | aborted r => rw [ha] at h; cases h
    | attempt action next otherwise ihn iho =>
      rw [perform] at h
      cases ha : w.act host action s with
      | done s' =>
        rw [ha] at h
        obtain ⟨a, t, hr, he⟩ := ihn h
        exact ⟨a, t, .attempt ha hr, he⟩
      | failed e' =>
        rw [ha] at h
        obtain ⟨a, t, hr, he⟩ := iho e' h
        exact ⟨a, t, .recover ha hr, he⟩
      | aborted r => rw [ha] at h; cases h
  · rintro ⟨a, t, hr, he⟩
    exact perform_eq_failed_of_reaches hr he

end Body

namespace World

/-- The host whose operations have the given bodies, nested up to the given allowance. -/
def hostOf (w : World) (bodies : Nat → Body) : Nat → Host
  | 0, _, _ => .aborted .exhausted
  | allowance + 1, handle, s => (bodies handle).perform w (w.hostOf bodies allowance) s

/-- The host of a world is the one whose bodies are its scripts. -/
theorem hostOf_scripts (w : World) (allowance : Nat) :
    w.hostOf (fun handle => .ofScript (w.scripts handle)) allowance = w.host allowance := by
  induction allowance with
  | zero => rfl
  | succ allowance ih =>
    funext handle s
    rw [hostOf, host, ih]
    exact Body.perform_ofScript (w.scripts handle) s

end World
end WordMachine

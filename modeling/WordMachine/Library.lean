import WordMachine.Environment

/-!
# Libraries

A library is a list of builders, applied from left to right. A builder works on the environment it
is handed and names the environment that the next builder is handed; usually the same one, but a
**redirect** goes on with another. Environments are therefore addressed by their place in a `Store`,
and loading a library is a left fold over places and stores.

The store also counts how often standard words were made, because every load makes them anew.
-/

set_option autoImplicit false

namespace WordMachine

/-- A place that holds an environment: one with a name, or the one a build starts from. -/
inductive Place where
  | fresh
  | named (name : Text)
deriving DecidableEq

/-- The environments there are. A place that was never set holds an empty one. -/
structure Store where
  content : Place → Environment
  /-- The serial number of the next standard words. -/
  serial : Nat

namespace Store

/-- The store of empty environments. -/
def empty : Store := ⟨fun _ => .empty, 0⟩

/-- Replaces the environment at a place. -/
def set (s : Store) (place : Place) (e : Environment) : Store :=
  { s with content := fun other => if other = place then e else s.content other }

@[simp] theorem content_set (s : Store) (place : Place) (e : Environment) (other : Place) :
    (s.set place e).content other = if other = place then e else s.content other := rfl

end Store

/-- The standard words come in three groups. -/
inductive WordGroup where
  | arithmetic
  | math
  | stackWords
deriving DecidableEq

/-- The words of a group. -/
def WordGroup.words : WordGroup → List StandardWord
  | .arithmetic => [.add, .subtract, .multiply, .divide]
  | .math => [.sqrt]
  | .stackWords => [.dup, .drop, .swap, .over]

/-- The primitive that a load of the given serial number makes of a standard word. -/
def StandardWord.primitive (w : StandardWord) (serial : Nat) : Primitive :=
  ⟨w.name, .standard w serial⟩

/-- Binds standard words to newly made primitives of their names. -/
def Environment.defineWords (e : Environment) (words : List StandardWord) (serial : Nat) :
    Environment :=
  words.foldl (fun e w => e.define w.name (.primitive (w.primitive serial))) e

/-- One step in the making of an environment. -/
inductive Builder where
  /-- Binds a group of standard words. -/
  | standard (group : WordGroup)
  /-- Binds a word to a value. -/
  | define (key : Text) (value : Value)
  /-- Binds a word to what another one is bound to, if it is. -/
  | copy (source target : Text)
  /-- Goes on with a named environment. -/
  | redirect (name : Text)
deriving DecidableEq

/-- Applies a builder at a place: the place to go on with, and the store afterwards. -/
def Builder.apply (b : Builder) (place : Place) (s : Store) : Place × Store :=
  match b with
  | .standard group =>
    (place, { s.set place ((s.content place).defineWords group.words s.serial) with
      serial := s.serial + 1 })
  | .define key value => (place, s.set place ((s.content place).define key value))
  | .copy source target =>
    match (s.content place).find? source with
    | some value => (place, s.set place ((s.content place).define target value))
    | none => (place, s)
  | .redirect name => (.named name, s)

/-- An ordered list of builders. -/
structure Library where
  builders : List Builder
deriving DecidableEq

namespace Library

/-- The library without builders. -/
def empty : Library := ⟨[]⟩

/-- The library of all standard words. -/
def standard : Library := ⟨[.standard .arithmetic, .standard .math, .standard .stackWords]⟩

/-- A library with one more builder at its end. -/
def extend (l : Library) (b : Builder) : Library := ⟨l.builders ++ [b]⟩

/-- How many builders a library has. -/
def size (l : Library) : Nat := l.builders.length

/-- Loads a library into the environment at a place: the place that its last builder leaves, and
the store afterwards. -/
def load (l : Library) (place : Place) (s : Store) : Place × Store :=
  l.builders.foldl (fun (place, s) b => b.apply place s) (place, s)

/-- Builds an environment, starting from a fresh one: the content of the place that the last builder
leaves, and the store afterwards. -/
def build (l : Library) (s : Store) : Environment × Store :=
  let (place, s) := l.load .fresh (s.set .fresh .empty)
  (s.content place, s)

/-- Loading two libraries one after the other is loading their builders in one. -/
theorem load_append (first second : List Builder) (place : Place) (s : Store) :
    (Library.mk (first ++ second)).load place s
      = (Library.mk second).load ((Library.mk first).load place s).1
          ((Library.mk first).load place s).2 := by
  simp [load]

end Library

/-- The environment of all standard words, made from a store without history. -/
def Environment.standard : Environment := (Library.standard.build .empty).1

end WordMachine

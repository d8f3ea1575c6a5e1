import WordMachine.Binary64.Printer
import WordMachine.Error
import WordMachine.Operation
import WordMachine.Outcome
import WordMachine.Text.Quoted

/-!
# Values

The same values serve as the instructions of a program and as the data on its stack: numbers,
strings, words still to be looked up, and primitives. A value is shown as its tag with its payload
in parentheses, `number(3)` or `string("a\nb")`.
-/

set_option autoImplicit false

namespace WordMachine

/-- An operation under a name. -/
structure Primitive where
  name : Text
  operation : Operation
deriving DecidableEq

/-- A value of the machine. -/
inductive Value where
  | number (x : Binary64)
  | string (content : Text)
  | word (symbol : Text)
  | primitive (p : Primitive)
deriving DecidableEq

/-- The four kinds of value. -/
inductive Tag where
  | number
  | string
  | word
  | primitive
deriving DecidableEq

/-- The name of a kind of value. -/
def Tag.name : Tag → Text
  | .number => Text.ofString "number"
  | .string => Text.ofString "string"
  | .word => Text.ofString "word"
  | .primitive => Text.ofString "prim"

/-- A primitive needs an operation. -/
def Primitive.make (name : Text) : Option Operation → Except Misuse Primitive
  | some operation => .ok ⟨name, operation⟩
  | none => .error (.missingOperation name)

namespace Value

/-- The kind of a value. -/
def tag : Value → Tag
  | .number _ => .number
  | .string _ => .string
  | .word _ => .word
  | .primitive _ => .primitive

/-- The number that a value is. -/
def asNumber : Value → Except Misuse Binary64
  | .number x => .ok x
  | _ => .error .wrongTag

/-- The content of the string that a value is. -/
def asString : Value → Except Misuse Text
  | .string content => .ok content
  | _ => .error .wrongTag

/-- The symbol of the word that a value is. -/
def asWord : Value → Except Misuse Text
  | .word symbol => .ok symbol
  | _ => .error .wrongTag

/-- The primitive that a value is. -/
def asPrimitive : Value → Except Misuse Primitive
  | .primitive p => .ok p
  | _ => .error .wrongTag

/-- The payload as it would be written: strings are quoted, words and primitives show their name. -/
def payloadText : Value → Text
  | .number x => x.bufferedText
  | .string content => Text.Quoted.encode content
  | .word symbol => symbol
  | .primitive p => p.name

/-- A value as text, the tag around the payload. -/
def text (v : Value) : Text :=
  v.tag.name ++ Text.ofString "(" ++ v.payloadText ++ Text.ofString ")"

/-- Values are compared by tag and payload: numbers as numbers, texts byte for byte, and primitives
by their operation alone, whatever they are called. -/
def agrees : Value → Value → Bool
  | .number x, .number y => x.agrees y
  | .string s, .string t => s == t
  | .word s, .word t => s == t
  | .primitive p, .primitive q => p.operation == q.operation
  | _, _ => false

end Value
end WordMachine

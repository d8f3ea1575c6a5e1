import WordMachine.Text

/-!
# Templates

A message with a hole: `%s` marks where the argument goes, and `%%` is a percent sign.
-/

set_option autoImplicit false

namespace WordMachine
namespace Text

/-- A template with its holes filled. -/
def fill (argument : Text) : Text → Text
  | [] => []
  | [b] => [b]
  | b :: c :: rest =>
    if b = 0x25 ∧ c = 0x73 then argument ++ fill argument rest
    else if b = 0x25 ∧ c = 0x25 then b :: fill argument rest
    else b :: fill argument (c :: rest)

end Text
end WordMachine

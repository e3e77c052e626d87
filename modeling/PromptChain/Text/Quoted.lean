import PromptChain.Text.Concealed

/-!
# Text quoted for a message

A message quotes the text it complains about between double quotes, so that the text stays on one
line and every character shows: quotes, backslashes and concealed characters are escaped.
-/

set_option autoImplicit false

namespace PromptChain.Text

/-- The hexadecimal digits of a natural number, in lower case. -/
def hexText (n : Nat) : List Char := Nat.toDigits 16 n

def quotedChar (c : Char) : List Char :=
  match c with
  | '\x00' => ['\\', '0']
  | '\t' => ['\\', 't']
  | '\n' => ['\\', 'n']
  | '\r' => ['\\', 'r']
  | '"' => ['\\', '"']
  | '\\' => ['\\', '\\']
  | c => if isConcealed c then ['\\', 'u', '\x7b'] ++ hexText c.toNat ++ ['\x7d'] else [c]

def quoted (s : String) : String := String.ofList ('"' :: s.toList.flatMap quotedChar ++ ['"'])

example : quoted "it's \"é\"\n" = "\"it's \\\"é\\\"\\n\"" := by decide +kernel
example : quoted "a\u0301" = "\"a\\u\x7b301\x7d\"" := by decide +kernel

end PromptChain.Text

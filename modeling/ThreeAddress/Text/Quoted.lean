import ThreeAddress.Text.Visible
/-!
# Quoted text

A text is written between double quotes. Quotes, backslashes and the common controls have a short escape, every other
concealed character is written by its code point, and all else stands for itself.
-/
namespace ThreeAddress.Text

def escape (c : Char) : List Char :=
  match c with
  | '\x00' => ['\\', '0']
  | '\t' => ['\\', 't']
  | '\n' => ['\\', 'n']
  | '\r' => ['\\', 'r']
  | '"' => ['\\', '"']
  | '\\' => ['\\', '\\']
  | _ => if isConcealed c then '\\' :: 'u' :: '\x7b' :: (Nat.toDigits 16 c.toNat ++ ['\x7d']) else [c]

def quote (s : String) : String := String.ofList ('"' :: (s.toList.flatMap escape ++ ['"']))

end ThreeAddress.Text

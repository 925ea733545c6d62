import Lox.Text.Unprinted

/-! File names in messages.

A name stands in double quotes. Quotes and backslashes are escaped by a backslash, line ends, tabs
and the null character by a letter, and whatever leaves no mark of its own on paper by its code
point. -/

namespace Lox

def pathChar (c : Char) : List Char :=
  match c with
  | '"' => ['\\', '"']
  | '\'' => ['\\', '\'']
  | '\\' => ['\\', '\\']
  | '\n' => ['\\', 'n']
  | '\r' => ['\\', 'r']
  | '\t' => ['\\', 't']
  | '\x00' => ['\\', '0']
  | c => if isUnprinted c then '\\' :: 'u' :: '\x7b' :: Nat.toDigits 16 c.toNat ++ ['\x7d'] else [c]

def quotedPath (path : String) : String :=
  String.ofList ('"' :: path.toList.flatMap pathChar ++ ['"'])

end Lox

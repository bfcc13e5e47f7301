import PathForms.Text.Visible

/-!
# Quoted text

Text between double quotes. A quote and a backslash are written behind a backslash, some controls
as a backslash and a letter, and every other hidden character by its number; all visible
characters, single quotes among them, stand for themselves.
-/

set_option autoImplicit false

namespace PathForms.Text

def backslash : Char := '\\'

def shortEscape? : Char → Option Char
  | '\x00' => some '0'
  | '\t' => some 't'
  | '\n' => some 'n'
  | '\r' => some 'r'
  | '"' => some '"'
  | '\\' => some '\\'
  | _ => none

def numericEscape (c : Char) : List Char :=
  [backslash, 'u', '\x7b'] ++ Nat.toDigits 16 c.toNat ++ ['\x7d']

def quotedChar (c : Char) : List Char :=
  match shortEscape? c with
  | some letter => [backslash, letter]
  | none => if isVisible c then [c] else numericEscape c

def quoted (text : List Char) : List Char := '"' :: text.flatMap quotedChar ++ ['"']

end PathForms.Text

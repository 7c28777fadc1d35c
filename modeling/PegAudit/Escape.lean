namespace PegAudit

/-!
# Escaping control characters

Source text is shown on one line.  Five control characters have a letter of
their own after a backslash; the others are written as `\u` and four
hexadecimal digits.  All other characters stand for themselves.
-/

namespace Escape

/-- Control characters: those below U+0020 and U+007F to U+009F. -/
def isControl
    (character : Char) :
    Bool :=
  character.toNat < 0x20 ||
    (0x7f ≤ character.toNat && character.toNat ≤ 0x9f)

/-- Four hexadecimal digits, lower case. -/
def fourHexDigits
    (code : Nat) :
    List Char :=
  [Nat.digitChar (code / 4096 % 16),
    Nat.digitChar (code / 256 % 16),
    Nat.digitChar (code / 16 % 16),
    Nat.digitChar (code % 16)]

/-- One character as it is shown in source text. -/
def character
    (shown : Char) :
    List Char :=
  if shown = '\n' then
    ['\\', 'n']
  else if shown = '\r' then
    ['\\', 'r']
  else if shown = '\t' then
    ['\\', 't']
  else if shown = '\x08' then
    ['\\', 'b']
  else if shown = '\x0c' then
    ['\\', 'f']
  else if isControl shown then
    '\\' :: 'u' :: fourHexDigits shown.toNat
  else
    [shown]

/-- A text as it is shown in source text. -/
def text
    (shown : String) :
    String :=
  String.ofList (shown.toList.flatMap character)

/-- Every shown form has at least one character. -/
theorem character_ne_nil
    (shown : Char) :
    character shown ≠ [] := by
  unfold character
  repeat' split
  all_goals simp

/-- A character that is not a control character is shown as itself. -/
theorem character_of_not_isControl
    {shown : Char}
    (plain : isControl shown = false) :
    character shown = [shown] := by
  have notControl
      (control : Char)
      (isOne : isControl control = true) :
      shown ≠ control := by
    rintro rfl
    simp [isOne] at plain
  simp [character, plain, notControl '\n' (by decide),
    notControl '\r' (by decide), notControl '\t' (by decide),
    notControl '\x08' (by decide), notControl '\x0c' (by decide)]

end Escape

end PegAudit

import StackTape.Yaml.Token.Comment

/-!
# Between tokens

Blanks, line breaks and comments. A byte order mark in front of what was decoded last makes every
line lose its first character until more is decoded; in a document that starts with one mark it does
not stand there, because that one shows the encoding.
-/

namespace StackTape.Yaml.Read

/-- Steps over everything before the next token; the search began at `before`. At the start of a
line one character is dropped if a byte order mark stood in front when the line was decoded. Tabs
count as blanks only where no key may start. A line break outside flow collections allows a key
again. -/
def skipBetween (before : Mark) : (fuel : Nat) → Read Unit
  | 0 => return
  | fuel + 1 => do
    need 1
    if (← here).column = 0 ∧ (← get).markInFront then
      skip
    need 1
    let inFlow := 0 < (← flowLevel)
    let tabs := inFlow || !(← get).keyAllowed
    skipWhile fun c => c == ' ' || (tabs && c == '\t')
    moveComment
    if (← peek) == '#' then
      skipComments before
    if isBreak (← peek) then
      need 2
      skipBreak
      if !inFlow then
        modify fun c => { c with keyAllowed := true }
      skipBetween before fuel

end StackTape.Yaml.Read

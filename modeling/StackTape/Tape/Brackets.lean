import StackTape.Tape.Block

/-!
# Matching brackets

The partner of every loop bracket of a code text, found in one pass with a stack of the loops that
are still open. A text whose brackets do not match is refused at one position: the first bracket
that ends no loop, else the last one whose loop never ends.
-/

namespace StackTape

/-- The partner of the bracket at each position; none for all other bytes. -/
abbrev JumpTable := Array (Option Nat)

namespace JumpTable

/-- Joins the brackets at two positions. -/
def link (t : JumpTable) (i j : Nat) : JumpTable :=
  (t.setIfInBounds i (some j)).setIfInBounds j (some i)

def partner? (t : JumpTable) (i : Nat) : Option Nat := t[i]?.join

/-- Matches the brackets of the text from position `pos` on, where `opened` holds the positions of
the open loops, the innermost first. The error is the position of an unmatched bracket. -/
def matchFrom : (pos : Nat) → (opened : List Nat) → JumpTable → Bytes → Except Nat JumpTable
  | _, [], t, [] => .ok t
  | _, i :: _, _, [] => .error i
  | pos, opened, t, b :: bs =>
    match Symbol.ofByte? b with
    | some .enter => matchFrom (pos + 1) (pos :: opened) t bs
    | some .leave =>
      match opened with
      | [] => .error pos
      | i :: rest => matchFrom (pos + 1) rest (t.link i pos) bs
    | _ => matchFrom (pos + 1) opened t bs

/-- The table of a code text, or the position of an unmatched bracket. -/
def ofCode (code : Bytes) : Except Nat JumpTable :=
  matchFrom 0 [] (Array.replicate code.length none) code

end JumpTable

end StackTape

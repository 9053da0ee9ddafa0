import StackTape.Tape.Block
import StackTape.Text.Word

/-!
# Code fragments

Small blocks with a stated effect on the tape. Distances and counts are integers; one that is not
positive gives no symbols at all. A fragment leaves the pointer where its comment says.
-/

namespace StackTape

namespace Fragment

def times (n : Int) (a : Act) : Block := List.replicate n.toNat (.act a)

def left (n : Int) : Block := times n .left

def right (n : Int) : Block := times n .right

/-- Adds `n` to the current cell. -/
def number (n : Int) : Block := times n .inc

/-- Takes `n` from the current cell. -/
def lessen (n : Int) : Block := times n .dec

def inc : Block := [.act .inc]

def dec : Block := [.act .dec]

def put : Block := [.act .put]

def take : Block := [.act .take]

def loop (body : Block) : Block := [.loop body]

def clear : Block := loop dec

/-! ## Moving values -/

/-- Clears the cell `n` to the left and moves the current value there. The pointer ends on the
source cell, which is zero then. -/
def moveLeft (n : Int) : Block :=
  left n ++ clear ++ right n ++ loop (left n ++ inc ++ right n ++ dec)

/-- Moves the value of the cell `n` to the left into the current cell. The pointer ends on the
current cell. -/
def moveRight (n : Int) : Block :=
  clear ++ left n ++ loop (right n ++ inc ++ left n ++ dec) ++ right n

/-- Copies the value of the cell `n` to the left into the current cell. The cell to the right of
the current one is scratch: it should be zero before and is zero after. The pointer ends on the
current cell. -/
def copyRight (n : Int) : Block :=
  clear ++ left n ++ loop (right n ++ inc ++ right 1 ++ inc ++ left 1 ++ left n ++ dec) ++
    right (n + 1) ++ loop (left (n + 1) ++ inc ++ right (n + 1) ++ dec) ++ left 1

/-! ## Writing texts -/

/-- Writes the text byte by byte, each one built in the next cell. The cells should be zero. -/
def encodeString (s : Bytes) : Block := s.flatMap fun b => number b.toNat ++ put ++ right 1

/-- Writes the text by way of the current cell, which should be zero and is zero after. -/
def print (s : Bytes) : Block := s.flatMap fun b => number b.toNat ++ put ++ clear

/-! ## Stack operations

The stack grows to the right; the pointer is on its top and all cells above are zero. -/

/-- Pushes a second copy of the top. -/
def copy : Block :=
  loop (right 1 ++ inc ++ right 1 ++ inc ++ left 2 ++ dec) ++ right 2 ++
    loop (left 2 ++ inc ++ right 2 ++ dec) ++ left 1

/-- Adds the top into the cell below and drops it. -/
def add : Block := loop (left 1 ++ inc ++ right 1 ++ dec) ++ left 1

/-- Takes the top from the cell below and drops it. -/
def sub : Block := loop (left 1 ++ dec ++ right 1 ++ dec) ++ left 1

/-- Multiplies the cell below by the top and drops the top. -/
def mul : Block :=
  left 1 ++ loop (right 2 ++ inc ++ left 2 ++ dec) ++ right 1 ++
    loop (right 1 ++ loop (left 2 ++ inc ++ right 3 ++ inc ++ left 1 ++ dec) ++
      right 1 ++ loop (left 1 ++ inc ++ right 1 ++ dec) ++ left 2 ++ dec) ++
    right 1 ++ clear ++ left 2

/-- Turns the top into one unless it is zero. -/
def bool : Block :=
  loop (clear ++ right 1 ++ inc ++ left 1) ++ right 1 ++
    loop (left 1 ++ inc ++ right 1 ++ dec) ++ left 1

/-- Pushes the next input byte. -/
def read : Block := right 1 ++ take

/-- Writes the top and drops it. -/
def write : Block := put ++ clear ++ left 1

def push (n : Int) : Block := right 1 ++ number n

/-- Pushes the value of the cell `n` below the top. -/
def get (n : Int) : Block := right 1 ++ copyRight (1 + n)

/-- Moves the top into the cell `n` below it and drops it. -/
def set (n : Int) : Block := moveLeft n ++ left 1

/-- Writes a text and leaves the stack as it is. -/
def say (s : Bytes) : Block := right 1 ++ print s ++ left 1

end Fragment

/-! ## Repetition of arbitrary texts -/

inductive RepeatFault
  | negativeCount
  | lengthOverflow
deriving DecidableEq, Repr

def RepeatFault.message : RepeatFault → Bytes
  | .negativeCount => ascii "strings: negative Repeat count"
  | .lengthOverflow => ascii "strings: Repeat output length overflow"

/-- `n` copies of `s`, none for a count below one. The length has to fit a signed 64 bit word. -/
def repeated (n : Int) (s : Bytes) : Except RepeatFault Bytes :=
  if n ≤ 0 ∨ s = [] then .ok []
  else if wordBound ≤ n * s.length then .error .lengthOverflow
  else .ok (copies n.toNat s)

end StackTape

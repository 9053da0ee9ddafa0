import StackTape.Text.Bytes

/-!
# Tape code

The tape machine knows eight symbols. Six act on the current cell, the pointer, the input or the
output; two enclose a loop. Structured code is a `Block`, a tree of actions and loops; its `text`
is the bracketed form that the machine reads. All other bytes in a code text are comments.
-/

namespace StackTape

/-- A symbol that acts once. -/
inductive Act
  /-- Adds one to the current cell. -/
  | inc
  /-- Takes one from the current cell. -/
  | dec
  /-- Moves the pointer one cell down. -/
  | left
  /-- Moves the pointer one cell up. -/
  | right
  /-- Writes the current cell to the output. -/
  | put
  /-- Reads the next input byte into the current cell. -/
  | take
deriving DecidableEq, Repr

/-- One of the eight symbols of the tape machine. -/
inductive Symbol
  | act (a : Act)
  /-- Enters a loop. -/
  | enter
  /-- Ends a loop. -/
  | leave
deriving DecidableEq, Repr

namespace Act

def byte : Act → UInt8
  | .inc => 0x2B
  | .dec => 0x2D
  | .left => 0x3C
  | .right => 0x3E
  | .put => 0x2E
  | .take => 0x2C

/-- The action reads or writes the current cell. -/
def usesCell : Act → Bool
  | .left | .right => false
  | .inc | .dec | .put | .take => true

end Act

namespace Symbol

def byte : Symbol → UInt8
  | .act a => a.byte
  | .enter => 0x5B
  | .leave => 0x5D

/-- The symbol that a byte stands for; none for a comment byte. -/
def ofByte? (b : UInt8) : Option Symbol :=
  if b = 0x2B then some (.act .inc)
  else if b = 0x2D then some (.act .dec)
  else if b = 0x3C then some (.act .left)
  else if b = 0x3E then some (.act .right)
  else if b = 0x5B then some .enter
  else if b = 0x5D then some .leave
  else if b = 0x2E then some (.act .put)
  else if b = 0x2C then some (.act .take)
  else none

/-- Every symbol is read back from its byte. -/
theorem ofByte?_byte (s : Symbol) : ofByte? s.byte = some s := by
  rcases s with a | _ | _
  · cases a <;> rfl
  · rfl
  · rfl

/-- No other byte stands for the same symbol. -/
theorem ofByte?_eq_some_iff {b : UInt8} {s : Symbol} : ofByte? b = some s ↔ b = s.byte := by
  constructor
  · intro h
    unfold ofByte? at h
    repeat' split at h
    all_goals cases h
    all_goals assumption
  · rintro rfl
    exact ofByte?_byte s

end Symbol

/-- The byte is one of the eight symbols. -/
def isPrimitive (b : UInt8) : Bool := (Symbol.ofByte? b).isSome

/-- The code without its comment bytes. -/
def strip (code : Bytes) : Bytes := code.filter isPrimitive

/-- One piece of structured code. -/
inductive Op
  | act (a : Act)
  /-- Runs its body as long as the current cell is not zero. -/
  | loop (body : List Op)

/-- Structured code: a sequence of actions and loops. -/
abbrev Block := List Op

mutual

def Op.text : Op → Bytes
  | .act a => [a.byte]
  | .loop body => Symbol.enter.byte :: (Block.text body ++ [Symbol.leave.byte])

/-- The bracketed text of a block. -/
def Block.text : Block → Bytes
  | [] => []
  | op :: rest => op.text ++ Block.text rest

end

namespace Block

@[simp] theorem text_nil : text [] = [] := by simp [text]

@[simp] theorem text_cons (op : Op) (b : Block) : text (op :: b) = op.text ++ text b := by
  simp [text]

/-- The text of a concatenation is the concatenation of the texts. -/
@[simp] theorem text_append (a b : Block) : text (a ++ b) = text a ++ text b := by
  induction a with
  | nil => simp
  | cons op a ih => simp [ih]

end Block

end StackTape

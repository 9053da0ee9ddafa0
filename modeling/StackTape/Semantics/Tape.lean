import StackTape.Tape.Machine

/-!
# What structured tape code means

Tape code without positions and jumps. A code text whose brackets pair up is read as a `Block`, its
comments left out. `Block.Runs` says what the block does: a loop runs its body as long as the current
cell is not zero, and a run is over as soon as the pointer leaves the tape. A block that runs forever
has no ending.
-/

namespace StackTape

/-- How a run of structured code ends. -/
inductive Ending
  /-- The end of the code was reached. -/
  | done
  /-- The pointer left the tape. -/
  | outOfRange
deriving DecidableEq, Repr

/-- The ending that a verdict stands for; none for a run that was cut off or not started. -/
def Verdict.ending? : Verdict → Option Ending
  | .done => some .done
  | .outOfRange _ _ => some .outOfRange
  | _ => none

namespace Block

/-- Reads code text, where `inner` is the block read so far and `outer` holds the blocks around it that
are still open, the nearest one first. -/
def readFrom : (outer : List Block) → (inner : Block) → Bytes → Option Block
  | [], inner, [] => some inner
  | _ :: _, _, [] => none
  | outer, inner, b :: bs =>
    match Symbol.ofByte? b with
    | none => readFrom outer inner bs
    | some (.act a) => readFrom outer (inner ++ [.act a]) bs
    | some .enter => readFrom (inner :: outer) [] bs
    | some .leave =>
      match outer with
      | [] => none
      | around :: outer => readFrom outer (around ++ [.loop inner]) bs

/-- The block of a code text; none when its brackets do not pair up. -/
def ofCode? (code : Bytes) : Option Block := readFrom [] [] code

/-- The block takes the first store to the second one and ends as given. -/
inductive Runs : Block → Store → Ending → Store → Prop
  | nil {s : Store} : Runs [] s .done s
  | act {a : Act} {rest : Block} {s s' : Store} {e : Ending} :
    (s.act a).inRange = true → Runs rest (s.act a) e s' → Runs (.act a :: rest) s e s'
  /-- The action moves the pointer outside the tape; nothing behind it is run. -/
  | off {a : Act} {rest : Block} {s : Store} :
    (s.act a).inRange = false → Runs (.act a :: rest) s .outOfRange (s.act a)
  | skip {body rest : Block} {s s' : Store} {e : Ending} :
    s.cell = 0 → Runs rest s e s' → Runs (.loop body :: rest) s e s'
  | again {body rest : Block} {s s₁ s' : Store} {e : Ending} :
    s.cell ≠ 0 → Runs body s .done s₁ → Runs (.loop body :: rest) s₁ e s' →
    Runs (.loop body :: rest) s e s'
  /-- The pointer leaves the tape inside the body. -/
  | inside {body rest : Block} {s s' : Store} :
    s.cell ≠ 0 → Runs body s .outOfRange s' → Runs (.loop body :: rest) s .outOfRange s'

/-- The block ends as given, with the given output, tape and pointer. -/
def Yields (b : Block) (s : Store) (e : Ending) (output : Bytes) (tape : Array UInt8) (ptr : Int) : Prop :=
  ∃ s', b.Runs s e s' ∧ s'.output.toList = output ∧ s'.tape = tape ∧ s'.ptr = ptr

end Block

end StackTape

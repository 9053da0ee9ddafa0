import StackTape.Proofs.Locality

/-!
# What fragments do on any tape

The fragments that move values and write texts are shown at work on cells without end (`Runs`). Here they stand alone
as the whole code of a machine, whose tape may hold anything and whose pointer may be anywhere.

`Machine.Finishes` says how a run ends when it has steps enough. It names the whole store at the end, with the input
that is left, and so says of every cell what has become of it. A crossing of the code gives it at once, since the
cells of a machine are those of its stack (`finishes_of_runs`).
-/

namespace StackTape

namespace Machine

/-- Given enough steps, the machine runs the code to its end and is left with the store: under every limit from some
bound on, and so in each run with a limit of the machine that reaches the bound. -/
def Finishes (m : Machine) (code input : Bytes) (s : Store) : Prop :=
  ∃ jumps bound, JumpTable.ofCode code = .ok jumps ∧
    (∀ limit, bound ≤ limit → exec code.toArray jumps limit 0 (m.start input).store = (.done, s)) ∧
    ∀ steps, bound ≤ ({ m with steps } : Machine).limit →
      ({ m with steps } : Machine).run code input = ⟨.done, s.output.toList, ⟨s.tape, s.ptr, steps⟩⟩

variable {m : Machine} {input : Bytes} {n p : Nat} {u v g : UInt8}

theorem finishes_of_runs {hi : Nat} {b : Block} {s : Stack} (h : Runs hi b (m.stack input) s) (hptr : 0 ≤ m.ptr)
    (hhi : hi < m.tape.size) : m.Finishes b.text input (s.onTape m.tape.size) := by
  obtain ⟨jumps, bound, hj, hexec⟩ := exec_of_crosses h b.balanced_text hptr hhi
  exact ⟨jumps, bound, hj, hexec, fun steps hsteps => run_of_exec hj (hexec _ hsteps)⟩

/-! ## The stack of a machine -/

theorem cells_stack {i : Nat} (h : m.tape[i]? = some v) : (m.stack input).cells i = v := by simp [stack, cell, h]

theorem top_stack (hptr : m.ptr = p) (h : m.tape[p]? = some v) : (m.stack input).top = v := by
  rw [Stack.top, depth_stack hptr input, cells_stack h]

theorem store_stack (hptr : m.ptr = p) : (m.stack input).onTape m.tape.size = (m.start input).store := by
  rw [start_stack (by omega)]

/-! ## Moving values -/

theorem finishes_moveLeft (hn : 1 ≤ n) (hle : n ≤ p) (hptr : m.ptr = p) (hv : m.tape[p]? = some v) :
    m.Finishes (Fragment.moveLeft n).text input
      { (m.start input).store with tape := (m.tape.setIfInBounds (p - n) v).setIfInBounds p 0 } := by
  have hp : p < m.tape.size := (Array.getElem?_eq_some_iff.1 hv).1
  have hd := depth_stack hptr input
  have hrun : Runs p (Fragment.moveLeft n) (m.stack input) _ := Runs.moveLeft rfl hn (by omega) (by omega)
  have hend := finishes_of_runs hrun (by omega) hp
  rw [Stack.setTop, Stack.setCell_onTape, Stack.setCell_onTape, Stack.depth_setCell, top_stack hptr hv, hd,
    store_stack hptr] at hend
  exact hend

theorem finishes_moveRight (hn : 1 ≤ n) (hle : n ≤ p) (hptr : m.ptr = p) (hp : p < m.tape.size)
    (hu : m.tape[p - n]? = some u) :
    m.Finishes (Fragment.moveRight n).text input
      { (m.start input).store with tape := (m.tape.setIfInBounds p u).setIfInBounds (p - n) 0 } := by
  have hd := depth_stack hptr input
  have hrun : Runs p (Fragment.moveRight n) (m.stack input) _ := Runs.moveRight rfl hn (by omega) (by omega)
  have hend := finishes_of_runs hrun (by omega) hp
  rw [Stack.setTop, Stack.setCell_onTape, Stack.setCell_onTape, hd, cells_stack hu, store_stack hptr] at hend
  exact hend

theorem finishes_copyRight (hn : 1 ≤ n) (hle : n ≤ p) (hptr : m.ptr = p) (hu : m.tape[p - n]? = some u)
    (hg : m.tape[p + 1]? = some g) :
    m.Finishes (Fragment.copyRight n).text input
      { (m.start input).store with
        tape := ((m.tape.setIfInBounds p u).setIfInBounds (p + 1) 0).setIfInBounds (p - n) (u + g) } := by
  have hp : p + 1 < m.tape.size := (Array.getElem?_eq_some_iff.1 hg).1
  have hd := depth_stack hptr input
  have hrun : Runs (p + 1) (Fragment.copyRight n) (m.stack input) _ := Runs.copyRight rfl hn (by omega) (by omega)
  have hend := finishes_of_runs hrun (by omega) hp
  rw [Stack.setTop, Stack.setCell_onTape, Stack.setCell_onTape, Stack.setCell_onTape, hd, cells_stack hu,
    cells_stack hg, store_stack hptr] at hend
  exact hend

/-- **Moves and copies have their effect at every distance and on every tape.** The pointer is on cell `p`, which holds
`v`; the cell `n` to its left holds `u` and the next one to its right `g`. Given enough steps, each of the fragments
ends with the pointer where it was, without any output and with all its input left, and it changes no cells but these:
a move to the left leaves `v` in the cell on the left and zero in its own; a move to the right leaves `u` in its own
cell and zero on the left; a copy leaves `u` in its own cell, zero in the next one, and adds to its source what was
there. So the source is kept just when that was zero. -/
theorem move_effects (m : Machine) (input : Bytes) (n p : Nat) (u v g : UInt8) (hn : 1 ≤ n) (hle : n ≤ p)
    (hptr : m.ptr = p) (hu : m.tape[p - n]? = some u) (hv : m.tape[p]? = some v) (hg : m.tape[p + 1]? = some g) :
    m.Finishes (Fragment.moveLeft n).text input
      { (m.start input).store with tape := (m.tape.setIfInBounds (p - n) v).setIfInBounds p 0 } ∧
    m.Finishes (Fragment.moveRight n).text input
      { (m.start input).store with tape := (m.tape.setIfInBounds p u).setIfInBounds (p - n) 0 } ∧
    m.Finishes (Fragment.copyRight n).text input
      { (m.start input).store with
        tape := ((m.tape.setIfInBounds p u).setIfInBounds (p + 1) 0).setIfInBounds (p - n) (u + g) } ∧
    (u + g = u ↔ g = 0) := by
  have hp : p < m.tape.size := (Array.getElem?_eq_some_iff.1 hv).1
  refine ⟨finishes_moveLeft hn hle hptr hv, finishes_moveRight hn hle hptr hp hu, finishes_copyRight hn hle hptr hu hg, ?_⟩
  rw [UInt8.add_eq_left]

/-- Over a distance of two cells, with values in the target and in the scratch cell. -/
theorem move_effects_two :
    let m : Machine := { tape := #[3, 9, 5, 2], ptr := 2 }
    m.Finishes (ascii "<<[-]>>[<<+>>-]") [7] ⟨#[5, 9, 0, 2], 2, [7], #[]⟩ ∧
    m.Finishes (ascii "[-]<<[>>+<<-]>>") [7] ⟨#[0, 9, 3, 2], 2, [7], #[]⟩ ∧
    m.Finishes (ascii "[-]<<[>>+>+<<<-]>>>[<<<+>>>-]<") [7] ⟨#[5, 9, 3, 0], 2, [7], #[]⟩ := by
  intro m
  obtain ⟨hleft, hright, hcopy, _⟩ := move_effects m [7] 2 2 3 5 2 (by decide) (by decide) rfl rfl rfl rfl
  exact ⟨hleft, hright, hcopy⟩

/-! ## Writing texts -/

theorem finishes_print (t : Bytes) (hptr : m.ptr = p) (hzero : m.tape[p]? = some 0) :
    m.Finishes (Fragment.print t).text input { (m.start input).store with output := t.toArray } := by
  have hp : p < m.tape.size := (Array.getElem?_eq_some_iff.1 hzero).1
  have hd := depth_stack hptr input
  have hrun : Runs p (Fragment.print t) (m.stack input) _ := Runs.print t (top_stack hptr hzero) (by omega)
  have hend := finishes_of_runs hrun (by omega) hp
  rw [← store_stack hptr]
  simpa [Stack.write, Stack.onTape, stack] using hend

theorem finishes_encodeString (input t : Bytes) (hptr : m.ptr = p) (hzeros : ∀ i < t.length, m.tape[p + i]? = some 0)
    (hroom : p + t.length < m.tape.size) :
    m.Finishes (Fragment.encodeString t).text input (((m.stack input).laid t).onTape m.tape.size) := by
  have hd := depth_stack hptr input
  have hcells : ∀ i < t.length, (m.stack input).cells ((m.stack input).depth + i) = 0 := by
    intro i hi
    rw [hd]
    exact cells_stack (hzeros i hi)
  have hrun : Runs (p + t.length) (Fragment.encodeString t) (m.stack input) _ :=
    Runs.encodeString t hcells (by omega)
  exact finishes_of_runs hrun (by omega) hroom

/-- The tape on which a text is laid out: its bytes from the pointer on, and everywhere else what was there. -/
theorem tape_laid (input t : Bytes) (hptr : m.ptr = p) (hroom : p + t.length ≤ m.tape.size) (k : Nat) :
    (((m.stack input).laid t).onTape m.tape.size).tape[k]? =
      if k < p then m.tape[k]? else t[k - p]?.or m.tape[k]? := by
  by_cases hk : k < m.tape.size
  · have hcell : m.tape[k]? = some (m.cell k) := by simp [cell, hk]
    rw [Stack.getElem?_onTape hk, hcell, Stack.laid, depth_stack hptr input]
    by_cases hkp : k < p
    · simp [hkp, stack]
    · cases htk : t[k - p]? <;> simp [hkp, stack, htk]
  · rw [Array.getElem?_eq_none (by simp [Stack.onTape]; omega), Array.getElem?_eq_none (Nat.le_of_not_lt hk),
      List.getElem?_eq_none (by omega), if_neg (by omega)]
    rfl

/-- **Both encodings write exactly the text.** The pointer is on cell `p`. Laid out cell by cell over zeros, with one
cell more behind them, a text is the output; the pointer ends behind its last cell, each byte is in its own cell and
all other cells are as they were. Written by way of a single zero cell, a text is the output as well, and nothing
else is changed: neither pointer nor tape. No input is read. -/
theorem text_effects (m : Machine) (input t : Bytes) (p : Nat) (hptr : m.ptr = p) :
    ((∀ i < t.length, m.tape[p + i]? = some 0) → p + t.length < m.tape.size →
      ∃ tape, m.Finishes (Fragment.encodeString t).text input ⟨tape, (p + t.length : Nat), input, t.toArray⟩ ∧
        tape.size = m.tape.size ∧ (∀ i, i < t.length → tape[p + i]? = t[i]?) ∧
        ∀ k, k < p ∨ p + t.length ≤ k → tape[k]? = m.tape[k]?) ∧
    (m.tape[p]? = some 0 →
      m.Finishes (Fragment.print t).text input { (m.start input).store with output := t.toArray }) := by
  refine ⟨fun hzeros hroom => ?_, finishes_print t hptr⟩
  have hcells := tape_laid input t hptr (Nat.le_of_lt hroom)
  have hend := finishes_encodeString input t hptr hzeros hroom
  refine ⟨(((m.stack input).laid t).onTape m.tape.size).tape, ?_, by simp [Stack.onTape], fun i hi => ?_, ?_⟩
  · have hstore : ((m.stack input).laid t).onTape m.tape.size =
        ⟨(((m.stack input).laid t).onTape m.tape.size).tape, (p + t.length : Nat), input, t.toArray⟩ := by
      simp [Stack.onTape, Stack.laid, stack, hptr]
    rwa [hstore] at hend
  · rw [hcells, if_neg (by omega), Nat.add_sub_cancel_left, List.getElem?_eq_getElem hi]
    rfl
  · rintro k (hk | hk)
    · rw [hcells, if_pos hk]
    · rw [hcells, if_neg (by omega), List.getElem?_eq_none (by omega)]
      rfl

/-- A text with a zero byte and one beyond the letters, between cells that hold something. The last cell that it needs
is the one behind it. -/
theorem text_effects_bytes :
    let m : Machine := { tape := #[8, 0, 0, 0, 6], ptr := 1 }
    (∃ tape, m.Finishes (Fragment.encodeString [0x41, 0, 0xC3]).text [7] ⟨tape, 4, [7], #[0x41, 0, 0xC3]⟩ ∧
      tape[1]? = some 0x41 ∧ tape[2]? = some 0 ∧ tape[3]? = some 0xC3 ∧ tape[0]? = some 8 ∧ tape[4]? = some 6) ∧
    m.Finishes (Fragment.print [0x41, 0, 0xC3]).text [7] ⟨#[8, 0, 0, 0, 6], 1, [7], #[0x41, 0, 0xC3]⟩ := by
  intro m
  obtain ⟨hencode, hprint⟩ := text_effects m [7] [0x41, 0, 0xC3] 1 rfl
  obtain ⟨tape, hend, _, hcells, hothers⟩ := hencode (by decide) (by decide)
  refine ⟨⟨tape, hend, hcells 0 (by decide), hcells 1 (by decide), hcells 2 (by decide), ?_, ?_⟩, hprint rfl⟩
  · exact hothers 0 (by decide)
  · exact hothers 4 (by decide)

end Machine

end StackTape

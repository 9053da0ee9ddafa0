import StackTape.Proofs.Runs

/-!
# Where the pointer can be

A symbol uses the current cell before anything is checked; the pointer is looked at only after the symbol. So that
no cell outside the tape is ever used is an invariant of the whole run: wherever a run comes, the pointer is on the
tape and the tape has the size it had (`Reaches.inRange`). Only a move can break it, by one cell, and then the run
is over (`exec_leaves`).

`Machine.run_leaves` says what each verdict leaves behind, and follows one machine from run to run.
-/

namespace StackTape

namespace Store

variable {s : Store}

@[simp] theorem size_act (s : Store) (a : Act) : (s.act a).tape.size = s.tape.size := by
  cases a <;> simp [act, setCell, move]

/-- An action moves the pointer by one cell at most. -/
theorem act_ptr (h : s.inRange = true) (a : Act) :
    (s.act a).ptr = s.ptr - 1 ∨ (s.act a).ptr = s.ptr ∨ (s.act a).ptr = s.ptr + 1 := by
  cases a with
  | left => exact .inl (by simp [act, move, h]; omega)
  | right => exact .inr (.inr (by simp [act, move, h]))
  | inc | dec | put | take => exact .inr (.inl rfl)

/-- The pointer leaves the tape at one of its ends. -/
theorem act_ptr_off (h : s.inRange = true) {a : Act} (hoff : (s.act a).inRange = false) :
    (s.act a).ptr = -1 ∨ (s.act a).ptr = s.tape.size := by
  have hmove := act_ptr h a
  rw [inRange_iff] at h
  have hoff : ¬ (0 ≤ (s.act a).ptr ∧ (s.act a).ptr < s.tape.size) := by
    rw [← size_act s a, ← inRange_iff, hoff]
    simp
  omega

end Store

/-! ## Steps -/

/-- What a run leaves that started with its pointer on a tape of `size` cells. -/
def Leaves (size : Nat) (r : Verdict × Store) : Prop :=
  r.2.tape.size = size ∧
    match r.1 with
    | .done | .tooLong _ => r.2.inRange = true
    | .outOfRange _ ptr => r.2.ptr = ptr ∧ (ptr = -1 ∨ ptr = size)
    | .unmatched _ | .badIndex _ _ => False

section
variable {code : Array UInt8} {jumps : JumpTable} {c c' : Config}

/-- A step that does not end the run keeps the pointer on the tape, and the size of the tape. -/
theorem step_inRange (h : step code jumps c = .ok c') (hc : c.store.inRange = true) :
    c'.store.inRange = true ∧ c'.store.tape.size = c.store.tape.size := by
  unfold step at h
  split at h
  · cases h
  · split at h
    · cases h
      exact ⟨hc, rfl⟩
    · split at h
      · cases h
      · simp only at h
        split at h
        · rename_i hin
          cases h
          exact ⟨hin, Store.size_act ..⟩
        · cases h
    · split at h <;> cases h
      exact ⟨hc, rfl⟩
    · split at h <;> cases h
      exact ⟨hc, rfl⟩

theorem step_leaves {r : Verdict × Store} (h : step code jumps c = .error r) (hc : c.store.inRange = true) :
    Leaves c.store.tape.size r := by
  obtain ⟨rfl, _⟩ | ⟨_, hcell⟩ | ⟨a, rfl, hoff⟩ := step_error h
  · exact ⟨rfl, hc⟩
  · rw [Store.cell?_of_inRange hc] at hcell
    cases hcell
  · exact ⟨Store.size_act .., rfl, Store.act_ptr_off hc hoff⟩

/-! ## Runs -/

/-- **Wherever a run comes, the pointer is on the tape.** -/
theorem Reaches.inRange {n : Nat} (h : Reaches code jumps n c c') (hc : c.store.inRange = true) :
    c'.store.inRange = true ∧ c'.store.tape.size = c.store.tape.size := by
  induction h with
  | refl => exact ⟨hc, rfl⟩
  | step hs _ ih =>
    obtain ⟨hc₁, hsize₁⟩ := step_inRange hs hc
    obtain ⟨hc', hsize⟩ := ih hc₁
    exact ⟨hc', hsize.trans hsize₁⟩

theorem exec_leaves (hc : c.store.inRange = true) (fuel : Nat) :
    Leaves c.store.tape.size (exec code jumps fuel c.pc c.store) := by
  induction fuel generalizing c with
  | zero =>
    rw [exec]
    split <;> exact ⟨rfl, hc⟩
  | succ fuel ih =>
    rw [exec_succ]
    split
    · rename_i hs
      exact step_leaves hs hc
    · rename_i hs
      obtain ⟨hc', hsize⟩ := step_inRange hs hc
      rw [← hsize]
      exact ih hc'

end

/-! ## Machines -/

namespace Machine

/-- The pointer is on the tape between runs. -/
def InRange (m : Machine) : Prop := 0 ≤ m.ptr ∧ m.ptr < m.tape.size

/-- A piece of work: a code text and its input, and the step limit that the machine is given for it. -/
structure Job where
  code : Bytes
  input : Bytes
  steps : Int := 0

/-- The results of a machine that is given one job after the other. -/
def runAll (m : Machine) : List Job → List Result
  | [] => []
  | job :: rest =>
    let ran := ({ m with steps := job.steps } : Machine).run job.code job.input
    ran :: ran.machine.runAll rest

variable {m : Machine} {code input : Bytes}

theorem start_inRange (h : m.InRange) (input : Bytes) : (m.start input).store.inRange = true :=
  Store.inRange_iff.2 h

/-- A run is refused for its brackets before it starts, or it leaves what its verdict says. -/
theorem run_cases (h : m.InRange) (code input : Bytes) :
    (∃ pos, m.run code input = { verdict := .unmatched pos, output := [], machine := m }) ∨
      ∃ r, m.run code input = m.result r ∧ Leaves m.tape.size r := by
  rw [run_eq_runWithin]
  cases hj : JumpTable.ofCode code with
  | error pos => exact .inl ⟨pos, by simp only [runWithin, hj]⟩
  | ok jumps => exact .inr ⟨_, runWithin_eq hj, exec_leaves (start_inRange h input) m.limit⟩

/-- A run that does not leave the tape uses no cell outside of it, and the machine is ready for the next one. -/
theorem run_inRange (h : m.InRange) (hoff : ∀ pos ptr, (m.run code input).verdict ≠ .outOfRange pos ptr) :
    (∀ index size, (m.run code input).verdict ≠ .badIndex index size) ∧ (m.run code input).machine.InRange := by
  obtain ⟨pos, hrun⟩ | ⟨⟨v, s⟩, hrun, hsize, hleft⟩ := run_cases h code input
  · rw [hrun]
    exact ⟨by simp, h⟩
  · rw [hrun] at hoff ⊢
    cases v with
    | done | tooLong => exact ⟨by simp [result], Store.inRange_iff.1 hleft⟩
    | outOfRange pos ptr => exact absurd rfl (hoff pos ptr)
    | unmatched | badIndex => exact hleft.elim

theorem runAll_inRange (h : m.InRange) {jobs : List Job}
    (hoff : ∀ r ∈ m.runAll jobs, ∀ pos ptr, r.verdict ≠ .outOfRange pos ptr) :
    ∀ r ∈ m.runAll jobs, ∀ index size, r.verdict ≠ .badIndex index size := by
  induction jobs generalizing m with
  | nil => simp [runAll]
  | cons job rest ih =>
    simp only [runAll, List.mem_cons, forall_eq_or_imp] at hoff ⊢
    have hm : ({ m with steps := job.steps } : Machine).InRange := h
    obtain ⟨hsafe, hnext⟩ := run_inRange hm hoff.1
    exact ⟨hsafe, ih hnext hoff.2⟩

/-- **No cell outside the tape is ever used.** Take a machine with its pointer on the tape, any code and input, and
any step limit. The pointer is on the tape wherever the run comes, and the tape keeps its size. It is still there
when the run is done or cut off; a run that leaves the tape stops with the pointer at the cell before the first or
behind the last one; a run that is refused for its brackets changes nothing and writes nothing. So as long as no run
leaves the tape, the machine can be given one job after the other. -/
theorem run_leaves (m : Machine) (code input : Bytes) (h₀ : 0 ≤ m.ptr) (h₁ : m.ptr < m.tape.size) :
    let ran := m.run code input
    (∀ index size, ran.verdict ≠ .badIndex index size) ∧
    ran.machine.tape.size = m.tape.size ∧
    (∀ jumps n e, JumpTable.ofCode code = .ok jumps → Reaches code.toArray jumps n (m.start input) e →
      0 ≤ e.store.ptr ∧ e.store.ptr < m.tape.size ∧ e.store.tape.size = m.tape.size) ∧
    (ran.verdict = .done ∨ (∃ pos, ran.verdict = .tooLong pos) →
      0 ≤ ran.machine.ptr ∧ ran.machine.ptr < m.tape.size) ∧
    (∀ pos ptr, ran.verdict = .outOfRange pos ptr →
      ran.machine.ptr = ptr ∧ (ptr = -1 ∨ ptr = m.tape.size)) ∧
    (∀ pos, ran.verdict = .unmatched pos → ran.machine = m ∧ ran.output = []) ∧
    ∀ jobs, (∀ r ∈ m.runAll jobs, ∀ pos ptr, r.verdict ≠ .outOfRange pos ptr) →
      ∀ r ∈ m.runAll jobs, ∀ index size, r.verdict ≠ .badIndex index size := by
  have hvisits : ∀ jumps n e, JumpTable.ofCode code = .ok jumps →
      Reaches code.toArray jumps n (m.start input) e →
      0 ≤ e.store.ptr ∧ e.store.ptr < m.tape.size ∧ e.store.tape.size = m.tape.size := by
    intro jumps n e _ hreach
    obtain ⟨hin, hsize⟩ := hreach.inRange (start_inRange ⟨h₀, h₁⟩ input)
    rw [Store.inRange_iff, hsize] at hin
    exact ⟨hin.1, hin.2, hsize⟩
  have hjobs : ∀ jobs, (∀ r ∈ m.runAll jobs, ∀ pos ptr, r.verdict ≠ .outOfRange pos ptr) →
      ∀ r ∈ m.runAll jobs, ∀ index size, r.verdict ≠ .badIndex index size :=
    fun jobs => runAll_inRange ⟨h₀, h₁⟩
  obtain ⟨pos, hrun⟩ | ⟨⟨v, s⟩, hrun, hsize, hleft⟩ := run_cases ⟨h₀, h₁⟩ code input
  · rw [hrun]
    exact ⟨by simp, rfl, hvisits, fun _ => ⟨h₀, h₁⟩, by simp, fun _ _ => ⟨rfl, rfl⟩, hjobs⟩
  · rw [hrun]
    cases v with
    | done | tooLong =>
      rw [Store.inRange_iff, hsize] at hleft
      exact ⟨by simp [result], hsize, hvisits, fun _ => hleft, by simp [result], by simp [result], hjobs⟩
    | outOfRange pos ptr =>
      refine ⟨by simp [result], hsize, hvisits, by simp [result], ?_, by simp [result], hjobs⟩
      rintro _ _ ⟨rfl, rfl⟩
      exact hleft
    | unmatched | badIndex => exact hleft.elim

/-- A machine on the last of two cells: one run walks off the tape. Three others stay on it, of which the second is
refused for its bracket and the third is cut off. -/
theorem run_leaves_last_cell :
    let m : Machine := { tape := #[0, 7], ptr := 1, steps := 40 }
    (m.run (ascii "-[<+>-].>") []).verdict = .outOfRange 8 2 ∧
    (m.run (ascii "-[<+>-].>") []).machine.ptr = 2 ∧
    ∀ r ∈ m.runAll [⟨ascii "<+", [], 9⟩, ⟨ascii ">]", [], 9⟩, ⟨ascii "+[]", [], 9⟩],
      ∀ index size, r.verdict ≠ .badIndex index size := by
  have hsafe := run_leaves { tape := #[0, 7], ptr := 1, steps := 40 } (ascii "-[<+>-].>") [] (by decide) (by decide)
  obtain ⟨_, _, _, _, hoff, _, hjobs⟩ := hsafe
  have hverdict : (({ tape := #[0, 7], ptr := 1, steps := 40 } : Machine).run (ascii "-[<+>-].>") []).verdict =
      .outOfRange 8 2 := by decide
  refine ⟨hverdict, (hoff 8 2 hverdict).1, hjobs _ ?_⟩
  have hruns : (({ tape := #[0, 7], ptr := 1, steps := 40 } : Machine).runAll
      [⟨ascii "<+", [], 9⟩, ⟨ascii ">]", [], 9⟩, ⟨ascii "+[]", [], 9⟩]).map (·.verdict) =
        [.done, .unmatched 1, .tooLong 2] := by decide
  intro r hr pos ptr hout
  have hmem := hruns ▸ List.mem_map_of_mem (f := fun r : Result => r.verdict) hr
  rw [hout] at hmem
  simp at hmem

end Machine

end StackTape

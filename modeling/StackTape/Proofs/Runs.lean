import StackTape.Proofs.Cross

/-!
# Runs to their own end

A run under a step limit is cut off, or it comes to an end of its own. `Stops n c r` is a run that takes `n`
steps from `c` and then ends with `r`; no limit is part of it. `Allows` says which limits let it through
(`exec_of_stops`, `stops_of_exec`): those above `n`, and `n` itself when the end is that of the code, as no step is
needed to see it.

`Machine.runWithin` runs a machine under a limit that is any number, so that limits can be compared. A run has the
limit of its machine (`run_eq_runWithin`). That is a word: every positive word is the limit of a machine
(`run_steps`), and no machine has a greater limit than `wordBound` (`limit_le`). So "with enough steps" cannot be said
of the runs of machines alone, where it is empty for a bound that is out of reach. `Machine.Settles` says it of all
limits.
-/

namespace StackTape

theorem Store.inRange_iff {s : Store} : s.inRange = true ↔ 0 ≤ s.ptr ∧ s.ptr < s.tape.size := by
  simp [inRange]

/-- On the tape there is a current cell. -/
theorem Store.cell?_of_inRange {s : Store} (h : s.inRange = true) : s.cell? = some s.cell := by
  rw [inRange_iff] at h
  have hlt : s.ptr.toNat < s.tape.size := by omega
  simp [cell, cell?, h.1, hlt]

/-- The run was cut off by its step limit. -/
def Verdict.isCut : Verdict → Bool
  | .tooLong _ => true
  | _ => false

section
variable {code : Array UInt8} {jumps : JumpTable} {c c' : Config} {n fuel : Nat} {r : Verdict × Store}

/-- The ways in which a run ends: behind the code, with a pointer that is already outside the tape, or with an
action that moves it there. -/
theorem step_error (h : step code jumps c = .error r) :
    (r = (.done, c.store) ∧ code.size ≤ c.pc) ∨
    (r = (.badIndex c.store.ptr c.store.tape.size, c.store) ∧ c.store.cell? = none) ∨
    ∃ a, r = (.outOfRange c.pc (c.store.act a).ptr, c.store.act a) ∧ (c.store.act a).inRange = false := by
  unfold step at h
  split at h
  · rename_i hnone
    cases h
    exact .inl ⟨rfl, Array.getElem?_eq_none_iff.1 hnone⟩
  · split at h
    · cases h
    · rename_i a _
      split at h
      · rename_i hout
        cases h
        exact .inr (.inl ⟨rfl, by simpa using (Bool.and_eq_true_iff.1 hout).2⟩)
      · simp only at h
        split at h
        · cases h
        · rename_i hout
          cases h
          exact .inr (.inr ⟨a, rfl, by simpa using hout⟩)
    · split at h
      · rename_i hout
        cases h
        exact .inr (.inl ⟨rfl, hout⟩)
      · cases h
    · split at h
      · rename_i hout
        cases h
        exact .inr (.inl ⟨rfl, hout⟩)
      · cases h

theorem step_end (h : code.size ≤ c.pc) : step code jumps c = .error (.done, c.store) := by
  rw [step, Array.getElem?_eq_none h]

/-- A run of `n` steps that ends with `r`. -/
inductive Stops (code : Array UInt8) (jumps : JumpTable) : Nat → Config → Verdict × Store → Prop
  | here {c : Config} {r : Verdict × Store} : step code jumps c = .error r → Stops code jumps 0 c r
  | next {n : Nat} {c c' : Config} {r : Verdict × Store} :
    step code jumps c = .ok c' → Stops code jumps n c' r → Stops code jumps (n + 1) c r

namespace Stops

/-- A run of its own is never cut off, and it says nothing of brackets. -/
theorem verdict (h : Stops code jumps n c r) : r.1.isCut = false ∧ ∀ pos, r.1 ≠ .unmatched pos := by
  induction h with
  | here hs => obtain ⟨rfl, _⟩ | ⟨rfl, _⟩ | ⟨_, rfl, _⟩ := step_error hs <;> exact ⟨rfl, by simp⟩
  | next _ _ ih => exact ih

/-- What comes after a step that can be taken. -/
theorem tail (h : Stops code jumps n c r) (hs : step code jumps c = .ok c') :
    ∃ k, n = k + 1 ∧ Stops code jumps k c' r := by
  cases h with
  | here he => rw [hs] at he; cases he
  | next hs' hrest =>
    rw [hs] at hs'
    cases hs'
    exact ⟨_, rfl, hrest⟩

theorem eq_of_error (h : Stops code jumps n c r) {r' : Verdict × Store} (hs : step code jumps c = .error r') :
    r = r' := by
  cases h with
  | here he => rw [hs] at he; cases he; rfl
  | next hs' => rw [hs] at hs'; cases hs'

theorem after {k : Nat} (h : Reaches code jumps n c c') (hrest : Stops code jumps k c' r) :
    Stops code jumps (n + k) c r := by
  induction h with
  | refl => simpa using hrest
  | step hs _ ih =>
    rw [Nat.add_right_comm]
    exact .next hs (ih hrest)

/-- Where two configurations lead to the same next one, a run may start from either. -/
theorem of_step_eq (h : Stops code jumps n c r) (hs : step code jumps c = .ok c') {d : Config}
    (hd : step code jumps d = .ok c') : Stops code jumps n d r := by
  obtain ⟨k, rfl, hrest⟩ := h.tail hs
  exact .next hd hrest

end Stops

/-- The limit lets a run of `n` steps come to its end. -/
def Allows (fuel n : Nat) (v : Verdict) : Prop := n < fuel ∨ n = fuel ∧ v = .done

theorem exec_of_stops (h : Stops code jumps n c r) (hf : Allows fuel n r.1) :
    exec code jumps fuel c.pc c.store = r := by
  induction h generalizing fuel with
  | here hs =>
    cases fuel with
    | succ fuel => rw [exec_succ, hs]
    | zero =>
      obtain hf | ⟨_, hf⟩ := hf
      · omega
      obtain ⟨rfl, hend⟩ | ⟨rfl, _⟩ | ⟨_, rfl, _⟩ := step_error hs
      · exact exec_end hend
      · cases hf
      · cases hf
  | next hs _ ih =>
    cases fuel with
    | zero => obtain hf | ⟨hf, _⟩ := hf <;> omega
    | succ fuel =>
      rw [exec_succ, hs]
      exact ih (hf.imp (by omega) (And.imp_left (by omega)))

theorem stops_of_exec (h : exec code jumps fuel c.pc c.store = r) (hr : r.1.isCut = false) :
    ∃ n, Stops code jumps n c r ∧ Allows fuel n r.1 := by
  induction fuel generalizing c with
  | zero =>
    rw [exec] at h
    split at h
    · subst h
      cases hr
    · subst h
      exact ⟨0, .here (step_end (by omega)), .inr ⟨rfl, rfl⟩⟩
  | succ fuel ih =>
    rw [exec_succ] at h
    split at h
    · rename_i hs
      subst h
      exact ⟨0, .here hs, .inl (by omega)⟩
    · rename_i hs
      obtain ⟨n, hn, hf⟩ := ih h
      exact ⟨n + 1, .next hs hn, hf.imp (by omega) (And.imp_left (by omega))⟩

/-- A run that is cut off stands where its steps have led it. -/
theorem reaches_of_cut (h : (exec code jumps fuel c.pc c.store).1.isCut = true) :
    ∃ e, Reaches code jumps fuel c e ∧ exec code jumps fuel c.pc c.store = (.tooLong e.pc, e.store) := by
  induction fuel generalizing c with
  | zero =>
    refine ⟨c, .refl c, ?_⟩
    rw [exec] at h ⊢
    split
    · rfl
    · rename_i hend
      rw [if_neg hend] at h
      cases h
  | succ fuel ih =>
    rw [exec_succ] at h ⊢
    cases hs : step code jumps c with
    | error r =>
      rw [hs] at h
      obtain ⟨rfl, _⟩ | ⟨rfl, _⟩ | ⟨a, rfl, _⟩ := step_error hs <;> cases h
    | ok c' =>
      rw [hs] at h
      obtain ⟨e, hreach, he⟩ := ih h
      exact ⟨e, .step hs hreach, he⟩

theorem exec_ne_unmatched (pos : Nat) : (exec code jumps fuel c.pc c.store).1 ≠ .unmatched pos := by
  cases hcut : (exec code jumps fuel c.pc c.store).1.isCut with
  | false =>
    obtain ⟨n, hn, _⟩ := stops_of_exec rfl hcut
    exact hn.verdict.2 pos
  | true =>
    intro h
    rw [h] at hcut
    cases hcut

end

/-! ## Machines -/

namespace Machine

/-- A machine with a zero tape of `size` cells and a step limit. -/
def limited (size : Nat) (steps : Int) : Machine := { fresh size with steps }

def start (m : Machine) (input : Bytes) : Config :=
  ⟨0, { tape := m.tape, ptr := m.ptr, input, output := #[] }⟩

theorem start_limited (size : Nat) (steps : Int) (input : Bytes) :
    (limited size steps).start input = ⟨0, (Stack.initial [] input).onTape size⟩ := by
  have htape : Array.replicate size (0 : UInt8) = Array.ofFn fun _ : Fin size => 0 :=
    Array.ext (by simp) (by simp)
  simp only [start, limited, fresh, Stack.onTape, Stack.initial, htape]
  rfl

/-- The end of a run that stops with a verdict and a store. -/
def result (m : Machine) (r : Verdict × Store) : Result :=
  { verdict := r.1, output := r.2.output.toList, machine := { m with tape := r.2.tape, ptr := r.2.ptr } }

/-- Runs a code text for at most `limit` steps, which may be more than a machine can be given. -/
def runWithin (m : Machine) (limit : Nat) (code input : Bytes) : Result :=
  match JumpTable.ofCode code with
  | .error pos => { verdict := .unmatched pos, output := [], machine := m }
  | .ok jumps => m.result (exec code.toArray jumps limit 0 (m.start input).store)

variable {m : Machine} {limit : Nat} {code input : Bytes} {jumps : JumpTable}

/-- A run has the limit of its machine. -/
theorem run_eq_runWithin (m : Machine) (code input : Bytes) :
    m.run code input = m.runWithin m.limit code input := by
  unfold run runWithin
  cases JumpTable.ofCode code <;> rfl

/-- The run of a machine that has the limit for its step limit. -/
theorem run_steps (m : Machine) (h₀ : 0 < limit) (h : limit < wordBound) (code input : Bytes) :
    ({ m with steps := limit } : Machine).run code input =
      let ran := m.runWithin limit code input
      { ran with machine := { ran.machine with steps := limit } } := by
  have hlimit : ({ m with steps := limit } : Machine).limit = limit := by
    rw [Machine.limit, if_neg (by simp; omega), wrap64_eq_self (by simp only [wordBound]; omega) (by simp only; omega)]
    simp
  rw [run_eq_runWithin, hlimit]
  simp only [runWithin]
  cases JumpTable.ofCode code <;> rfl

/-- No machine runs for more steps than there are words that are not negative. -/
theorem limit_le (m : Machine) : m.limit ≤ wordBound := by
  have hwrap := wrap64_lt (m.steps - 1)
  unfold limit
  split
  · decide
  · omega

theorem runWithin_eq (hj : JumpTable.ofCode code = .ok jumps) : m.runWithin limit code input =
    m.result (exec code.toArray jumps limit (m.start input).pc (m.start input).store) := by
  simp only [runWithin, hj]
  rfl

/-- With at least `bound` steps a run has the property. This is said of every limit from the bound on, and so of the run
of the machine itself when its own limit reaches the bound. -/
def Settles (m : Machine) (bound : Nat) (code input : Bytes) (P : Result → Prop) : Prop :=
  (∀ limit, bound ≤ limit → P (m.runWithin limit code input)) ∧ (bound ≤ m.limit → P (m.run code input))

namespace Settles

variable {bound bound' : Nat} {P Q : Result → Prop}

theorem of_runWithin (h : ∀ limit, bound ≤ limit → P (m.runWithin limit code input)) :
    m.Settles bound code input P := by
  refine ⟨h, fun hlimit => ?_⟩
  rw [run_eq_runWithin]
  exact h m.limit hlimit

theorem imp (h : m.Settles bound code input P) (hle : bound ≤ bound') (hPQ : ∀ ran, P ran → Q ran) :
    m.Settles bound' code input Q :=
  of_runWithin fun limit hlimit => hPQ _ (h.1 limit (Nat.le_trans hle hlimit))

end Settles

/-- The step limit of a machine plays no part when another one is given. -/
theorem verdict_runWithin_steps (m : Machine) (steps : Int) (limit : Nat) (code input : Bytes) :
    (({ m with steps } : Machine).runWithin limit code input).verdict = (m.runWithin limit code input).verdict := by
  unfold runWithin
  cases JumpTable.ofCode code <;> rfl

/-- Brackets are looked at before anything else. -/
theorem unmatched_iff (m : Machine) (limit : Nat) (code input : Bytes) :
    (∃ pos, (m.runWithin limit code input).verdict = .unmatched pos) ↔ ¬ Balanced code := by
  rw [← JumpTable.ofCode_ok_iff]
  cases hj : JumpTable.ofCode code with
  | error pos => simp [runWithin, hj]
  | ok jumps =>
    rw [runWithin_eq hj]
    simpa [result] using exec_ne_unmatched

end Machine

end StackTape

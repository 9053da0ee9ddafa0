import StackTape.Tape.Machine

/-!
# Single steps of the tape machine

`exec` runs with a step limit. Here the same run is cut into single steps: `step` executes one byte
of the code and `Reaches n` is a run of exactly `n` steps (`exec_of_reaches`).

`Walk` is a chain of steps with a promise about every configuration it starts a step from. It is how
later modules speak about all the intermediate points of a run. A walk to the end of the code decides
what every limit leads to: the run is done (`Walk.exec_done`), or it is cut off (`Walk.exec_cut`).
-/

namespace StackTape

/-- A point of a run: the position of the next byte of the code, and what the symbols act on. -/
structure Config where
  pc : Nat
  store : Store

/-- Executes one byte of the code. The error is the end of the run. -/
def step (code : Array UInt8) (jumps : JumpTable) (c : Config) : Except (Verdict × Store) Config :=
  match code[c.pc]? with
  | none => .error (.done, c.store)
  | some b =>
    match Symbol.ofByte? b with
    | none => .ok ⟨c.pc + 1, c.store⟩
    | some (.act a) =>
      if a.usesCell && c.store.cell?.isNone then .error (.badIndex c.store.ptr c.store.tape.size, c.store)
      else
        let s := c.store.act a
        if s.inRange then .ok ⟨c.pc + 1, s⟩ else .error (.outOfRange c.pc s.ptr, s)
    | some .enter =>
      match c.store.cell? with
      | none => .error (.badIndex c.store.ptr c.store.tape.size, c.store)
      | some v => .ok ⟨(if v = 0 then (jumps.partner? c.pc).getD c.pc else c.pc) + 1, c.store⟩
    | some .leave =>
      match c.store.cell? with
      | none => .error (.badIndex c.store.ptr c.store.tape.size, c.store)
      | some v => .ok ⟨(if v = 0 then c.pc else (jumps.partner? c.pc).getD c.pc) + 1, c.store⟩

section
variable {code : Array UInt8} {jumps : JumpTable}

/-- A run with at least one step left takes one step and goes on from there. -/
theorem exec_succ (fuel : Nat) (c : Config) :
    exec code jumps (fuel + 1) c.pc c.store =
      match step code jumps c with
      | .error r => r
      | .ok c' => exec code jumps fuel c'.pc c'.store := by
  rw [exec, step]
  cases code[c.pc]? with
  | none => rfl
  | some b =>
    simp only
    rcases Symbol.ofByte? b with _ | (a | _ | _)
    · rfl
    · simp only
      split
      · rfl
      · split <;> rfl
    · cases c.store.cell? <;> rfl
    · cases c.store.cell? <;> rfl

/-- A byte that can be executed is a byte of the code. -/
theorem step_pc_lt {c c' : Config} (h : step code jumps c = .ok c') : c.pc < code.size := by
  unfold step at h
  split at h
  · cases h
  · rename_i b hb
    exact (Array.getElem?_eq_some_iff.1 hb).1

/-- A step only appends to the output. -/
theorem step_output {c c' : Config} (h : step code jumps c = .ok c') :
    c.store.output.toList <+: c'.store.output.toList := by
  unfold step at h
  split at h
  · cases h
  · split at h
    · cases h; exact List.prefix_refl _
    · rename_i a _
      split at h
      · cases h
      · simp only at h
        split at h
        · cases h
          cases a <;> simp [Store.act, Store.setCell, Store.move]
        · cases h
    · split at h <;> cases h
      exact List.prefix_refl _
    · split at h <;> cases h
      exact List.prefix_refl _

/-! ## Runs of a known length -/

/-- A run of exactly `n` steps. -/
inductive Reaches (code : Array UInt8) (jumps : JumpTable) : Nat → Config → Config → Prop
  | refl (c : Config) : Reaches code jumps 0 c c
  | step {n : Nat} {c c' c'' : Config} :
    step code jumps c = .ok c' → Reaches code jumps n c' c'' → Reaches code jumps (n + 1) c c''

/-- A run that starts with `n` steps goes on with what is left of its limit. -/
theorem exec_of_reaches {n : Nat} {c c' : Config} (h : Reaches code jumps n c c') (fuel : Nat) :
    exec code jumps (n + fuel) c.pc c.store = exec code jumps fuel c'.pc c'.store := by
  induction h with
  | refl => simp
  | step hs _ ih => rw [Nat.add_right_comm, exec_succ, hs]; exact ih

theorem Reaches.output {n : Nat} {c c' : Config} (h : Reaches code jumps n c c') :
    c.store.output.toList <+: c'.store.output.toList := by
  induction h with
  | refl => exact List.prefix_refl _
  | step hs _ ih => exact (step_output hs).trans ih

/-! ## Walks -/

/-- A run of `n` steps in which `V` holds wherever a step is taken. -/
inductive Walk (code : Array UInt8) (jumps : JumpTable) (V : Config → Prop) :
    Nat → Config → Config → Prop
  | refl (c : Config) : Walk code jumps V 0 c c
  | step {n : Nat} {c c' c'' : Config} :
    V c → step code jumps c = .ok c' → Walk code jumps V n c' c'' →
    Walk code jumps V (n + 1) c c''

variable {V W : Config → Prop}

theorem Walk.trans {m n : Nat} {c c' c'' : Config} (h₁ : Walk code jumps V m c c')
    (h₂ : Walk code jumps V n c' c'') : Walk code jumps V (m + n) c c'' := by
  induction h₁ with
  | refl => simpa using h₂
  | step hv hs _ ih => rw [Nat.add_right_comm]; exact .step hv hs (ih h₂)

/-- Where two configurations lead to the same next one, a walk may start from either. -/
theorem Walk.of_step_eq {n : Nat} {c d e : Config} (h : Walk code jumps V n c e) (hne : c ≠ e) (hv : V d)
    (hs : StackTape.step code jumps d = StackTape.step code jumps c) : Walk code jumps V n d e := by
  cases h with
  | refl => exact absurd rfl hne
  | step _ hstep hrest => exact .step hv (hs.trans hstep) hrest

theorem Walk.mono {n : Nat} {c c' : Config} (h : Walk code jumps V n c c')
    (hVW : ∀ e, V e → W e) : Walk code jumps W n c c' := by
  induction h with
  | refl => exact .refl _
  | step hv hs _ ih => exact .step (hVW _ hv) hs ih

theorem Walk.reaches {n : Nat} {c c' : Config} (h : Walk code jumps V n c c') :
    Reaches code jumps n c c' := by
  induction h with
  | refl => exact .refl _
  | step _ hs _ ih => exact .step hs ih

/-- A walk can be cut after any number of steps. -/
theorem Walk.split {k n : Nat} {c c' : Config} (h : Walk code jumps V n c c') (hk : k < n) :
    ∃ e, V e ∧ e.pc < code.size ∧ Reaches code jumps k c e ∧ Reaches code jumps (n - k) e c' := by
  induction h generalizing k with
  | refl => omega
  | step hv hs hw ih =>
    cases k with
    | zero => exact ⟨_, hv, step_pc_lt hs, .refl _, .step hs hw.reaches⟩
    | succ k =>
      obtain ⟨e, he, hlt, h₁, h₂⟩ := ih (k := k) (by omega)
      refine ⟨e, he, hlt, .step hs h₁, ?_⟩
      rwa [Nat.add_sub_add_right]

/-! ## Walks to the end of the code -/

theorem exec_end {fuel pc : Nat} {s : Store} (h : code.size ≤ pc) :
    exec code jumps fuel pc s = (.done, s) := by
  cases fuel with
  | zero => rw [exec, if_neg (by omega)]
  | succ fuel => rw [exec, Array.getElem?_eq_none h]

variable {n fuel : Nat} {c c' : Config}

/-- With enough steps, a run is its whole walk. -/
theorem Walk.exec_done (h : Walk code jumps V n c c') (hend : code.size ≤ c'.pc) (hf : n ≤ fuel) :
    exec code jumps fuel c.pc c.store = (.done, c'.store) := by
  rw [← Nat.add_sub_cancel' hf, exec_of_reaches h.reaches, exec_end hend]

/-- With too few steps, a run stops at some point of its walk. -/
theorem Walk.exec_cut (h : Walk code jumps V n c c') (hf : fuel < n) :
    ∃ e : Config, exec code jumps fuel c.pc c.store = (.tooLong e.pc, e.store) ∧
      e.store.output.toList <+: c'.store.output.toList := by
  obtain ⟨e, _, hlt, h₁, h₂⟩ := h.split hf
  refine ⟨e, ?_, h₂.output⟩
  have hexec := exec_of_reaches h₁ 0
  rwa [Nat.add_zero, exec, if_pos hlt] at hexec

/-- Whatever a run reaches is a point of its walk, or the end of it. -/
theorem Walk.visited {k : Nat} {e : Config} (h : Walk code jumps V n c c') (hend : code.size ≤ c'.pc)
    (he : Reaches code jumps k c e) : V e ∨ e = c' := by
  induction h generalizing k with
  | refl c =>
    cases he with
    | refl => exact .inr rfl
    | step hs => exact absurd (step_pc_lt hs) (by omega)
  | step hv hs _ ih =>
    cases he with
    | refl => exact .inl hv
    | step hs' he =>
      rw [hs] at hs'
      cases hs'
      exact ih hend he

end

end StackTape

import StackTape.Proofs.Runs

/-!
# A step limit only cuts runs off

Two runs of one machine under two limits are one and the same run as long as neither is cut off. So a run that ends
in any other way has that end under every larger limit, and a run that is cut off has written the front of what the
longer one writes (`runWithin_truncates`).

The number of steps that a machine is given is a word, and the count of the steps left is lowered before it is
looked at. Below the least word there is no other, so that one allows more steps than any other (`limit_eq`). Limits
compare as their words do up to this one exception (`run_truncates_iff`).
-/

namespace StackTape

theorem Store.output_act (s : Store) (a : Act) : s.output.toList <+: (s.act a).output.toList := by
  cases a <;> simp [act, setCell, move]

/-! ## Two limits -/

section
variable {code : Array UInt8} {jumps : JumpTable} {c : Config} {fuel fuel' : Nat} {r : Verdict × Store}

/-- The end of a run comes after all its output. -/
theorem step_error_output (h : step code jumps c = .error r) :
    c.store.output.toList <+: r.2.output.toList := by
  obtain ⟨rfl, _⟩ | ⟨rfl, _⟩ | ⟨a, rfl, _⟩ := step_error h
  · exact List.prefix_refl _
  · exact List.prefix_refl _
  · exact Store.output_act c.store a

theorem exec_output : c.store.output.toList <+: (exec code jumps fuel c.pc c.store).2.output.toList := by
  induction fuel generalizing c with
  | zero =>
    rw [exec]
    split <;> exact List.prefix_refl _
  | succ fuel ih =>
    rw [exec_succ]
    split
    · rename_i hs
      exact step_error_output hs
    · rename_i hs
      exact (step_output hs).trans ih

theorem Allows.mono {n : Nat} {v : Verdict} (h : Allows fuel n v) (hle : fuel ≤ fuel') : Allows fuel' n v := by
  rcases h with h | ⟨rfl, hv⟩
  · exact .inl (by omega)
  · rcases Nat.lt_or_ge n fuel' with hlt | hge
    · exact .inl hlt
    · exact .inr ⟨by omega, hv⟩

/-- A run that ends of its own accord ends the same way under a larger limit. -/
theorem exec_of_le (hle : fuel ≤ fuel') (h : (exec code jumps fuel c.pc c.store).1.isCut = false) :
    exec code jumps fuel' c.pc c.store = exec code jumps fuel c.pc c.store := by
  obtain ⟨n, hn, hf⟩ := stops_of_exec rfl h
  exact exec_of_stops hn (hf.mono hle)

theorem output_of_le (hle : fuel ≤ fuel') (h : (exec code jumps fuel c.pc c.store).1.isCut = true) :
    (exec code jumps fuel c.pc c.store).2.output.toList <+:
      (exec code jumps fuel' c.pc c.store).2.output.toList := by
  obtain ⟨e, hreach, he⟩ := reaches_of_cut h
  rw [he, ← Nat.add_sub_cancel' hle, exec_of_reaches hreach]
  exact exec_output

end

/-! ## Comments take one step a byte -/

/-- A text without symbols is passed over as far as the limit goes. -/
theorem exec_silent {code : Bytes} (h : ∀ b ∈ code, isPrimitive b = false) (jumps : JumpTable) (fuel pc : Nat)
    (s : Store) : exec code.toArray jumps fuel pc s =
      if code.length ≤ pc + fuel then (.done, s) else (.tooLong (pc + fuel), s) := by
  induction fuel generalizing pc with
  | zero =>
    rw [exec, List.size_toArray, Nat.add_zero]
    by_cases hpc : pc < code.length
    · rw [if_pos hpc, if_neg (by omega)]
    · rw [if_neg hpc, if_pos (by omega)]
  | succ fuel ih =>
    by_cases hpc : code.length ≤ pc
    · rw [exec_end (by simpa using hpc), if_pos (by omega)]
    · have hlt : pc < code.length := by omega
      have hb : Symbol.ofByte? code[pc] = none := by
        simpa [isPrimitive] using h code[pc] (List.getElem_mem hlt)
      rw [exec, List.getElem?_toArray, List.getElem?_eq_getElem hlt]
      simp only [hb, ih, Nat.add_right_comm pc 1 fuel, Nat.add_assoc]

/-! ## Machines -/

namespace Machine

/-- The first run is cut off and wrote the front of what the second one writes, or the two are alike in all but the
step limit of their machines. -/
def Result.Truncates (ran ran' : Result) : Prop :=
  (ran.verdict.isCut = false → ran'.verdict = ran.verdict ∧ ran'.output = ran.output ∧
    ran'.machine.tape = ran.machine.tape ∧ ran'.machine.ptr = ran.machine.ptr) ∧
  (ran.verdict.isCut = true → ran.output <+: ran'.output)

variable {m m' : Machine} {limit limit' : Nat} {input : Bytes}

/-- **A larger limit changes only runs that are cut off**, and these only by going on. -/
theorem runWithin_truncates (hstart : m.start input = m'.start input) (hle : limit ≤ limit') (code : Bytes) :
    (m.runWithin limit code input).Truncates (m'.runWithin limit' code input) := by
  cases hj : JumpTable.ofCode code with
  | error pos =>
    obtain ⟨htape, hptr⟩ : m.tape = m'.tape ∧ m.ptr = m'.ptr := by simpa [start] using hstart
    simp only [runWithin, hj]
    refine ⟨fun _ => ⟨rfl, rfl, htape.symm, hptr.symm⟩, fun hcut => ?_⟩
    cases hcut
  | ok jumps =>
    rw [runWithin_eq hj, runWithin_eq hj, ← hstart]
    refine ⟨fun h => ?_, output_of_le hle⟩
    rw [exec_of_le hle h]
    exact ⟨rfl, rfl, rfl, rfl⟩

theorem runWithin_silent {code : Bytes} (h : ∀ b ∈ code, isPrimitive b = false) (m : Machine) (limit : Nat)
    (input : Bytes) :
    (m.runWithin limit code input).verdict = if code.length ≤ limit then .done else .tooLong limit := by
  obtain ⟨jumps, hj⟩ :=
    JumpTable.ofCode_of_balanced (Balanced.of_straight fun b hb => straight_of_not_primitive (h b hb))
  rw [runWithin_eq hj, result, start, exec_silent h, Nat.zero_add]
  split <;> rfl

/-! ## Limits that are words -/

/-- The limit that a number of steps asks for; zero stands for ten million. -/
def statedLimit (steps : Int) : Int := if steps = 0 then 10000000 else steps

/-- **The limit of a machine is the one it asks for**, none below zero; only the least word asks for the largest. -/
theorem limit_eq {steps : Int} (hlo : -wordBound ≤ steps) (hhi : steps < wordBound) (m : Machine) :
    ({ m with steps } : Machine).limit = if steps = -wordBound then wordBound else (statedLimit steps).toNat := by
  unfold limit statedLimit
  simp only
  by_cases hzero : steps = 0
  · rw [if_pos hzero, if_pos hzero, if_neg (by rw [hzero]; decide)]
    rfl
  rw [if_neg hzero, if_neg hzero]
  by_cases hleast : steps = -wordBound
  · rw [if_pos hleast, hleast]
    decide
  · rw [if_neg hleast, wrap64_eq_self (by omega) (by omega), Int.sub_add_cancel]

theorem limit_least (m : Machine) : ({ m with steps := -wordBound } : Machine).limit = wordBound := by
  rw [limit_eq (Int.le_refl _) (by decide), if_pos rfl]

/-- Some step limit lets a run come to its end exactly when `wordBound` steps do. -/
theorem exists_steps_iff (m : Machine) (code input : Bytes) :
    (∃ steps : Int, -wordBound ≤ steps ∧ steps < wordBound ∧
      (({ m with steps } : Machine).run code input).verdict.isCut = false) ↔
      (m.runWithin wordBound code input).verdict.isCut = false := by
  constructor
  · rintro ⟨steps, _, _, h⟩
    rw [run_eq_runWithin, verdict_runWithin_steps] at h
    have hlonger : (m.runWithin _ code input).Truncates (m.runWithin wordBound code input) :=
      runWithin_truncates rfl (limit_le { m with steps }) code
    rw [(hlonger.1 h).1]
    exact h
  · intro h
    refine ⟨-wordBound, Int.le_refl _, by decide, ?_⟩
    rw [run_eq_runWithin, verdict_runWithin_steps, limit_least]
    exact h

theorem statedLimit_lt {steps : Int} (h : steps < wordBound) : (statedLimit steps).toNat < wordBound := by
  have hpos : 0 < wordBound := by decide
  unfold statedLimit
  split
  · decide
  · omega

/-- Blanks that any other limit stops on are read to their end under the least word. -/
theorem least_not_truncates {steps : Int} (hlo : -wordBound ≤ steps) (hhi : steps < wordBound)
    (hne : steps ≠ -wordBound) (m : Machine) (input : Bytes) :
    let code : Bytes := List.replicate ((statedLimit steps).toNat + 1) 0x20
    ¬ (({ m with steps := -wordBound } : Machine).run code input).Truncates
      (({ m with steps } : Machine).run code input) := by
  intro code htruncates
  have hblank : ∀ b ∈ code, isPrimitive b = false := by
    intro b hb
    rw [(List.mem_replicate.1 hb).2]
    decide
  have hlength : code.length = (statedLimit steps).toNat + 1 := List.length_replicate
  have hdone : (({ m with steps := -wordBound } : Machine).run code input).verdict = .done := by
    rw [run_eq_runWithin, runWithin_silent hblank, limit_eq (Int.le_refl _) (by decide), if_pos rfl, hlength,
      if_pos (Nat.succ_le_of_lt (statedLimit_lt hhi))]
  have hcut : (({ m with steps } : Machine).run code input).verdict = .tooLong (statedLimit steps).toNat := by
    rw [run_eq_runWithin, runWithin_silent hblank, limit_eq hlo hhi, if_neg hne, hlength, if_neg (by omega)]
  have hsame := (htruncates.1 (by rw [hdone]; rfl)).1
  rw [hdone, hcut] at hsame
  cases hsame

theorem limit_mono {steps steps' : Int} (hlo : -wordBound ≤ steps) (hhi : steps < wordBound)
    (hlo' : -wordBound ≤ steps') (hhi' : steps' < wordBound) (hle : statedLimit steps ≤ statedLimit steps')
    (hleast : steps = -wordBound → steps' = -wordBound) (m : Machine) :
    ({ m with steps } : Machine).limit ≤ ({ m with steps := steps' } : Machine).limit := by
  rw [limit_eq hlo hhi, limit_eq hlo' hhi']
  have hbound := statedLimit_lt hhi
  by_cases hs : steps = -wordBound
  · exact Nat.le_of_eq (by rw [if_pos hs, if_pos (hleast hs)])
  · rw [if_neg hs]
    split <;> omega

/-- **A step limit only cuts runs off, except the least word.** Of two limits the smaller one gives the same run, or
the front of it, on every machine, code and input. It fails to do so exactly when it is the least word and the other
one is not. -/
theorem run_truncates_iff (steps steps' : Int) (hlo : -wordBound ≤ steps) (hhi : steps < wordBound)
    (hlo' : -wordBound ≤ steps') (hhi' : steps' < wordBound) (hle : statedLimit steps ≤ statedLimit steps') :
    (∀ (m : Machine) (code input : Bytes), 0 ≤ m.ptr → m.ptr < m.tape.size →
      (({ m with steps } : Machine).run code input).Truncates (({ m with steps := steps' } : Machine).run code input)) ↔
      (steps = -wordBound → steps' = -wordBound) := by
  constructor
  · rintro hall rfl
    refine Decidable.byContradiction fun hne => ?_
    exact least_not_truncates hlo' hhi' hne (fresh 1) [] (hall (fresh 1) _ [] (by decide) (by decide))
  · intro hleast m code input _ _
    rw [run_eq_runWithin, run_eq_runWithin]
    refine runWithin_truncates ?_ (limit_mono hlo hhi hlo' hhi' hle hleast m) code
    rfl

/-- Five steps against the ten million that zero stands for: a loop is cut off after its first output, and a walk off
the tape ends as it does with more steps. -/
theorem run_truncates_iff_five :
    let m : Machine := { tape := #[3, 0], ptr := 0, steps := 5 }
    let patient : Machine := { m with steps := 0 }
    (m.run (ascii "[.->+<]") []).verdict = .tooLong 5 ∧
      (m.run (ascii "[.->+<]") []).output <+: (patient.run (ascii "[.->+<]") []).output ∧
      (patient.run (ascii "+.<") []).verdict = (m.run (ascii "+.<") []).verdict := by
  intro m patient
  have hall := (run_truncates_iff 5 0 (by decide) (by decide) (by decide) (by decide) (by decide)).2 (by decide) m
  have hcut : (m.run (ascii "[.->+<]") []).verdict = .tooLong 5 := by decide
  refine ⟨hcut, (hall (ascii "[.->+<]") [] (by decide) (by decide)).2 (by rw [hcut]; rfl), ?_⟩
  exact ((hall (ascii "+.<") [] (by decide) (by decide)).1 (by decide)).1

/-- The least word is no limit: it is below all others, and the run that it is to stop at once is done. -/
theorem least_steps_run_on :
    let m : Machine := { tape := #[0], ptr := 0, steps := -wordBound }
    let stopped : Machine := { m with steps := -1 }
    statedLimit m.steps ≤ statedLimit stopped.steps ∧
      (m.run (ascii ".") []).verdict = .done ∧ (m.run (ascii ".") []).output = [0] ∧
      (stopped.run (ascii ".") []).verdict = .tooLong 0 ∧ (stopped.run (ascii ".") []).output = [] := by
  decide

end Machine

end StackTape

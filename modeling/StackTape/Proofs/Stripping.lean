import StackTape.Proofs.Duration
import StackTape.Proofs.Listing

/-!
# Comments never change a run

`strip` takes the comments out of a code text, any text at all. The two texts then have different jump tables
and take different numbers of steps, but their runs go through the same stores: `Aligned` pairs the places of
the two texts with the same symbols behind them. A run of the commented text steps over a comment while the
other one stands still; every other step is taken by both (`Aligned.step`).

So a run without comments never takes longer (`stops_strip`), and a run with comments takes at most one
passage of the code longer for each step (`stops_of_strip`). `Machine.run_strip` says what this means for
runs under a limit. A limit is a word, and so comments may take more time than any machine has
(`Machine.run_strip_overlong`).
-/

namespace StackTape

/-- The verdict without the position in the code. -/
def Verdict.unplaced : Verdict → Verdict
  | .unmatched _ => .unmatched 0
  | .outOfRange _ ptr => .outOfRange 0 ptr
  | .tooLong _ => .tooLong 0
  | v => v

theorem Verdict.isCut_unplaced (v : Verdict) : v.unplaced.isCut = v.isCut := by
  cases v <;> rfl

theorem Verdict.unplaced_eq_done {v : Verdict} : v.unplaced = .done ↔ v = .done := by
  cases v <;> simp [unplaced]

/-! ## Brackets -/

theorem strip_loop (t u : Bytes) : strip (Symbol.enter.byte :: (t ++ Symbol.leave.byte :: u)) =
    Symbol.enter.byte :: (strip t ++ Symbol.leave.byte :: strip u) := by
  simp [strip_cons, isPrimitive_byte]

theorem Balanced.strip {t : Bytes} (h : Balanced t) : Balanced (strip t) := by
  induction h with
  | nil => exact .nil
  | straight hb _ ih =>
    rw [strip_cons]
    split
    · exact .straight hb ih
    · exact ih
  | loop _ _ iht ihu =>
    rw [strip_loop]
    exact .loop iht ihu

/-- A stretch without symbols in front of a text. -/
theorem Balanced.of_silent_append {t u : Bytes} (ht : ∀ b ∈ t, ¬ isPrimitive b = true) (hu : Balanced u) :
    Balanced (t ++ u) :=
  (of_straight fun b hb => straight_of_not_primitive (by simpa using ht b hb)).append hu

theorem Balanced.of_strip {t code : Bytes} (h : Balanced t) (hcode : StackTape.strip code = t) : Balanced code := by
  induction h generalizing code with
  | nil =>
    refine .of_straight fun b hb => straight_of_not_primitive ?_
    simpa using List.filter_eq_nil_iff.1 hcode b hb
  | straight hb _ ih =>
    obtain ⟨before, rest, rfl, hbefore, _, hrest⟩ := List.filter_eq_cons_iff.1 hcode
    exact .of_silent_append hbefore (.straight hb (ih hrest))
  | loop _ _ iht ihu =>
    obtain ⟨before, rest, rfl, hbefore, _, hrest⟩ := List.filter_eq_cons_iff.1 hcode
    obtain ⟨inner, behind, rfl, hinner, hbehind⟩ := List.filter_eq_append_iff.1 hrest
    obtain ⟨middle, after, rfl, hmiddle, _, hafter⟩ := List.filter_eq_cons_iff.1 hbehind
    have hbody : Balanced (inner ++ middle) := by
      have := Balanced.of_silent_append hmiddle .nil
      rw [List.append_nil] at this
      exact (iht hinner).append this
    rw [← List.append_assoc]
    exact .of_silent_append hbefore (.loop hbody (ihu hafter))

/-- Brackets pair up with comments as they do without. -/
theorem balanced_strip_iff {code : Bytes} : Balanced (strip code) ↔ Balanced code :=
  ⟨fun h => h.of_strip rfl, Balanced.strip⟩

/-! ## The same place with and without comments -/

/-- The second configuration is at the same symbol as the first, but in the text without comments. -/
inductive Aligned (code : Bytes) : Config → Config → Prop
  | intro {pre post : Bytes} (s : Store) : code = pre ++ post →
    Aligned code ⟨pre.length, s⟩ ⟨(strip pre).length, s⟩

/-- The ends differ in nothing but the position. -/
def Echo (r r' : Verdict × Store) : Prop := r'.1.unplaced = r.1.unplaced ∧ r'.2 = r.2

/-- Both steps can be taken and lead to the same place, or both end the run in the same way. -/
def SameStep (code : Bytes) : Except (Verdict × Store) Config → Except (Verdict × Store) Config → Prop
  | .ok c, .ok d => Aligned code c d
  | .error r, .error r' => Echo r r'
  | _, _ => False

namespace SameStep

variable {code : Bytes} {x : Except (Verdict × Store) Config}

theorem ok {c : Config} (h : SameStep code (.ok c) x) : ∃ d, x = .ok d ∧ Aligned code c d := by
  cases x with
  | ok d => exact ⟨d, rfl, h⟩
  | error => cases h

theorem ok_right {d : Config} (h : SameStep code x (.ok d)) : ∃ c, x = .ok c ∧ Aligned code c d := by
  cases x with
  | ok c => exact ⟨c, rfl, h⟩
  | error => cases h

theorem error {r : Verdict × Store} (h : SameStep code (.error r) x) : ∃ r', x = .error r' ∧ Echo r r' := by
  cases x with
  | ok => cases h
  | error r' => exact ⟨r', rfl, h⟩

theorem error_right {r' : Verdict × Store} (h : SameStep code x (.error r')) : ∃ r, x = .error r ∧ Echo r r' := by
  cases x with
  | ok => cases h
  | error r => exact ⟨r, rfl, h⟩

end SameStep

theorem Aligned.symbol {code pre post : Bytes} {b : UInt8} (s : Store) (hcode : code = pre ++ b :: post)
    (hb : isPrimitive b = true) : Aligned code ⟨pre.length + 1, s⟩ ⟨(strip pre).length + 1, s⟩ := by
  have hnext : code = (pre ++ [b]) ++ post := by simp [hcode]
  simpa [strip_cons, hb] using Aligned.intro s hnext

theorem Aligned.comment {code pre post : Bytes} {b : UInt8} (s : Store) (hcode : code = pre ++ b :: post)
    (hb : isPrimitive b = false) : Aligned code ⟨pre.length + 1, s⟩ ⟨(strip pre).length, s⟩ := by
  have hnext : code = (pre ++ [b]) ++ post := by simp [hcode]
  simpa [strip_cons, hb] using Aligned.intro s hnext

theorem Aligned.pc_le {code : Bytes} {c d : Config} (h : Aligned code c d) : c.pc ≤ code.length := by
  obtain @⟨pre, post, s, hcode⟩ := h
  simp [hcode]

section
variable {code : Array UInt8} {jumps : JumpTable} {c : Config}

/-- What an action does to a configuration. -/
theorem step_action {a : Act} (h : code[c.pc]? = some a.byte) :
    step code jumps c =
      if a.usesCell && c.store.cell?.isNone then .error (.badIndex c.store.ptr c.store.tape.size, c.store)
      else if (c.store.act a).inRange then .ok ⟨c.pc + 1, c.store.act a⟩
      else .error (.outOfRange c.pc (c.store.act a).ptr, c.store.act a) := by
  have hs : Symbol.ofByte? a.byte = some (.act a) := Symbol.ofByte?_byte (.act a)
  simp only [step, h, hs]

theorem step_bracket_outside {b : UInt8} (h : code[c.pc]? = some b) (hb : ¬ Straight b)
    (hcell : c.store.cell? = none) :
    step code jumps c = .error (.badIndex c.store.ptr c.store.tape.size, c.store) := by
  rcases not_straight_iff.1 hb with rfl | rfl <;> simp only [step, h, Symbol.ofByte?_byte, hcell]

end

section
variable {p q : Image} (hq : q.code = strip p.code)
include hq

theorem same_action {pre post : Bytes} {a : Act} (hcode : p.code = pre ++ a.byte :: post) (s : Store) :
    SameStep p.code (step p.code.toArray p.jumps ⟨pre.length, s⟩)
      (step q.code.toArray q.jumps ⟨(strip pre).length, s⟩) := by
  have ha : isPrimitive a.byte = true := isPrimitive_byte (.act a)
  have hcode' : q.code = strip pre ++ a.byte :: strip post := by simp [hq, hcode, strip_cons, ha]
  rw [step_action (Image.getElem?_code hcode), step_action (Image.getElem?_code hcode')]
  split
  · exact ⟨rfl, rfl⟩
  · split
    · exact Aligned.symbol _ hcode ha
    · exact ⟨rfl, rfl⟩

/-- A bracket leads both runs into its loop, or both past it. -/
theorem same_bracket {pre post : Bytes} {b : UInt8} (hcode : p.code = pre ++ b :: post) (hb : ¬ Straight b)
    (s : Store) : SameStep p.code (step p.code.toArray p.jumps ⟨pre.length, s⟩)
      (step q.code.toArray q.jumps ⟨(strip pre).length, s⟩) := by
  have hprim : isPrimitive b = true := by
    rcases not_straight_iff.1 hb with rfl | rfl <;> exact isPrimitive_byte _
  have hcode' : q.code = strip pre ++ b :: strip post := by simp [hq, hcode, strip_cons, hprim]
  cases hv : s.cell? with
  | none =>
    rw [step_bracket_outside (Image.getElem?_code hcode) hb hv,
      step_bracket_outside (Image.getElem?_code hcode') hb hv]
    exact ⟨rfl, rfl⟩
  | some v =>
    have hbal : Balanced p.code := JumpTable.ofCode_ok_iff.1 ⟨_, p.matched⟩
    obtain ⟨before, t, after, hloop, ht, hplace⟩ :=
      hbal.around (i := pre.length) (by rw [hcode]; simp) hb
    have hloop' : q.code = strip before ++ Symbol.enter.byte :: (strip t ++ Symbol.leave.byte :: strip after) := by
      rw [hq, hloop, strip_append, strip_loop]
    have hclose : p.code = (before ++ Symbol.enter.byte :: t) ++ Symbol.leave.byte :: after := by simp [hloop]
    -- both texts have the loop over the same body, so the two places to go to correspond
    have htarget : Aligned p.code
        ⟨if v = 0 then before.length + t.length + 2 else before.length + 1, s⟩
        ⟨if v = 0 then (strip before).length + (strip t).length + 2 else (strip before).length + 1, s⟩ := by
      split
      · simpa [strip_cons, isPrimitive_byte, Nat.add_assoc] using Aligned.symbol s hclose (isPrimitive_byte .leave)
      · exact Aligned.symbol s hloop (isPrimitive_byte .enter)
    rcases hplace with hlen | hlen
    · obtain ⟨rfl, _⟩ := List.append_inj (hcode.symm.trans hloop) hlen
      rw [Image.step_enter_cell hloop ht hv, Image.step_enter_cell hloop' ht.strip hv]
      exact htarget
    · obtain ⟨rfl, _⟩ := List.append_inj (hcode.symm.trans hclose) (by simp [hlen]; omega)
      have hlen' : (strip (before ++ Symbol.enter.byte :: t)).length = (strip before).length + 1 + (strip t).length := by
        simp [strip_cons, isPrimitive_byte]
        omega
      rw [hlen, hlen', Image.step_leave_cell hloop ht hv, Image.step_leave_cell hloop' ht.strip hv]
      exact htarget

/-- From the same place, either the run with comments steps over one, or both runs do the same. -/
theorem Aligned.step {c d : Config} (h : Aligned p.code c d) :
    (∃ c', StackTape.step p.code.toArray p.jumps c = .ok c' ∧ Aligned p.code c' d ∧ c'.pc = c.pc + 1) ∨
      SameStep p.code (StackTape.step p.code.toArray p.jumps c) (StackTape.step q.code.toArray q.jumps d) := by
  obtain @⟨pre, post, s, hcode⟩ := h
  cases post with
  | nil =>
    have hend : StackTape.step p.code.toArray p.jumps ⟨pre.length, s⟩ = .error (.done, s) := step_end (by simp [hcode])
    have hend' : StackTape.step q.code.toArray q.jumps ⟨(strip pre).length, s⟩ = .error (.done, s) :=
      step_end (by simp [hq, hcode])
    rw [hend, hend']
    exact .inr ⟨rfl, rfl⟩
  | cons b post =>
    cases hb : isPrimitive b with
    | false => exact .inl ⟨_, Image.step_comment hcode hb s, .comment s hcode hb, rfl⟩
    | true =>
      right
      by_cases hstraight : Straight b
      · obtain ⟨a, rfl⟩ := hstraight.eq_act hb
        exact same_action hq hcode s
      · exact same_bracket hq hcode hstraight s

/-! ## Whole runs -/

/-- A run without comments comes to the same end in no more steps. -/
theorem stops_strip {n : Nat} {c d : Config} {r : Verdict × Store}
    (h : Stops p.code.toArray p.jumps n c r) (hcd : Aligned p.code c d) :
    ∃ k r', Stops q.code.toArray q.jumps k d r' ∧ k ≤ n ∧ Echo r r' := by
  induction h generalizing d with
  | here hs =>
    obtain ⟨c', hc', _⟩ | hsame := hcd.step hq
    · rw [hs] at hc'
      cases hc'
    · rw [hs] at hsame
      obtain ⟨r', hr', hecho⟩ := hsame.error
      exact ⟨0, r', .here hr', Nat.le_refl 0, hecho⟩
  | next hs _ ih =>
    obtain ⟨c', hc', hcd', _⟩ | hsame := hcd.step hq
    · rw [hs] at hc'
      cases hc'
      obtain ⟨k, r', hk, hle, hecho⟩ := ih hcd'
      exact ⟨k, r', hk, by omega, hecho⟩
    · rw [hs] at hsame
      obtain ⟨d', hd', hcd'⟩ := hsame.ok
      obtain ⟨k, r', hk, hle, hecho⟩ := ih hcd'
      exact ⟨k + 1, r', .next hd' hk, by omega, hecho⟩

/-- A run with comments gets to its next symbol, or to the end of the code. -/
theorem reaches_symbol {c d : Config} (h : Aligned p.code c d) :
    ∃ j c', Reaches p.code.toArray p.jumps j c c' ∧ c'.pc = c.pc + j ∧ Aligned p.code c' d ∧
      SameStep p.code (step p.code.toArray p.jumps c') (step q.code.toArray q.jumps d) := by
  induction hrest : p.code.length - c.pc generalizing c with
  | zero =>
    obtain ⟨c', _, hcd', hpc⟩ | hsame := h.step hq
    · have := hcd'.pc_le
      omega
    · exact ⟨0, c, .refl c, rfl, h, hsame⟩
  | succ rest ih =>
    obtain ⟨c', hc', hcd', hpc⟩ | hsame := h.step hq
    · obtain ⟨j, c'', hreach, hpc', hcd'', hsame⟩ := ih hcd' (by omega)
      exact ⟨j + 1, c'', .step hc' hreach, by omega, hcd'', hsame⟩
    · exact ⟨0, c, .refl c, rfl, h, hsame⟩

/-- A run with comments comes to the same end. It passes over the code at most once before each step. -/
theorem stops_of_strip {k : Nat} {c d : Config} {r' : Verdict × Store}
    (h : Stops q.code.toArray q.jumps k d r') (hcd : Aligned p.code c d) :
    ∃ n r, Stops p.code.toArray p.jumps n c r ∧ n ≤ (k + 1) * p.code.length ∧ Echo r r' := by
  induction h generalizing c with
  | here hs =>
    obtain ⟨j, c', hreach, hpc, hcd', hsame⟩ := reaches_symbol hq hcd
    rw [hs] at hsame
    obtain ⟨r, hr, hecho⟩ := hsame.error_right
    have := hcd'.pc_le
    exact ⟨j, r, .after hreach (.here hr), by omega, hecho⟩
  | @next k d d' r' hs _ ih =>
    obtain ⟨j, c', hreach, hpc, hcd', hsame⟩ := reaches_symbol hq hcd
    rw [hs] at hsame
    obtain ⟨c'', hc'', hcd''⟩ := hsame.ok_right
    obtain ⟨n, r, hn, hle, hecho⟩ := ih hcd''
    have hlt : c'.pc < p.code.length := by simpa using step_pc_lt hc''
    refine ⟨j + (n + 1), r, .after hreach (.next hc'' hn), ?_, hecho⟩
    rw [Nat.succ_mul]
    omega

end

/-- A limit that allows a run allows every run that is not longer and ends in the same way. -/
theorem Echo.allows {r r' : Verdict × Store} (h : Echo r r') {fuel n k : Nat} (hle : k ≤ n)
    (hf : Allows fuel n r.1) : Allows fuel k r'.1 := by
  obtain hf | ⟨rfl, hdone⟩ := hf
  · exact .inl (by omega)
  · have hdone' : r'.1 = .done := by
      rw [← Verdict.unplaced_eq_done, h.1, hdone]
      rfl
    rcases Nat.lt_or_eq_of_le hle with hlt | heq
    · exact .inl hlt
    · exact .inr ⟨heq, hdone'⟩

/-! ## Machines -/

namespace Machine

/-- The results differ in nothing but the position of the verdict and the step limit of the machine. -/
def Result.Agrees (r r' : Result) : Prop :=
  r.verdict.unplaced = r'.verdict.unplaced ∧ r.output = r'.output ∧ r.machine.tape = r'.machine.tape ∧
    r.machine.ptr = r'.machine.ptr

variable {m m' : Machine} {limit limit' : Nat} {code input : Bytes}

theorem result_agrees {r r' : Verdict × Store} (h : Echo r r') : (m.result r').Agrees (m.result r) := by
  obtain ⟨hverdict, hstore⟩ := h
  simp only [Result.Agrees, result, hverdict, hstore, and_self]

theorem Result.Agrees.symm {r r' : Result} (h : r.Agrees r') : r'.Agrees r :=
  ⟨h.1.symm, h.2.1.symm, h.2.2.1.symm, h.2.2.2.symm⟩

theorem Result.Agrees.trans {r r' r'' : Result} (h : r.Agrees r') (h' : r'.Agrees r'') : r.Agrees r'' :=
  ⟨h.1.trans h'.1, h.2.1.trans h'.2.1, h.2.2.1.trans h'.2.2.1, h.2.2.2.trans h'.2.2.2⟩

theorem Result.Agrees.isCut {r r' : Result} (h : r.Agrees r') : r.verdict.isCut = r'.verdict.isCut := by
  rw [← Verdict.isCut_unplaced, h.1, Verdict.isCut_unplaced]

theorem Result.Truncates.agrees {r r' : Result} (h : r.Truncates r') (hr : r.verdict.isCut = false) : r.Agrees r' := by
  obtain ⟨hverdict, hout, htape, hptr⟩ := h.1 hr
  exact ⟨by rw [hverdict], hout.symm, htape.symm, hptr.symm⟩

/-- Two limits that do not cut a run off make no difference. -/
theorem agrees_of_not_cut (hstart : m.start input = m'.start input)
    (h : (m.runWithin limit code input).verdict.isCut = false)
    (h' : (m'.runWithin limit' code input).verdict.isCut = false) :
    (m.runWithin limit code input).Agrees (m'.runWithin limit' code input) := by
  rcases Nat.le_total limit limit' with hle | hle
  · exact (runWithin_truncates hstart hle code).agrees h
  · exact ((runWithin_truncates hstart.symm hle code).agrees h').symm

/-- A text with unmatched brackets is not run, with comments or without. -/
theorem agrees_of_unmatched (hcode : ¬ Balanced code) (limit limit' : Nat) :
    (m.runWithin limit' (strip code) input).Agrees (m.runWithin limit code input) := by
  have hnone : ∀ t, ¬ Balanced t → ∃ pos, JumpTable.ofCode t = .error pos := by
    intro t ht
    cases hj : JumpTable.ofCode t with
    | error pos => exact ⟨pos, rfl⟩
    | ok jumps => exact absurd (JumpTable.ofCode_ok_iff.1 ⟨jumps, hj⟩) ht
  obtain ⟨pos, hpos⟩ := hnone code hcode
  obtain ⟨pos', hpos'⟩ := hnone (strip code) (mt balanced_strip_iff.1 hcode)
  simp only [runWithin, hpos, hpos']
  exact ⟨rfl, rfl, rfl, rfl⟩

/-- A balanced text is an image, and so is the text without comments. -/
theorem exists_images (hcode : Balanced code) : ∃ p q : Image, p.code = code ∧ q.code = strip code := by
  obtain ⟨jumps, hj⟩ := JumpTable.ofCode_ok_iff.2 hcode
  obtain ⟨jumps', hj'⟩ := JumpTable.ofCode_ok_iff.2 hcode.strip
  exact ⟨⟨code, jumps, hj⟩, ⟨strip code, jumps', hj'⟩, rfl, rfl⟩

theorem aligned_start (m : Machine) (code input : Bytes) : Aligned code (m.start input) (m.start input) :=
  .intro _ (List.nil_append code).symm

/-- A run that is not cut off ends as the run without comments does under the same limit. -/
theorem runWithin_strip (h : (m.runWithin limit code input).verdict.isCut = false) :
    (m.runWithin limit (strip code) input).Agrees (m.runWithin limit code input) := by
  by_cases hcode : Balanced code
  · obtain ⟨p, q, rfl, hq⟩ := exists_images hcode
    rw [runWithin_eq p.matched] at h
    obtain ⟨n, hn, hf⟩ := stops_of_exec rfl h
    obtain ⟨k, r', hk, hle, hecho⟩ := stops_strip hq hn (aligned_start m _ input)
    rw [← hq, runWithin_eq p.matched, runWithin_eq q.matched, exec_of_stops hk (hecho.allows hle hf)]
    exact result_agrees hecho
  · exact agrees_of_unmatched hcode limit limit

/-- A run without comments that is not cut off ends as the run with comments does under a limit that leaves
time for them. -/
theorem runWithin_of_strip (h : (m.runWithin limit (strip code) input).verdict.isCut = false)
    (hlimit : (limit + 1) * (code.length + 1) ≤ limit') :
    (m.runWithin limit' code input).Agrees (m.runWithin limit (strip code) input) := by
  by_cases hcode : Balanced code
  · obtain ⟨p, q, rfl, hq⟩ := exists_images hcode
    rw [← hq, runWithin_eq q.matched] at h ⊢
    obtain ⟨k, hk, hf⟩ := stops_of_exec rfl h
    obtain ⟨n, r, hn, hle, hecho⟩ := stops_of_strip hq hk (aligned_start m _ input)
    have hkle : k ≤ limit := by obtain hf | ⟨hf, _⟩ := hf <;> omega
    have hlt : n < limit' := by
      have hmul : (k + 1) * p.code.length ≤ (limit + 1) * p.code.length := Nat.mul_le_mul_right _ (by omega)
      rw [Nat.mul_succ] at hlimit
      omega
    rw [runWithin_eq p.matched, exec_of_stops hn (.inl hlt)]
    exact (result_agrees hecho).symm
  · exact (agrees_of_unmatched hcode limit' limit).symm

/-- When the run without comments is not cut off, the run with comments ends like it, or it is cut off itself. -/
theorem run_steps_strip (h : (m.run (strip code) input).verdict.isCut = false) (steps : Int) :
    (({ m with steps } : Machine).run code input).verdict.isCut = true ∨
      (({ m with steps } : Machine).run code input).Agrees (m.run (strip code) input) := by
  rw [run_eq_runWithin] at h
  rw [run_eq_runWithin, run_eq_runWithin m]
  cases hcut : (({ m with steps } : Machine).runWithin _ code input).verdict.isCut with
  | true => exact .inl rfl
  | false =>
    have hstrip := runWithin_strip hcut
    exact .inr (hstrip.symm.trans (agrees_of_not_cut rfl (hstrip.isCut.trans hcut) h))

/-- **Comments never change a run**, whatever the code is. Brackets are unmatched with comments exactly when they
are without. A run that is not cut off ends as the run of the text without comments does under the same limit:
with the same verdict, apart from positions, the same output, tape and pointer.

When the run without comments is not cut off, the run with comments ends like it under every step limit that does not
cut it off. There is a step limit, no smaller than the one without comments, under which it does, exactly when the
greatest limit of a machine is enough for the comments. A limit that leaves time for one passage of the code before each
step is enough; if it is a word, it is the limit of a machine. -/
theorem run_strip (m : Machine) (code input : Bytes) :
    ((∃ pos, (m.run code input).verdict = .unmatched pos) ↔
      ∃ pos, (m.run (strip code) input).verdict = .unmatched pos) ∧
    ((m.run code input).verdict.isCut = false → (m.run (strip code) input).Agrees (m.run code input)) ∧
    ((m.run (strip code) input).verdict.isCut = false →
      (∀ steps, (({ m with steps } : Machine).run code input).verdict.isCut = true ∨
        (({ m with steps } : Machine).run code input).Agrees (m.run (strip code) input)) ∧
      ((∃ steps : Int, -wordBound ≤ steps ∧ steps < wordBound ∧ m.limit ≤ ({ m with steps } : Machine).limit ∧
          (({ m with steps } : Machine).run code input).Agrees (m.run (strip code) input)) ↔
        (m.runWithin wordBound code input).verdict.isCut = false) ∧
      (∀ limit, (m.limit + 1) * (code.length + 1) ≤ limit →
        (m.runWithin limit code input).Agrees (m.run (strip code) input)) ∧
      ((m.limit + 1) * (code.length + 1) < wordBound → ∃ steps : Int, m.limit ≤ steps ∧ 0 < steps ∧
        steps < wordBound ∧ (({ m with steps } : Machine).run code input).Agrees (m.run (strip code) input))) := by
  refine ⟨?_, ?_, fun h => ?_⟩
  · rw [run_eq_runWithin, run_eq_runWithin, unmatched_iff, unmatched_iff, balanced_strip_iff]
  · rw [run_eq_runWithin, run_eq_runWithin]
    exact runWithin_strip
  have hsteps := run_steps_strip h
  rw [run_eq_runWithin] at h
  refine ⟨hsteps, ⟨?_, fun hcut => ?_⟩, fun limit hlimit => ?_, fun hword => ?_⟩
  · rintro ⟨steps, hlo, hhi, _, hagrees⟩
    rw [← exists_steps_iff]
    refine ⟨steps, hlo, hhi, ?_⟩
    rw [hagrees.isCut, run_eq_runWithin]
    exact h
  · -- the least word stands for the greatest limit
    have hnot : (({ m with steps := -wordBound } : Machine).run code input).verdict.isCut = false := by
      rw [run_eq_runWithin, verdict_runWithin_steps, limit_least]
      exact hcut
    refine ⟨-wordBound, Int.le_refl _, by decide, ?_, (hsteps _).resolve_left (by rw [hnot]; simp)⟩
    rw [limit_least]
    exact limit_le m
  · rw [run_eq_runWithin]
    exact runWithin_of_strip h hlimit
  · have hpos : 0 < (m.limit + 1) * (code.length + 1) := Nat.mul_pos (Nat.succ_pos _) (Nat.succ_pos _)
    refine ⟨((m.limit + 1) * (code.length + 1) : Nat), ?_, by omega, by omega, ?_⟩
    · rw [Nat.mul_succ]
      omega
    · rw [run_steps m hpos hword, run_eq_runWithin]
      exact runWithin_of_strip h (Nat.le_refl _)

/-- A comment inside a loop, and a pointer that leaves the tape. Twenty steps are enough without the comments only;
with them, a thousand are. -/
theorem run_strip_commented :
    let m : Machine := { tape := #[0, 0], ptr := 0, steps := 1000 }
    let hurried : Machine := { tape := #[0, 0], ptr := 0, steps := 20 }
    let code := ascii "++ two [>+ move <-] > >"
    (m.run code []).verdict = .outOfRange 22 2 ∧ (m.run (strip code) []).Agrees (m.run code []) ∧
      (hurried.run code []).verdict = .tooLong 9 ∧ (hurried.run (strip code) []).verdict = .outOfRange 9 2 ∧
      (m.run code []).machine.tape = (hurried.run (strip code) []).machine.tape ∧
      ∃ steps : Int, 20 ≤ steps ∧ 0 < steps ∧ steps < wordBound ∧
        (({ hurried with steps } : Machine).run code []).Agrees (hurried.run (strip code) []) := by
  intro m hurried code
  have hrun : (m.run code []).verdict = .outOfRange 22 2 := by decide +kernel
  have hstrip : (hurried.run (strip code) []).verdict = .outOfRange 9 2 := by decide +kernel
  refine ⟨hrun, (run_strip m code []).2.1 (by rw [hrun]; rfl), by decide +kernel, hstrip, ?_⟩
  obtain ⟨hsteps, _, _, hword⟩ := (run_strip hurried code []).2.2 (by rw [hstrip]; rfl)
  constructor
  · have hm : ({ hurried with steps := 1000 } : Machine) = m := rfl
    have hagrees := hsteps 1000
    rw [hm, hrun] at hagrees
    exact (hagrees.resolve_left (by simp [Verdict.isCut])).2.2.1
  · have hlimit : hurried.limit = 20 := by decide +kernel
    have hlength : code.length = 23 := by decide +kernel
    rw [hlimit, hlength] at hword
    exact hword (by decide)

theorem strip_nest {inner : Bytes} (hinner : ∀ b ∈ inner, isPrimitive b = false) (k : Nat) :
    strip (nest inner k) = nest [] k := by
  induction k with
  | zero => exact List.filter_eq_nil_iff.2 fun b hb => by simp [hinner b hb]
  | succ k ih =>
    have hact (a : Act) : strip [a.byte] = [a.byte] := strip_symbol (.act a)
    simp only [nest, countdown, turn, strip_append, strip_cons, strip_nil, isPrimitive_byte, if_true, hact, ih]

/-- Seven countdowns around two hundred blanks. Without the blanks the run is done, within half of the steps that a
machine can have. With them it is cut off, whatever step limit the machine is given. -/
theorem run_strip_overlong :
    let m : Machine := limited 8 4611686018427387904
    let code := ascii "-[>-[>-[>-[>-[>-[>-[>" ++ List.replicate 200 0x20 ++ ascii "<-]<-]<-]<-]<-]<-]<-]"
    (m.run (strip code) []).verdict = .done ∧
      ∀ steps, ∃ pos, (({ m with steps } : Machine).run code []).verdict = .tooLong pos := by
  intro m code
  have hcode : code = nest (List.replicate 200 0x20) 7 := by decide +kernel
  have hblank : ∀ b ∈ List.replicate 200 0x20, isPrimitive b = false := by
    intro b hb
    rw [(List.mem_replicate.1 hb).2]
    decide
  rw [hcode]
  constructor
  · rw [strip_nest hblank, run_eq_runWithin, runWithin_nest_done (by simp) (by decide)]
    decide
  · intro steps
    exact run_nest_cut hblank (by decide) steps [] (by rw [List.length_replicate]; decide)

end Machine

end StackTape

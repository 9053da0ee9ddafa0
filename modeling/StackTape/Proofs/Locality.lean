import StackTape.Proofs.Correct

/-!
# What a stretch of a program can touch and see

A list of instructions works on the cells from the lowest depth on that the compiler goes through in it. Below, it
reaches only the variables that it names: it changes none but those of its `set`s, and it depends on none but those
of its `get`s. The list may stand anywhere in a program, at any depth, and what is on the tape before it is free.

`Local` says both about a single state, as a frame and as a statement about a second state that looks alike. It is
closed under sequences and branches, so it goes through an induction over the program (`local_instr_list`), and
the simulation carries it over to the tape (`run_local`).
-/

namespace StackTape

mutual

/-- The instructions that hold no others, in an instruction at all levels. -/
def Instr.leaves : Instr → List Instr
  | .stat body => listLeaves body
  | .ifThen test body => listLeaves test ++ listLeaves body
  | x => [x]

/-- The same in a list of instructions. -/
def listLeaves : List Instr → List Instr
  | [] => []
  | x :: rest => x.leaves ++ listLeaves rest

end

theorem Instr.leaves_simple {x : Instr} (hx : x.isSimple = true) : x.leaves = [x] := by
  cases x <;> first | rfl | cases hx

/-! ## Stacks that look alike -/

namespace Stack

/-- The stacks differ at most in cells below `lo` that are not among the seen ones. -/
structure Alike (lo : Nat) (seen : Nat → Prop) (s t : Stack) : Prop where
  depth : t.depth = s.depth
  input : t.input = s.input
  output : t.output = s.output
  cells : ∀ i, lo ≤ i ∨ seen i → t.cells i = s.cells i

namespace Alike

variable {lo : Nat} {seen : Nat → Prop} {s t : Stack}

theorem top (h : Alike lo seen s t) (hlo : lo ≤ s.depth) : t.top = s.top := by
  rw [Stack.top, Stack.top, h.depth]
  exact h.cells _ (.inl hlo)

theorem setCell (h : Alike lo seen s t) (i : Nat) (v : UInt8) : Alike lo seen (s.setCell i v) (t.setCell i v) := by
  refine ⟨h.depth, h.input, h.output, fun j hj => ?_⟩
  simp only [Stack.setCell]
  rw [h.cells j hj]

theorem setTop (h : Alike lo seen s t) (v : UInt8) : Alike lo seen (s.setTop v) (t.setTop v) := by
  rw [Stack.setTop, Stack.setTop, h.depth]
  exact h.setCell s.depth v

theorem push (h : Alike lo seen s t) (v : UInt8) : Alike lo seen (s.push v) (t.push v) := by
  rw [Stack.push, Stack.push, h.depth]
  have hset := h.setCell (s.depth + 1) v
  exact ⟨rfl, hset.input, hset.output, hset.cells⟩

theorem drop (h : Alike lo seen s t) : Alike lo seen s.drop t.drop := by
  have hset := h.setTop 0
  exact ⟨by rw [depth_drop, depth_drop, h.depth], hset.input, hset.output, hset.cells⟩

theorem write (h : Alike lo seen s t) (b : Bytes) : Alike lo seen (s.write b) (t.write b) :=
  ⟨h.depth, h.input, by rw [Stack.write, Stack.write, h.output], h.cells⟩

end Alike

/-! ## Local changes -/

/-- What `f` makes of `s`: below `lo` only touched cells change, and all stacks that look like `s` end alike. -/
structure Local (lo : Nat) (seen touched : Nat → Prop) (f : Stack → Stack) (s : Stack) : Prop where
  frame : ∀ i, i < lo → ¬touched i → (f s).cells i = s.cells i
  alike : ∀ t, Alike lo seen s t → Alike lo seen (f s) (f t)

namespace Local

variable {lo : Nat} {seen touched : Nat → Prop} {f g : Stack → Stack} {s : Stack}

theorem comp (hg : Local lo seen touched g (f s)) (hf : Local lo seen touched f s) :
    Local lo seen touched (fun r => g (f r)) s where
  frame i hi hnot := (hg.frame i hi hnot).trans (hf.frame i hi hnot)
  alike t ht := hg.alike _ (hf.alike t ht)

/-- Stacks that look alike take the same branch. -/
theorem branch (hlo : lo ≤ s.depth) (hf : Local lo seen touched f s) (hg : Local lo seen touched g s) :
    Local lo seen touched (fun r => if r.top = 0 then f r else g r) s := by
  by_cases h0 : s.top = 0
  · refine ⟨fun i hi hnot => ?_, fun t ht => ?_⟩
    · simpa only [if_pos h0] using hf.frame i hi hnot
    · have ht0 : t.top = 0 := (ht.top hlo).trans h0
      simpa only [if_pos h0, if_pos ht0] using hf.alike t ht
  · refine ⟨fun i hi hnot => ?_, fun t ht => ?_⟩
    · simpa only [if_neg h0] using hg.frame i hi hnot
    · have ht0 : t.top ≠ 0 := ht.top hlo ▸ h0
      simpa only [if_neg h0, if_neg ht0] using hg.alike t ht

theorem setCell {i : Nat} (v : Stack → UInt8) (hi : lo ≤ i ∨ touched i)
    (hv : ∀ t, Alike lo seen s t → v t = v s) : Local lo seen touched (fun r => r.setCell i (v r)) s where
  frame j hj hnot := by
    have hne : j ≠ i := by
      rintro rfl
      exact hi.elim (by omega) hnot
    simp only [Stack.setCell, if_neg hne]
  alike t ht := by
    rw [hv t ht]
    exact ht.setCell i (v s)

theorem setTop (v : UInt8 → UInt8) (hlo : lo ≤ s.depth) :
    Local lo seen touched (fun r => r.setTop (v r.top)) s where
  frame j hj _ := by simp only [Stack.setTop, Stack.setCell, if_neg (show j ≠ s.depth by omega)]
  alike t ht := by
    rw [ht.top hlo]
    exact ht.setTop _

theorem push (v : Stack → UInt8) (hlo : lo ≤ s.depth) (hv : ∀ t, Alike lo seen s t → v t = v s) :
    Local lo seen touched (fun r => r.push (v r)) s where
  frame j hj _ := by simp only [Stack.push, Stack.setCell, if_neg (show j ≠ s.depth + 1 by omega)]
  alike t ht := by
    rw [hv t ht]
    exact ht.push _

theorem drop (hlo : lo ≤ s.depth) : Local lo seen touched Stack.drop s where
  frame j hj _ := by simp only [Stack.drop, Stack.setTop, Stack.setCell, if_neg (show j ≠ s.depth by omega)]
  alike t ht := ht.drop

theorem combine (v : UInt8 → UInt8 → UInt8) (hlo : lo ≤ s.depth) (hbelow : lo ≤ s.depth - 1) :
    Local lo seen touched (·.combine v) s where
  frame j hj _ := by
    simp only [Stack.combine, Stack.drop, Stack.setTop, Stack.setCell, if_neg (show j ≠ s.depth by omega),
      if_neg (show j ≠ s.depth - 1 by omega)]
  alike t ht := by
    rw [Stack.combine, Stack.combine, ht.top hlo, ht.drop.top hbelow]
    exact ht.drop.setTop _

theorem read (hlo : lo ≤ s.depth) :
    Local lo seen touched (fun r => { r with input := r.input.tail }.push (r.input.headD 0)) s where
  frame j hj _ := by simp only [Stack.push, Stack.setCell, if_neg (show j ≠ s.depth + 1 by omega)]
  alike t ht := by
    have htail : Alike lo seen { s with input := s.input.tail } { t with input := t.input.tail } :=
      ⟨ht.depth, congrArg List.tail ht.input, ht.output, ht.cells⟩
    rw [ht.input] at htail ⊢
    exact htail.push _

theorem write (b : Stack → Bytes) (hb : ∀ t, Alike lo seen s t → b t = b s) :
    Local lo seen touched (fun r => r.write (b r)) s where
  frame _ _ _ := rfl
  alike t ht := by
    rw [hb t ht]
    exact ht.write _

end Local

end Stack

namespace Compile

open Stack

variable {lo : Nat} {seen touched : Nat → Prop} {s : Stack}

/-! ## Instructions -/

/-- An instruction without operands works on the top and, if it lowers the stack, on the cell below. -/
theorem local_basic (b : Basic) (hlo : lo ≤ s.depth) (hnext : lo ≤ s.depth + b.delta) :
    Local lo seen touched b.run s := by
  cases b with
  | clear => exact .setTop (fun _ => 0) hlo
  | inc => exact .setTop (· + 1) hlo
  | dec => exact .setTop (· - 1) hlo
  | bool => exact .setTop (fun b => if b = 0 then 0 else 1) hlo
  | copy => exact .push Stack.top hlo fun t ht => ht.top hlo
  | read => exact .read hlo
  | add | sub | mul =>
    simp only [Basic.delta] at hnext
    exact .combine _ hlo (by omega)
  | write =>
    have hwrite : Local lo seen touched (fun r => r.write [r.top]) s := .write _ fun t ht => by rw [ht.top hlo]
    exact (Local.drop (s := s.write [s.top]) hlo).comp hwrite

theorem local_simple {vars : List Bytes} {x : Instr} {b : Block} {δ : Int} (h : Lowers vars s.depth x b δ)
    (hlo : lo ≤ s.depth) (hnext : lo ≤ s.depth + δ) (hseen : ∀ y, x = .get y → seen (vars.idxOf y))
    (htouched : ∀ y, x = .set y → touched (vars.idxOf y)) : Local lo seen touched (x.run vars ·) s := by
  cases h with
  | basic b =>
    simp only [Instr.run]
    exact local_basic b hlo hnext
  | push =>
    simp only [Instr.run]
    exact .push _ hlo fun _ _ => rfl
  | addc =>
    simp only [Instr.run]
    exact .setTop (· + _) hlo
  | subc =>
    simp only [Instr.run]
    exact .setTop (· - _) hlo
  | get =>
    simp only [Instr.run]
    exact .push _ hlo fun t ht => ht.cells _ (.inr (hseen _ rfl))
  | set =>
    simp only [Instr.run]
    rename_i y slot _ _
    have hset : Local lo seen touched (fun r => r.setCell (vars.idxOf y) r.top) s :=
      .setCell _ (.inr (htouched _ rfl)) fun t ht => ht.top hlo
    exact (Local.drop (s := s.setCell (vars.idxOf y) s.top) hlo).comp hset
  | print t =>
    simp only [Instr.run]
    exact .write _ fun _ _ => rfl

/-- A program leaves a clean stack of the depth that the compiler has computed. -/
theorem clean_instr_list (c : Context) {s : Stack} (hc : s.Clean) :
    (∀ x level text next, instr c level s.depth x = .ok (text, next) →
      (x.run c.vars s).depth = next ∧ (x.run c.vars s).Clean) ∧
    ∀ xs level index text after, list c level s.depth index xs = .ok (text, after) →
      (runList c.vars s xs).depth = after ∧ (runList c.vars s xs).Clean := by
  refine ⟨fun x level text next h => ?_, fun xs level index text after h => ?_⟩
  · have hsim := (simulates_instr_list c (s.depth + (x.innerDepths s.depth).foldr max 0 + 2)).1 x _ _ _ _ h s rfl hc
      (by omega) fun d hd => by have := le_foldr_max hd; omega
    exact ⟨hsim.depth_eq, hsim.clean⟩
  · have hsim := (simulates_instr_list c ((listDepths s.depth xs).foldr max 0 + 2)).2 xs _ _ _ _ _ h s rfl hc
      fun d hd => Nat.add_le_add_right (le_foldr_max hd) 2
    exact ⟨hsim.depth_eq, hsim.clean⟩

/-- **A program is local**: it changes below `lo` the variables of its `set`s only, and depends on the variables of
its `get`s only, if `lo` is not above any depth that the compiler goes through. -/
theorem local_instr_list (c : Context) (lo : Nat) (seen touched : Nat → Prop) :
    (∀ x : Instr, ∀ level depth text next, instr c level depth x = .ok (text, next) →
      ∀ s : Stack, s.depth = depth → s.Clean → lo ≤ depth → lo ≤ next → (∀ d ∈ x.innerDepths depth, lo ≤ d) →
      (∀ y, .get y ∈ x.leaves → seen (c.vars.idxOf y)) → (∀ y, .set y ∈ x.leaves → touched (c.vars.idxOf y)) →
      Local lo seen touched (x.run c.vars ·) s) ∧
    ∀ xs : List Instr, ∀ level depth index text after, list c level depth index xs = .ok (text, after) →
      ∀ s : Stack, s.depth = depth → s.Clean → (∀ d ∈ listDepths depth xs, lo ≤ d) →
      (∀ y, .get y ∈ listLeaves xs → seen (c.vars.idxOf y)) →
      (∀ y, .set y ∈ listLeaves xs → touched (c.vars.idxOf y)) →
      Local lo seen touched (runList c.vars · xs) s := by
  apply Instr.induct
  case simple =>
    rintro x hx level _ text next h s rfl _ hlo hnext _ hseen htouched
    obtain ⟨b, δ, hb, he⟩ := instr_simple_ok hx h
    rw [Instr.leaves_simple hx] at hseen htouched
    have := (emit_ok he).1
    exact local_simple hb hlo (by omega) (fun y hy => hseen y (by simp [hy])) fun y hy => htouched y (by simp [hy])
  case stat =>
    intro body ih level depth text next h s hs hc _ _ hinner hseen htouched
    obtain ⟨_, code, _, hbody, _⟩ := instr_stat_ok h
    simp only [Instr.run]
    exact ih _ _ _ _ _ hbody s hs hc hinner hseen htouched
  case ifThen =>
    rintro test body ihTest ihBody level _ text next h s rfl hc hlo _ hinner hseen htouched
    simp only [Instr.innerDepths, Instr.leaves, List.mem_append] at hinner hseen htouched
    obtain ⟨_, testCode, bodyCode, _, _, htest, hbody, _⟩ := instr_ifThen_ok h
    -- either way the value of the test is dropped, one cell above the depth of the conditional
    obtain ⟨hdTest, hcTest⟩ := (clean_instr_list c hc).2 _ _ _ _ _ htest
    rw [← hdTest] at hbody hinner
    obtain ⟨hdBody, _⟩ := (clean_instr_list c hcTest).2 _ _ _ _ _ hbody
    have hTest := ihTest _ _ _ _ _ htest s rfl hc (fun d hd => hinner d (.inl hd)) (fun y hy => hseen y (.inl hy))
      fun y hy => htouched y (.inl hy)
    have hBody := ihBody _ _ _ _ _ hbody _ rfl hcTest (fun d hd => hinner d (.inr hd))
      (fun y hy => hseen y (.inr hy)) fun y hy => htouched y (.inr hy)
    have hbranch := Local.branch (s := runList c.vars s test) (by omega) (.drop (by omega))
      ((Local.drop (by omega)).comp hBody)
    simp only [Instr.run]
    exact hbranch.comp hTest
  case nil =>
    intro level depth index text after _ s _ _ _ _ _
    simp only [runList]
    exact ⟨fun _ _ _ => rfl, fun t ht => ht⟩
  case cons =>
    rintro x rest ihx ih level _ index text after h s rfl hc hlo hseen htouched
    simp only [listLeaves, List.mem_append] at hseen htouched
    obtain ⟨code, next, more, hx, hrest, rfl⟩ := list_cons_ok h
    obtain ⟨hd, hcx⟩ := (clean_instr_list c hc).1 _ _ _ _ hx
    rw [listDepths, ← instr_ok_depth hx, Int.toNat_natCast] at hlo
    have hnext : lo ≤ next := hlo _ (by simp [mem_listDepths_self])
    have hX := ihx _ _ _ _ hx s rfl hc (hlo _ (by simp)) hnext (fun d hd => hlo d (by simp [hd]))
      (fun y hy => hseen y (.inl hy)) fun y hy => htouched y (.inl hy)
    have hRest := ih _ _ _ _ _ hrest _ hd hcx (fun d hd => hlo d (by simp [hd])) (fun y hy => hseen y (.inr hy))
      fun y hy => htouched y (.inr hy)
    simp only [runList]
    exact hRest.comp hX

/-- The lowest depth that the compiler goes through in a list of instructions, nested blocks included. -/
def lowest (depth : Nat) (xs : List Instr) : Nat := (listDepths depth xs).foldr min depth

theorem lowest_le {depth d : Nat} {xs : List Instr} (h : d ∈ listDepths depth xs) : lowest depth xs ≤ d := by
  unfold lowest
  generalize listDepths depth xs = ds at h
  induction ds with
  | nil => simp at h
  | cons e ds ih =>
    rcases List.mem_cons.1 h with rfl | h
    · exact Nat.min_le_left ..
    · exact Nat.le_trans (Nat.min_le_right ..) (ih h)

end Compile

/-! ## Runs from any tape -/

namespace Machine

/-- The value of a cell, zero outside the tape. -/
def cell (m : Machine) (i : Nat) : UInt8 := m.tape[i]?.getD 0

/-- The stack that lies on the tape of a machine, with the pointer on its top. -/
def stack (m : Machine) (input : Bytes) : Stack :=
  { cells := m.cell, depth := m.ptr.toNat, input, output := [] }

/-- The machine can take over at the depth: the pointer is there, all cells above are zero, and there are two
cells above every depth of the instructions. -/
structure Ready (m : Machine) (depth : Nat) (xs : List Instr) : Prop where
  ptr : m.ptr = depth
  zeros : ∀ i < m.tape.size, depth < i → m.cell i = 0
  room : ∀ d ∈ listDepths depth xs, d + 3 ≤ m.tape.size

instance (m : Machine) (depth : Nat) (xs : List Instr) : Decidable (m.Ready depth xs) :=
  decidable_of_iff (m.ptr = depth ∧ (∀ i < m.tape.size, depth < i → m.cell i = 0) ∧
    ∀ d ∈ listDepths depth xs, d + 3 ≤ m.tape.size) ⟨fun h => ⟨h.1, h.2.1, h.2.2⟩, fun h => ⟨h.1, h.2, h.3⟩⟩

variable {m : Machine} {depth : Nat} {xs : List Instr} {input : Bytes}

theorem start_stack (h : 0 ≤ m.ptr) : m.start input = ⟨0, (m.stack input).onTape m.tape.size⟩ := by
  have htape : m.tape = Array.ofFn fun i : Fin m.tape.size => m.cell i :=
    Array.ext (by simp) fun i _ _ => by simp [cell]
  have hptr : m.ptr = m.ptr.toNat := by omega
  simp only [start, stack, Stack.onTape, ← htape, ← hptr]

/-- A crossing of all the code is a run of it on the stack of the machine. -/
theorem exec_of_crosses {hi : Nat} {I : Nat → Stack → Prop} {code : Bytes} {s : Stack}
    (h : Crosses hi I code (m.stack input) s) (hcode : Balanced code) (hptr : 0 ≤ m.ptr) (hhi : hi < m.tape.size) :
    ∃ jumps bound, JumpTable.ofCode code = .ok jumps ∧ ∀ limit, bound ≤ limit →
      exec code.toArray jumps limit (m.start input).pc (m.start input).store = (.done, s.onTape m.tape.size) := by
  obtain ⟨jumps, hj⟩ := JumpTable.ofCode_of_balanced hcode
  obtain ⟨n, hn⟩ := h.whole
  have hwalk := hn m.tape.size hhi ⟨code, jumps, hj⟩ rfl
  refine ⟨jumps, n, hj, fun limit hlimit => ?_⟩
  rw [start_stack hptr]
  exact hwalk.exec_done (by simp) hlimit

theorem cell_outside {i : Nat} (hi : m.tape.size ≤ i) : m.cell i = 0 := by
  rw [cell, Array.getElem?_eq_none hi]
  rfl

theorem depth_stack (hptr : m.ptr = depth) (input : Bytes) : (m.stack input).depth = depth := by
  simp [stack, hptr]

theorem Ready.depth_stack (hm : m.Ready depth xs) : (m.stack input).depth = depth :=
  Machine.depth_stack hm.ptr input

theorem Ready.clean_stack (hm : m.Ready depth xs) : (m.stack input).Clean := by
  intro i hi
  rw [hm.depth_stack] at hi
  by_cases hlt : i < m.tape.size
  · exact hm.zeros i hlt hi
  · exact cell_outside (Nat.le_of_not_lt hlt)

theorem cell_result {s : Stack} (hs : s.Clean) (hd : s.depth < m.tape.size) (i : Nat) :
    (m.result (.done, s.onTape m.tape.size)).machine.cell i = s.cells i := by
  by_cases hi : i < m.tape.size
  · rw [result, cell, Stack.getElem?_onTape hi, Option.getD_some]
  · rw [hs i (by omega)]
    exact cell_outside (by simpa [result, Stack.onTape] using hi)

end Machine

namespace Compile

open Machine

variable {o : Options} {vars : List Bytes} {level depth index after : Nat} {xs : List Instr} {code : Bytes}

/-- With enough steps, code does on any tape what its instructions mean. -/
theorem list_settles (h : list ⟨o, vars⟩ level depth index xs = .ok (code, after)) {m : Machine}
    (hm : m.Ready depth xs) (input : Bytes) :
    let meant := runList vars (m.stack input) xs
    meant.depth = after ∧ ∃ bound, ∀ limit, bound ≤ limit →
      let ran := m.runWithin limit code input
      ran.verdict = .done ∧ ran.output = meant.output ∧ ran.machine.ptr = meant.depth ∧
        ∀ i, ran.machine.cell i = meant.cells i := by
  have hroom := hm.room
  have hsim := (simulates_instr_list ⟨o, vars⟩ (m.tape.size - 1)).2 _ _ _ _ _ _ h (m.stack input) hm.depth_stack
    hm.clean_stack fun d hd => by have := hroom d hd; omega
  have hsize := hroom after (after_mem_listDepths h)
  obtain ⟨jumps, bound, hj, hexec⟩ :=
    exec_of_crosses hsim.crosses (list_balanced h) (by rw [hm.ptr]; omega) (by omega)
  refine ⟨hsim.depth_eq, bound, fun limit hlimit => ?_⟩
  have hrun : m.runWithin limit code input =
      m.result (.done, (runList vars (m.stack input) xs).onTape m.tape.size) := by
    rw [runWithin_eq hj, hexec limit hlimit]
  simp only [hrun]
  refine ⟨rfl, by simp [result, Stack.onTape], rfl, cell_result hsim.clean ?_⟩
  rw [hsim.depth_eq]
  omega

/-- The instructions are local on the stack of every machine that is ready for them. -/
theorem local_stack (h : list ⟨o, vars⟩ level depth index xs = .ok (code, after)) {m : Machine}
    (hm : m.Ready depth xs) (input : Bytes) :
    Stack.Local (lowest depth xs) (fun i => ∃ x, .get x ∈ listLeaves xs ∧ vars.idxOf x = i)
      (fun i => ∃ x, .set x ∈ listLeaves xs ∧ vars.idxOf x = i) (runList vars · xs) (m.stack input) :=
  (local_instr_list ⟨o, vars⟩ _ _ _).2 _ _ _ _ _ _ h _ hm.depth_stack hm.clean_stack (fun _ => lowest_le)
    (fun x hx => ⟨x, hx, rfl⟩) fun x hx => ⟨x, hx, rfl⟩

/-- **A stretch of a program is local on the tape.** Its code, in any layout, is run on any machine that is ready
for it, with enough steps. Below the lowest depth of the stretch, the run changes at most the cells of variables
that a `set` in it names. If a second machine agrees with the first from that depth on and in the cells of
variables that a `get` names, both runs write the same, end with the same pointer and agree from that depth on. -/
theorem run_local (h : list ⟨o, vars⟩ level depth index xs = .ok (code, after)) :
    (∀ m : Machine, m.Ready depth xs → ∀ input, ∃ bound, ∀ limit, bound ≤ limit →
      let ran := m.runWithin limit code input
      ran.verdict = .done ∧ ran.machine.ptr = after ∧
      ∀ i, i < lowest depth xs → (∀ x, .set x ∈ listLeaves xs → vars.idxOf x ≠ i) →
        ran.machine.cell i = m.cell i) ∧
    ∀ m m' : Machine, m.Ready depth xs → m'.Ready depth xs →
      (∀ i, lowest depth xs ≤ i → m'.cell i = m.cell i) →
      (∀ x, .get x ∈ listLeaves xs → m'.cell (vars.idxOf x) = m.cell (vars.idxOf x)) →
      ∀ input, ∃ bound, ∀ limit limit', bound ≤ limit → bound ≤ limit' →
      let ran := m.runWithin limit code input
      let ran' := m'.runWithin limit' code input
      ran.verdict = .done ∧ ran'.verdict = .done ∧ ran'.output = ran.output ∧
      ran'.machine.ptr = ran.machine.ptr ∧
      ∀ i, lowest depth xs ≤ i → ran'.machine.cell i = ran.machine.cell i := by
  refine ⟨fun m hm input => ?_, fun m m' hm hm' habove hgets input => ?_⟩
  · obtain ⟨hafter, bound, hrun⟩ := list_settles h hm input
    refine ⟨bound, fun limit hlimit => ?_⟩
    obtain ⟨hdone, _, hptr, hcells⟩ := hrun limit hlimit
    refine ⟨hdone, by rw [hptr, hafter], fun i hi hsets => ?_⟩
    rw [hcells]
    exact (local_stack h hm input).frame i hi fun ⟨x, hx, hslot⟩ => hsets x hx hslot
  · obtain ⟨_, bound, hrun⟩ := list_settles h hm input
    obtain ⟨_, bound', hrun'⟩ := list_settles h hm' input
    have hcells : ∀ i, (lowest depth xs ≤ i ∨ ∃ x, .get x ∈ listLeaves xs ∧ vars.idxOf x = i) →
        m'.cell i = m.cell i := by
      rintro i (hi | ⟨x, hx, rfl⟩)
      · exact habove i hi
      · exact hgets x hx
    have halike := (local_stack h hm input).alike (m'.stack input)
      ⟨by rw [hm.depth_stack, hm'.depth_stack], rfl, rfl, hcells⟩
    refine ⟨max bound bound', fun limit limit' hlimit hlimit' => ?_⟩
    obtain ⟨hdone, hout, hptr, hends⟩ := hrun limit (by omega)
    obtain ⟨hdone', hout', hptr', hends'⟩ := hrun' limit' (by omega)
    refine ⟨hdone, hdone', by rw [hout, hout', halike.output], by rw [hptr, hptr', halike.depth], fun i hi => ?_⟩
    rw [hends, hends']
    exact halike.cells i (.inl hi)

/-- A sum is stored into a variable two cells below the entry, whatever its old value is, and a test reads
another one. -/
theorem run_local_assignment :
    let xs : List Instr := [.basic .add, .set (ascii "b"), .ifThen [.get (ascii "a")] [.print (ascii "!")]]
    let m : Machine := { tape := #[1, 2, 5, 6, 7, 0, 0], ptr := 4 }
    let m' : Machine := { tape := #[1, 9, 5, 6, 7, 0, 0, 0], ptr := 4 }
    ∃ code, list ⟨.plain, [ascii "a", ascii "b"]⟩ 0 4 0 xs = .ok (code, 2) ∧
      ∀ input, ∃ bound, ∀ limit, bound ≤ limit →
        let ran := m.runWithin limit code input
        let ran' := m'.runWithin limit code input
        ran.machine.cell 0 = 1 ∧ ran'.output = ran.output ∧ ran'.machine.ptr = ran.machine.ptr ∧
        ∀ i, 2 ≤ i → ran'.machine.cell i = ran.machine.cell i := by
  intro xs m m'
  obtain ⟨code, h⟩ : ∃ code, list ⟨.plain, [ascii "a", ascii "b"]⟩ 0 4 0 xs = .ok (code, 2) := ⟨_, rfl⟩
  have hm : m.Ready 4 xs := by decide
  have hm' : m'.Ready 4 xs := by decide
  have hsets : ∀ x, .set x ∈ listLeaves xs → [ascii "a", ascii "b"].idxOf x ≠ 0 := by
    intro x hx
    obtain rfl : x = ascii "b" := by simpa [xs, listLeaves, Instr.leaves] using hx
    decide
  have hgets : ∀ x, .get x ∈ listLeaves xs →
      m'.cell ([ascii "a", ascii "b"].idxOf x) = m.cell ([ascii "a", ascii "b"].idxOf x) := by
    intro x hx
    obtain rfl : x = ascii "a" := by simpa [xs, listLeaves, Instr.leaves] using hx
    decide
  have habove : ∀ i, 2 ≤ i → m'.cell i = m.cell i := by
    intro i hi
    by_cases hlt : i < 8
    · have hcells : ∀ j < 8, 2 ≤ j → m'.cell j = m.cell j := by decide
      exact hcells i hlt hi
    · have hi : 8 ≤ i := Nat.le_of_not_lt hlt
      rw [cell_outside (m := m) (Nat.le_trans (by decide) hi), cell_outside (m := m') hi]
  refine ⟨code, h, fun input => ?_⟩
  obtain ⟨bound, hframe⟩ := (run_local h).1 m hm input
  obtain ⟨bound', halike⟩ := (run_local h).2 m m' hm hm' habove hgets input
  refine ⟨max bound bound', fun limit hlimit => ?_⟩
  obtain ⟨_, _, hcell⟩ := hframe limit (by omega)
  obtain ⟨_, _, hout, hptr, hcells⟩ := halike limit limit (by omega) (by omega)
  exact ⟨hcell 0 (by decide) hsets, hout, hptr, hcells⟩

end Compile

end StackTape

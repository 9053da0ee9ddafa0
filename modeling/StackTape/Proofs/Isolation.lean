import StackTape.Proofs.Correct
import StackTape.Proofs.Typing

/-!
# Variables and stack do not meet

Variables and the stack share one tape, and only the distances that the compiler computes tell them apart.
Here programs get a second meaning, in which they cannot meet: a `Frame` holds an environment from names to
bytes and, beside it, a stack of values. An instruction without operands only sees the values, by its type.

The two meanings agree as long as no block takes the stack below the cell above the variables: the cells of
the flat stack are then the variables in order of declaration followed by the values (`Frame.flat`,
`flat_instr_list`). `run_isolated` says the same of the tape after a run of the generated code.
-/

namespace StackTape

/-! ## Environments beside a stack of values -/

/-- A stack of values that always has a top, with the input still to be read and the output so far. -/
structure Values where
  top : UInt8
  /-- The values below the top, the nearest one first. -/
  below : List UInt8
  input : Bytes
  output : Bytes

namespace Values

/-- All values, from the bottom to the top. -/
def fromBottom (v : Values) : List UInt8 := v.below.reverse ++ [v.top]

def setTop (v : Values) (b : UInt8) : Values := { v with top := b }

def push (v : Values) (b : UInt8) : Values := { v with top := b, below := v.top :: v.below }

/-- Drops the top. The last value is never dropped; it becomes zero. -/
def drop (v : Values) : Values := { v with top := v.below.headD 0, below := v.below.tail }

/-- Drops the top and combines it with the value below. -/
def combine (v : Values) (f : UInt8 → UInt8 → UInt8) : Values := v.drop.setTop (f v.drop.top v.top)

def write (v : Values) (b : Bytes) : Values := { v with output := v.output ++ b }

end Values

/-- What an instruction without operands does to the values. -/
def Basic.apply (v : Values) : Basic → Values
  | .clear => v.setTop 0
  | .copy => v.push v.top
  | .inc => v.setTop (v.top + 1)
  | .dec => v.setTop (v.top - 1)
  | .add => v.combine (· + ·)
  | .sub => v.combine (· - ·)
  | .mul => v.combine (· * ·)
  | .bool => v.setTop (if v.top = 0 then 0 else 1)
  | .read => { v with input := v.input.tail }.push (v.input.headD 0)
  | .write => (v.write [v.top]).drop

/-- A program at work: the value of every name, and the values on the stack. -/
structure Frame where
  env : Bytes → UInt8
  values : Values

namespace Frame

/-- Before the first instruction every name is zero, and so is the only value on the stack. -/
def initial (input : Bytes) : Frame :=
  { env := fun _ => 0, values := { top := 0, below := [], input, output := [] } }

/-- Changes the values and nothing else. -/
def onValues (f : Frame) (g : Values → Values) : Frame := { f with values := g f.values }

/-- Gives a name a new value. -/
def assign (f : Frame) (x : Bytes) (b : UInt8) : Frame :=
  { f with env := fun y => if y = x then b else f.env y }

end Frame

mutual

/-- Runs one instruction. Only `get` reads the environment and only `set` writes it. -/
def Instr.eval (f : Frame) : Instr → Frame
  | .basic b => f.onValues b.apply
  | .push n => f.onValues (·.push (UInt8.ofNat n.toNat))
  | .addc n => f.onValues fun v => v.setTop (v.top + UInt8.ofNat n.toNat)
  | .subc n => f.onValues fun v => v.setTop (v.top - UInt8.ofNat n.toNat)
  | .get x => f.onValues (·.push (f.env x))
  | .set x => (f.assign x f.values.top).onValues (·.drop)
  | .print t => f.onValues (·.write t)
  | .stat body => evalList f body
  | .ifThen test body =>
    let tested := evalList f test
    if tested.values.top = 0 then tested.onValues (·.drop) else (evalList tested body).onValues (·.drop)
  | .foreign _ => f

def evalList (f : Frame) : List Instr → Frame
  | [] => f
  | x :: rest => evalList (x.eval f) rest

end

/-! ## Frames laid out on flat cells -/

theorem Stack.ext_cells {s t : Stack} (hdepth : s.depth = t.depth) (hinput : s.input = t.input)
    (houtput : s.output = t.output) (hcells : ∀ i, s.cells i = t.cells i) : s = t := by
  cases s
  cases t
  simp only [Stack.mk.injEq]
  exact ⟨funext hcells, hdepth, hinput, houtput⟩

namespace Frame

/-- The cells of a frame: the variables in order of declaration, then the values from the bottom. -/
def cells (vars : List Bytes) (f : Frame) : List UInt8 := vars.map f.env ++ f.values.fromBottom

/-- The flat stack with the cells of a frame, zero above them. -/
def flat (vars : List Bytes) (f : Frame) : Stack :=
  { cells := fun i => (f.cells vars)[i]?.getD 0
    depth := vars.length + f.values.below.length
    input := f.values.input
    output := f.values.output }

variable {vars : List Bytes} {f : Frame}

@[simp] theorem depth_flat : (f.flat vars).depth = vars.length + f.values.below.length := rfl

@[simp] theorem length_cells : (f.cells vars).length = vars.length + f.values.below.length + 1 := by
  simp [cells, Values.fromBottom, Nat.add_assoc]

theorem getD_concat (l : List UInt8) (b : UInt8) (i : Nat) :
    (l ++ [b])[i]?.getD 0 = if i = l.length then b else l[i]?.getD 0 := by
  by_cases hi : i = l.length
  · simp [hi]
  · rw [if_neg hi, List.getElem?_append]
    split
    · rfl
    · rw [List.getElem?_eq_none (by simp; omega), List.getElem?_eq_none (by omega)]

/-- One cell of the flat stack: the top, or a cell below it. -/
theorem cells_flat (i : Nat) : (f.flat vars).cells i =
    if i = vars.length + f.values.below.length then f.values.top
    else (vars.map f.env ++ f.values.below.reverse)[i]?.getD 0 := by
  have happ : f.cells vars = (vars.map f.env ++ f.values.below.reverse) ++ [f.values.top] := by
    simp [cells, Values.fromBottom]
  simp only [flat, happ, getD_concat, List.length_append, List.length_map, List.length_reverse]

theorem flat_initial (vars : List Bytes) (input : Bytes) : (initial input).flat vars = .initial vars input := by
  have hzero : (initial input).cells vars = List.replicate (vars.length + 1) 0 := by
    simp [cells, initial, Values.fromBottom, List.map_const', List.replicate_succ']
  refine Stack.ext_cells rfl rfl rfl fun i => ?_
  simp only [flat, hzero, List.getElem?_replicate]
  split <;> rfl

/-! ### One equation for each operation of the flat stack -/

theorem top_flat : (f.flat vars).top = f.values.top := by
  simp [Stack.top, cells_flat]

theorem setTop_flat (b : UInt8) : (f.flat vars).setTop b = (f.onValues (·.setTop b)).flat vars := by
  refine Stack.ext_cells rfl rfl rfl fun i => ?_
  simp only [Stack.setTop, Stack.setCell, cells_flat, onValues, Values.setTop, depth_flat]
  split <;> rfl

theorem push_flat (b : UInt8) : (f.flat vars).push b = (f.onValues (·.push b)).flat vars := by
  refine Stack.ext_cells rfl rfl rfl fun i => ?_
  have hrev : vars.map f.env ++ (f.values.top :: f.values.below).reverse =
      (vars.map f.env ++ f.values.below.reverse) ++ [f.values.top] := by simp
  simp only [Stack.push, Stack.setCell, cells_flat, onValues, Values.push, depth_flat, List.length_cons, hrev,
    getD_concat, List.length_append, List.length_map, List.length_reverse, Nat.add_assoc]

/-- The top may be dropped when there is a value below it. -/
theorem drop_flat (h : f.values.below ≠ []) : (f.flat vars).drop = (f.onValues (·.drop)).flat vars := by
  obtain ⟨b, below, hb⟩ := List.exists_cons_of_ne_nil h
  refine Stack.ext_cells ?_ rfl rfl fun i => ?_
  · simp [Stack.drop, onValues, Values.drop, hb]
  · simp only [Stack.drop, Stack.setTop, Stack.setCell, cells_flat, onValues, Values.drop, depth_flat, hb,
      List.reverse_cons, ← List.append_assoc, getD_concat, List.headD_cons, List.tail_cons, List.length_cons,
      List.length_append, List.length_map, List.length_reverse]
    by_cases htop : i = vars.length + (below.length + 1)
    · rw [if_pos htop, if_neg (by omega), List.getElem?_eq_none (by simp; omega)]
      rfl
    · rw [if_neg htop, if_neg htop]

theorem combine_flat (h : f.values.below ≠ []) (g : UInt8 → UInt8 → UInt8) :
    (f.flat vars).combine g = (f.onValues (·.combine g)).flat vars := by
  rw [Stack.combine, drop_flat h, setTop_flat, top_flat, top_flat]
  rfl

theorem write_flat (t : Bytes) : (f.flat vars).write t = (f.onValues (·.write t)).flat vars := rfl

theorem get_flat {x : Bytes} (hx : x ∈ vars) : (f.flat vars).cells (vars.idxOf x) = f.env x := by
  have hlt : vars.idxOf x < vars.length := List.idxOf_lt_length_of_mem hx
  rw [cells_flat, if_neg (by omega), List.getElem?_append_left (by simpa using hlt), List.getElem?_map,
    List.getElem?_eq_getElem hlt, List.getElem_idxOf hlt]
  rfl

/-- The cell of a variable holds that variable alone, as no name is declared twice. -/
theorem assign_flat (hnodup : vars.Nodup) {x : Bytes} (hx : x ∈ vars) (b : UInt8) :
    (f.flat vars).setCell (vars.idxOf x) b = (f.assign x b).flat vars := by
  have hlt : vars.idxOf x < vars.length := List.idxOf_lt_length_of_mem hx
  refine Stack.ext_cells rfl rfl rfl fun i => ?_
  simp only [Stack.setCell, cells_flat, assign]
  by_cases hi : i = vars.idxOf x
  · subst hi
    rw [if_pos rfl, if_neg (by omega), List.getElem?_append_left (by simpa using hlt), List.getElem?_map,
      List.getElem?_eq_getElem hlt, List.getElem_idxOf hlt]
    simp
  · rw [if_neg hi]
    split
    · rfl
    · by_cases hvar : i < vars.length
      · have hne : vars[i] ≠ x := by
          rintro rfl
          exact hi (hnodup.idxOf_getElem i hvar).symm
        rw [List.getElem?_append_left (by simpa using hvar), List.getElem?_append_left (by simpa using hvar),
          List.getElem?_map, List.getElem?_map, List.getElem?_eq_getElem hvar]
        simp [hne]
      · rw [List.getElem?_append_right (by simp; omega), List.getElem?_append_right (by simp; omega)]
        simp

theorem clean_flat : (f.flat vars).Clean := by
  intro i hi
  rw [depth_flat] at hi
  rw [cells_flat, if_neg (by omega), List.getElem?_eq_none (by simp; omega)]
  rfl

end Frame

/-! ## The two meanings agree -/

namespace Compile

open StackTape.Frame

variable {vars : List Bytes} {f : Frame}

theorem flat_basic (b : Basic) (h : b.delta = -1 → f.values.below ≠ []) :
    b.run (f.flat vars) = (f.onValues b.apply).flat vars := by
  cases b with
  | clear => exact setTop_flat 0
  | copy => rw [Basic.run, top_flat, push_flat]; rfl
  | inc => rw [Basic.run, top_flat, setTop_flat]; rfl
  | dec => rw [Basic.run, top_flat, setTop_flat]; rfl
  | add => exact combine_flat (h rfl) _
  | sub => exact combine_flat (h rfl) _
  | mul => exact combine_flat (h rfl) _
  | bool => rw [Basic.run, top_flat, setTop_flat]; rfl
  | read => exact push_flat (f := f.onValues fun v => { v with input := v.input.tail }) (f.values.input.headD 0)
  | write =>
    rw [Basic.run, top_flat, write_flat]
    exact drop_flat (h rfl)

/-- A simple instruction does the same on a frame and on its cells, unless it takes the stack below the cell
above the variables. -/
theorem flat_simple {c : Context} {level depth next : Nat} {x : Instr} {text : Bytes} (hnodup : c.vars.Nodup)
    (hx : x.isSimple = true) (h : instr c level depth x = .ok (text, next))
    (hdepth : (f.flat c.vars).depth = depth) (hnext : c.vars.length ≤ next) :
    x.run c.vars (f.flat c.vars) = (x.eval f).flat c.vars ∧ ((x.eval f).flat c.vars).depth = next := by
  subst hdepth
  obtain ⟨b, δ, hb, he⟩ := instr_simple_ok hx h
  have hδ := (emit_ok he).1
  have hbelow : δ = -1 → f.values.below ≠ [] := by
    intro hneg hnil
    rw [depth_flat, hnil, List.length_nil] at hδ
    omega
  have heq : x.run c.vars (f.flat c.vars) = (x.eval f).flat c.vars := by
    cases hb with
    | basic b =>
      rw [Instr.run, Instr.eval]
      exact flat_basic b hbelow
    | push => rw [Instr.run, Instr.eval, push_flat]
    | addc => rw [Instr.run, Instr.eval, top_flat, setTop_flat]; rfl
    | subc => rw [Instr.run, Instr.eval, top_flat, setTop_flat]; rfl
    | get hslot =>
      rw [Instr.run, Instr.eval, get_flat (List.mem_of_getElem? (getElem?_of_idxOf? hslot)), push_flat]
    | set hslot =>
      rw [Instr.run, Instr.eval, top_flat, assign_flat hnodup (List.mem_of_getElem? (getElem?_of_idxOf? hslot))]
      exact drop_flat (f := f.assign _ _) (hbelow rfl)
    | print t => rw [Instr.run, Instr.eval, write_flat]
  refine ⟨heq, ?_⟩
  rw [← heq]
  exact (hb.runs hδ clean_flat (Nat.le_refl _)).2.1

/-- **Frames and flat cells agree**, in every block of an accepted program that keeps the stack above the
variables. -/
theorem flat_instr_list (c : Context) (hnodup : c.vars.Nodup) :
    (∀ x : Instr, ∀ level depth text next, instr c level depth x = .ok (text, next) →
      ∀ f : Frame, (f.flat c.vars).depth = depth → c.vars.length ≤ next →
      (∀ d ∈ x.innerDepths depth, c.vars.length ≤ d) →
      x.run c.vars (f.flat c.vars) = (x.eval f).flat c.vars ∧ ((x.eval f).flat c.vars).depth = next) ∧
    ∀ xs : List Instr, ∀ level depth index text after, list c level depth index xs = .ok (text, after) →
      ∀ f : Frame, (f.flat c.vars).depth = depth → (∀ d ∈ listDepths depth xs, c.vars.length ≤ d) →
      runList c.vars (f.flat c.vars) xs = (evalList f xs).flat c.vars ∧
        ((evalList f xs).flat c.vars).depth = after := by
  apply Instr.induct
  case simple =>
    intro x hx level depth text next h f hdepth hnext _
    exact flat_simple hnodup hx h hdepth hnext
  case stat =>
    intro body ih level depth text next h f hdepth _ hinner
    rw [Instr.innerDepths] at hinner
    obtain ⟨rfl, code, _, hbody, _⟩ := instr_stat_ok h
    rw [Instr.run, Instr.eval]
    exact ih _ _ _ _ _ hbody f hdepth hinner
  case ifThen =>
    intro test body ihTest ihBody level depth text next h f hdepth _ hinner
    rw [Instr.innerDepths] at hinner
    obtain ⟨rfl, testCode, bodyCode, _, _, htest, hbody, _⟩ := instr_ifThen_ok h
    obtain ⟨heqTest, hdTest⟩ := ihTest _ _ _ _ _ htest f hdepth fun d hd => hinner d (List.mem_append_left _ hd)
    obtain ⟨heqBody, hdBody⟩ := ihBody _ _ _ _ _ hbody _ hdTest fun d hd => hinner d (List.mem_append_right _ hd)
    -- below the value of the test there is the top from before the test
    have hroom : ∀ g : Frame, (g.flat c.vars).depth = next + 1 → g.values.below ≠ [] := by
      intro g hg hnil
      rw [depth_flat] at hdepth hg
      rw [hnil, List.length_nil] at hg
      omega
    have hdropped : ∀ g : Frame, (g.flat c.vars).depth = next + 1 →
        (g.flat c.vars).drop = (g.onValues (·.drop)).flat c.vars ∧
          ((g.onValues (·.drop)).flat c.vars).depth = next := by
      intro g hg
      have hdrop : (g.flat c.vars).drop = (g.onValues (·.drop)).flat c.vars := drop_flat (hroom g hg)
      refine ⟨hdrop, ?_⟩
      rw [← hdrop, Stack.depth_drop, hg]
      rfl
    rw [Instr.run, Instr.eval]
    simp only [heqTest, heqBody, top_flat]
    split
    · exact hdropped _ hdTest
    · exact hdropped _ hdBody
  case nil =>
    intro level depth index text after h f hdepth _
    rw [list] at h
    cases h
    rw [runList, evalList]
    exact ⟨rfl, hdepth⟩
  case cons =>
    intro x rest ihx ih level depth index text after h f hdepth habove
    obtain ⟨code, next, more, hx, hrest, rfl⟩ := list_cons_ok h
    rw [listDepths, ← instr_ok_depth hx, Int.toNat_natCast] at habove
    have hnext : c.vars.length ≤ next := habove _ (by simp [mem_listDepths_self])
    obtain ⟨heq, hd⟩ := ihx _ _ _ _ hx f hdepth hnext fun d hd => habove d (by simp [hd])
    rw [runList, evalList, heq]
    exact ih _ _ _ _ _ hrest _ hd fun d hd => habove d (by simp [hd])

open Machine

variable {o : Options} {body : List Instr} {code : Bytes} {final : Nat}

/-- A program whose stack stays above its variables is run on its frame. -/
theorem run_flat (h : scope o vars body = .ok (code, final))
    (habove : ∀ d ∈ listDepths vars.length body, vars.length ≤ d) (input : Bytes) :
    Program.run ⟨vars, body⟩ input = (evalList (.initial input) body).flat vars ∧
      ((evalList (.initial input) body).flat vars).depth = final := by
  obtain ⟨declared, text, hdecl, hbody, _⟩ := scope_ok h
  rw [Program.run, ← flat_initial]
  exact (flat_instr_list ⟨o, vars⟩ (nodup_of_declare hdecl).1).2 _ _ _ _ _ _ hbody (.initial input) rfl habove

theorem final_le_peak (h : scope o vars body = .ok (code, final)) : final ≤ peak vars body := by
  obtain ⟨_, _, _, hbody, _⟩ := scope_ok h
  exact le_peak (List.mem_append_right _ (after_mem_listDepths hbody))

theorem toList_tape_flat (f : Frame) {size : Nat} (h : (f.flat vars).depth < size) :
    ((f.flat vars).onTape size).tape.toList =
      f.cells vars ++ List.replicate (size - (f.cells vars).length) 0 := by
  rw [depth_flat] at h
  apply List.ext_getElem?
  intro i
  by_cases hi : i < size
  · rw [Array.getElem?_toList, Stack.getElem?_onTape hi, List.getElem?_append]
    split
    · rename_i hlt
      simp only [flat, List.getElem?_eq_getElem hlt, Option.getD_some]
    · rename_i hge
      rw [List.getElem?_replicate_of_lt (by omega)]
      simp [flat, List.getElem?_eq_none (Nat.le_of_not_lt hge)]
  · rw [List.getElem?_eq_none (by simp [Stack.onTape]; omega), List.getElem?_eq_none (by simp; omega)]

/-- **Variables are isolated from the stack.** Take a program whose stack never goes below the cell above its
variables, not even inside a block. With enough cells and steps a run of its code writes what the program
writes when it works on an environment and a separate stack of values, both zero at first. Afterwards the
tape holds the variables in order of declaration, then the values from the bottom to the top, where the
pointer is, and zeros above them. -/
theorem run_isolated (h : scope o vars body = .ok (code, final))
    (habove : ∀ d ∈ listDepths vars.length body, vars.length ≤ d) (input : Bytes) :
    ∃ bound, ∀ size steps, peak vars body + 3 ≤ size →
      (limited size steps).Settles bound code input fun ran =>
        let meant := evalList (Frame.initial input) body
        ran.verdict = .done ∧ ran.output = meant.values.output ∧
        ran.machine.tape.toList = vars.map meant.env ++ meant.values.fromBottom ++
          List.replicate (size - (vars.length + meant.values.fromBottom.length)) 0 ∧
        ran.machine.ptr + 1 = vars.length + meant.values.fromBottom.length := by
  obtain ⟨hrun, hdepth⟩ := run_flat h habove input
  obtain ⟨bound, hbound⟩ := settles_scope h input
  refine ⟨bound, fun size steps hsize => (hbound size steps hsize).imp (Nat.le_refl _) ?_⟩
  rintro ran rfl
  have hfinal := final_le_peak h
  have hroom : ((evalList (.initial input) body).flat vars).depth < size := by
    rw [hdepth]
    omega
  have htape := toList_tape_flat _ hroom
  have hlen : (evalList (.initial input) body).values.fromBottom.length =
      (evalList (.initial input) body).values.below.length + 1 := by
    simp [Values.fromBottom]
  rw [length_cells, Nat.add_assoc, ← hlen] at htape
  rw [hrun]
  refine ⟨rfl, rfl, htape, ?_⟩
  rw [hlen]
  simp only [result, Stack.onTape, depth_flat]
  omega

/-- Two variables, one of them written inside a conditional that keeps a value on the stack meanwhile. -/
theorem run_isolated_swap :
    ∃ code, scope .plain [ascii "a", ascii "b"] [.basic .read, .set (ascii "a"), .push 7,
        .ifThen [.get (ascii "a")] [.get (ascii "a"), .basic .inc, .set (ascii "b")]] = .ok (code, 3) ∧
      ∃ bound, ∀ size steps, 8 ≤ size → (limited size steps).Settles bound code [4] fun ran =>
        ran.verdict = .done ∧ ran.machine.tape.toList = [4, 5, 0, 7] ++ List.replicate (size - 4) 0 ∧
          ran.machine.ptr = 3 := by
  obtain ⟨code, h⟩ : ∃ code, scope .plain [ascii "a", ascii "b"] [.basic .read, .set (ascii "a"), .push 7,
      .ifThen [.get (ascii "a")] [.get (ascii "a"), .basic .inc, .set (ascii "b")]] = .ok (code, 3) :=
    ⟨_, rfl⟩
  obtain ⟨bound, hrun⟩ := run_isolated h (by decide) [4]
  refine ⟨code, h, bound, fun size steps hsize => (hrun size steps hsize).imp (Nat.le_refl _) ?_⟩
  rintro ran ⟨hdone, _, htape, hptr⟩
  have hptr : ran.machine.ptr + 1 = 4 := hptr
  exact ⟨hdone, htape, by omega⟩

end Compile

end StackTape

import StackTape.Proofs.Runs
import StackTape.Proofs.Simulation

/-!
# Runs of generated code

What the simulation means for `Machine.run`, on a fresh machine with three cells more than the greatest
depth of the program and any limit of steps:

* `run_done` — with enough steps the run completes, and its output, tape and pointer are those of the program;
* `run_safe` — under every limit the pointer stays on the cells in use and the only error is a cut off run;
* `depth_at_ends` — whenever a run passes the end of a fragment, its pointer is at the depth that the compiler
  has there, and all cells above are zero.
-/

namespace StackTape

namespace Machine

/-- A run of the code passes through the configuration, within the step limit. -/
def Visits (m : Machine) (code input : Bytes) (e : Config) : Prop :=
  ∃ jumps n, JumpTable.ofCode code = .ok jumps ∧ n ≤ m.limit ∧ Reaches code.toArray jumps n (m.start input) e

theorem run_of_exec {m : Machine} {code input : Bytes} {jumps : JumpTable} {verdict : Verdict} {s : Store}
    (hj : JumpTable.ofCode code = .ok jumps)
    (h : exec code.toArray jumps m.limit (m.start input).pc (m.start input).store = (verdict, s)) :
    m.run code input = ⟨verdict, s.output.toList, { m with tape := s.tape, ptr := s.ptr }⟩ := by
  simp only [start] at h
  simp only [run, hj, h]

/-- A run that is cut off before a byte has come to that byte. -/
theorem visits_of_cut {m : Machine} {code input : Bytes} {pos : Nat} (h : (m.run code input).verdict = .tooLong pos) :
    ∃ e, m.Visits code input e ∧ e.pc = pos := by
  rw [run_eq_runWithin] at h
  cases hj : JumpTable.ofCode code with
  | error pos' =>
    simp only [runWithin, hj] at h
    cases h
  | ok jumps =>
    rw [runWithin_eq hj] at h
    obtain ⟨e, hreach, he⟩ := reaches_of_cut (congrArg Verdict.isCut h)
    rw [he] at h
    exact ⟨e, ⟨jumps, m.limit, hj, Nat.le_refl _, hreach⟩, Verdict.tooLong.inj h⟩

end Machine

namespace Compile

open Listing Machine

variable {o : Options} {vars : List Bytes} {body : List Instr} {code : Bytes} {final : Nat}

/-- Generated code has a jump table, and its run is a walk to the end of the code. -/
theorem scope_walk (h : scope o vars body = .ok (code, final)) (input : Bytes) :
    ∃ jumps n, JumpTable.ofCode code = .ok jumps ∧ ∀ size steps, peak vars body + 3 ≤ size →
      Walk code.toArray jumps (Crosses.OnTrack size (peak vars body + 2) (Keeps o (ScopeEnd o vars body))) n
        ((limited size steps).start input) ⟨code.length, (Program.run ⟨vars, body⟩ input).onTape size⟩ := by
  obtain ⟨jumps, hj⟩ := JumpTable.ofCode_of_balanced (scope_balanced h)
  obtain ⟨n, hn⟩ := (simulates_scope h input).crosses.whole
  refine ⟨jumps, n, hj, fun size steps hsize => ?_⟩
  rw [start_limited]
  exact hn size (by omega) ⟨code, jumps, hj⟩ rfl

/-- All points of a run hold the cells of a stack. -/
theorem visits_onTrack (h : scope o vars body = .ok (code, final)) {input : Bytes} {size : Nat} {steps : Int}
    (hsize : peak vars body + 3 ≤ size) {e : Config} (he : (limited size steps).Visits code input e) :
    Crosses.OnTrack size (peak vars body + 2) (Keeps o (ScopeEnd o vars body)) e := by
  obtain ⟨jumps, n, hj, hw⟩ := scope_walk h input
  obtain ⟨jumps', k, hj', _, hreach⟩ := he
  rw [hj] at hj'
  cases hj'
  have hsim := (simulates_scope h input).crosses
  rcases (hw size steps hsize).visited (by simp) hreach with hv | rfl
  · exact hv
  · exact ⟨_, rfl, hsim.finish_le, hsim.finish⟩

/-- A run completes with the output of the program, or it is cut off with the beginning of that output. -/
theorem run_done_or_cut (h : scope o vars body = .ok (code, final)) (input : Bytes) {size : Nat} (steps : Int)
    (hsize : peak vars body + 3 ≤ size) :
    let ran := (limited size steps).run code input
    let meant := Program.run ⟨vars, body⟩ input
    (ran.verdict = .done ∧ ran.output = meant.output) ∨
      ((∃ pos, ran.verdict = .tooLong pos) ∧ ran.output <+: meant.output) := by
  obtain ⟨jumps, n, hj, hw⟩ := scope_walk h input
  rcases Nat.lt_or_ge (limited size steps).limit n with hlt | hge
  · obtain ⟨e, hexec, hout⟩ := (hw size steps hsize).exec_cut hlt
    rw [run_of_exec hj hexec]
    exact .inr ⟨⟨e.pc, rfl⟩, hout⟩
  · rw [run_of_exec hj ((hw size steps hsize).exec_done (by simp) hge)]
    exact .inl ⟨rfl, rfl⟩

/-- With enough steps, a run leaves the cells of the program on the tape. -/
theorem settles_scope (h : scope o vars body = .ok (code, final)) (input : Bytes) :
    ∃ bound, ∀ size steps, peak vars body + 3 ≤ size →
      (limited size steps).Settles bound code input fun ran =>
        ran = (limited size steps).result (.done, (Program.run ⟨vars, body⟩ input).onTape size) := by
  obtain ⟨jumps, n, hj, hw⟩ := scope_walk h input
  refine ⟨n, fun size steps hsize => .of_runWithin fun limit hlimit => ?_⟩
  rw [runWithin_eq hj, (hw size steps hsize).exec_done (by simp) hlimit]

/-- **Generated code is correct.** For every input there is a number of steps with which it completes, on
every fresh machine that has three cells more than the greatest depth. It then has written what the program
writes; the tape holds the cells of the program, all of them zero above the top, and the pointer is on the
top, at the depth that the compiler has computed. -/
theorem run_done (h : scope o vars body = .ok (code, final)) (input : Bytes) :
    ∃ bound, ∀ size steps, peak vars body + 3 ≤ size →
      (limited size steps).Settles bound code input fun ran =>
        let meant := Program.run ⟨vars, body⟩ input
        ran.verdict = .done ∧ ran.output = meant.output ∧
        ran.machine.tape = Array.ofFn (fun i : Fin size => meant.cells i) ∧
        ran.machine.ptr = meant.depth ∧ meant.depth = final ∧ ∀ i, meant.depth < i → meant.cells i = 0 := by
  have hsim := simulates_scope h input
  obtain ⟨bound, hbound⟩ := settles_scope h input
  refine ⟨bound, fun size steps hsize => (hbound size steps hsize).imp (Nat.le_refl _) ?_⟩
  rintro ran rfl
  exact ⟨rfl, rfl, rfl, rfl, hsim.depth_eq, hsim.clean⟩

theorem run_done_successor :
    ∃ code, scope .plain [ascii "n"] [.basic .read, .set (ascii "n"),
        .ifThen [.get (ascii "n")] [.stat [.get (ascii "n"), .basic .inc, .basic .write]]] = .ok (code, 1) ∧
      ∃ bound, ∀ size steps, 6 ≤ size → (limited size steps).Settles bound code [0x41] fun ran =>
        ran.verdict = .done ∧ ran.output = [0x42] ∧ ran.machine.ptr = 1 := by
  obtain ⟨code, h⟩ : ∃ code, scope .plain [ascii "n"] [.basic .read, .set (ascii "n"),
      .ifThen [.get (ascii "n")] [.stat [.get (ascii "n"), .basic .inc, .basic .write]]] = .ok (code, 1) :=
    ⟨_, rfl⟩
  obtain ⟨bound, hrun⟩ := run_done h [0x41]
  refine ⟨code, h, bound, fun size steps hsize => (hrun size steps hsize).imp (Nat.le_refl _) ?_⟩
  rintro ran ⟨hdone, hout, _, hptr, hdepth, _⟩
  rw [hdepth] at hptr
  exact ⟨hdone, hout, hptr⟩

/-- **Generated code is safe under every step limit.** The pointer never leaves the cells from zero to two
above the greatest depth. A run either completes or is cut off; what it has written is the beginning of what
the program writes, and of what any completed run writes. -/
theorem run_safe (h : scope o vars body = .ok (code, final)) (input : Bytes) (size : Nat) (steps : Int)
    (hsize : peak vars body + 3 ≤ size) :
    (∀ e, (limited size steps).Visits code input e →
      0 ≤ e.store.ptr ∧ e.store.ptr ≤ (peak vars body + 2 : Nat)) ∧
    (((limited size steps).run code input).verdict = .done ∨
      ∃ pos, ((limited size steps).run code input).verdict = .tooLong pos) ∧
    ((limited size steps).run code input).output <+: (Program.run ⟨vars, body⟩ input).output ∧
    ∀ size' steps', peak vars body + 3 ≤ size' → ((limited size' steps').run code input).verdict = .done →
      ((limited size steps).run code input).output <+: ((limited size' steps').run code input).output := by
  have hran := run_done_or_cut h input steps hsize
  have hprefix : ((limited size steps).run code input).output <+:
      (Program.run ⟨vars, body⟩ input).output := by
    rcases hran with ⟨_, hout⟩ | ⟨_, hout⟩
    · exact hout ▸ List.prefix_refl _
    · exact hout
  refine ⟨fun e he => ?_, hran.imp And.left And.left, hprefix, fun size' steps' hsize' hdone => ?_⟩
  · obtain ⟨r, hr, hle, _⟩ := visits_onTrack h hsize he
    have hptr : e.store.ptr = r.depth := by rw [hr]; rfl
    omega
  · rcases run_done_or_cut h input steps' hsize' with ⟨_, hout⟩ | ⟨⟨pos, hcut⟩, _⟩
    · exact hout ▸ hprefix
    · rw [hdone] at hcut
      cases hcut

theorem run_safe_successor :
    ∃ code, scope .standard [ascii "n"] [.basic .read, .set (ascii "n"),
        .ifThen [.get (ascii "n")] [.stat [.get (ascii "n"), .basic .inc, .basic .write]]] = .ok (code, 1) ∧
      ∀ size steps, 6 ≤ size →
        let ran := (limited size steps).run code [0x41]
        (ran.verdict = .done ∨ ∃ pos, ran.verdict = .tooLong pos) ∧ ran.output <+: [0x42] := by
  obtain ⟨code, h⟩ : ∃ code, scope .standard [ascii "n"] [.basic .read, .set (ascii "n"),
      .ifThen [.get (ascii "n")] [.stat [.get (ascii "n"), .basic .inc, .basic .write]]] = .ok (code, 1) :=
    ⟨_, rfl⟩
  refine ⟨code, h, fun size steps hsize => ?_⟩
  obtain ⟨_, hverdict, hprefix, _⟩ := run_safe h [0x41] size steps hsize
  exact ⟨hverdict, hprefix⟩

/-- **The pointer is at the depth that the compiler has.** The end of a fragment is a place in the code behind
a note of the depth, which is empty without comments. Whenever a run comes to a byte of that note or to the
place behind it, the pointer is the depth noted there and all cells above are zero. This holds at every
nesting level, for every input and under every step limit. -/
theorem depth_at_ends (h : scope o vars body = .ok (code, final)) {upto : Bytes} {d : Nat}
    (hend : ScopeEnd o vars body upto d) :
    ∃ fragment after, upto = fragment ++ depthNote o d ∧ code = upto ++ after ∧
      ∀ input size steps, peak vars body + 3 ≤ size → ∀ e, (limited size steps).Visits code input e →
        fragment.length ≤ e.pc → e.pc ≤ upto.length →
        e.store.ptr = d ∧ ∀ i, d < i → i < size → e.store.tape[i]? = some 0 := by
  obtain ⟨fragment, after, hupto, hcode⟩ := scope_placed h hend
  refine ⟨fragment, after, hupto, hcode, fun input size steps hsize e he hlo hhi => ?_⟩
  obtain ⟨r, hr, _, hkeeps⟩ := visits_onTrack h hsize he
  obtain ⟨hd, hclean⟩ := hkeeps upto d hend hhi (by rw [hupto, List.length_append]; omega)
  rw [hr]
  refine ⟨congrArg Int.ofNat hd, fun i hi hlt => ?_⟩
  rw [Stack.getElem?_onTape hlt, hclean i (by omega)]

/-- The end of an instruction inside a conditional. A run in which the test holds comes to the note there. -/
theorem depth_at_ends_inner :
    ∃ code fragment after,
      scope .standard [ascii "n"] [.ifThen [.basic .read] [.basic .inc]] = .ok (code, 1) ∧
      code = fragment ++ ascii " #2\n" ++ after ∧
      (∃ e, (limited 5 132).Visits code [7] e ∧ e.pc = fragment.length + 1 ∧
        e.store.ptr = 2 ∧ ∀ i, 2 < i → i < 5 → e.store.tape[i]? = some 0) ∧
      ∀ input size steps, 5 ≤ size → ∀ e, (limited size steps).Visits code input e →
        fragment.length ≤ e.pc → e.pc ≤ (fragment ++ ascii " #2\n").length →
        e.store.ptr = 2 ∧ ∀ i, 2 < i → i < size → e.store.tape[i]? = some 0 := by
  obtain ⟨code, h, hcut⟩ : ∃ code,
      scope .standard [ascii "n"] [.ifThen [.basic .read] [.basic .inc]] = .ok (code, 1) ∧
        ((limited 5 132).run code [7]).verdict = .tooLong 132 :=
    ⟨_, rfl, by decide +kernel⟩
  -- the end of the instruction in the body
  obtain ⟨upto, hend, hlength⟩ : ∃ upto,
      ScopeEnd .standard [ascii "n"] [.ifThen [.basic .read] [.basic .inc]] upto 2 ∧ upto.length = 135 :=
    ⟨_, .instr rfl (.head (.body rfl rfl rfl (.head (.own rfl)))), by decide +kernel⟩
  obtain ⟨fragment, after, rfl, hcode, hvisits⟩ := depth_at_ends h hend
  have hnote : depthNote .standard 2 = ascii " #2\n" := rfl
  rw [hnote] at hcode hlength hvisits
  have hfragment : fragment.length + 4 = 135 := by
    rw [← hlength, List.length_append]
    rfl
  obtain ⟨e, he, hpc⟩ := visits_of_cut hcut
  refine ⟨code, fragment, after, h, hcode, ⟨e, he, by omega, ?_⟩, hvisits⟩
  exact hvisits [7] 5 132 (by decide) e he (by omega) (by omega)

end Compile

end StackTape

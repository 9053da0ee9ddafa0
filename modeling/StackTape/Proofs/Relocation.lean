import Mathlib.Data.List.Perm.Subperm
import StackTape.Proofs.Isolation

/-!
# Variables may be declared anywhere

The compiler reaches a variable by its distance from the top, so what it makes of a body depends on the
declarations only through these distances. Two consequences are proved here, for a body that is compiled once
more with other declarations, at a stack that is `shift` cells deeper:

* `scope_prepend` — declarations in front of the old ones keep all distances, and so all of the code;
* `run_redeclared` — any declarations that hold the old names keep what the program does, as long as its stack
  stays above the variables. The code differs then, and both runs are compared with the one run on a `Frame`,
  which knows names and no cells.
-/

namespace StackTape

namespace Compile

/-! ## Depths of a deeper stack -/

/-- An accepted program goes through the same depths when it starts deeper, all of them deeper by as much. -/
theorem depths_deeper (c : Context) (shift : Nat) :
    (∀ x : Instr, ∀ level depth text next, instr c level depth x = .ok (text, next) →
      x.innerDepths (depth + shift) = (x.innerDepths depth).map (· + shift)) ∧
    ∀ xs : List Instr, ∀ level depth index text after, list c level depth index xs = .ok (text, after) →
      listDepths (depth + shift) xs = (listDepths depth xs).map (· + shift) := by
  apply Instr.induct
  case simple =>
    intro x hx level depth text next _
    cases x <;> first | rfl | cases hx
  case stat =>
    intro body ih level depth text next h
    obtain ⟨_, _, _, hbody, _⟩ := instr_stat_ok h
    rw [Instr.innerDepths, Instr.innerDepths]
    exact ih _ _ _ _ _ hbody
  case ifThen =>
    intro test body ihTest ihBody level depth text next h
    obtain ⟨_, _, _, _, _, htest, hbody, _⟩ := instr_ifThen_ok h
    rw [Instr.innerDepths, Instr.innerDepths, List.map_append, ihTest _ _ _ _ _ htest, ← ihBody _ _ _ _ _ hbody,
      Nat.add_right_comm]
  case nil =>
    intro level depth index text after _
    simp [listDepths]
  case cons =>
    intro x rest ihx ih level depth index text after h
    obtain ⟨_, next, _, hx, hrest, _⟩ := list_cons_ok h
    have hnext := instr_ok_depth hx
    have hdeeper : (((depth + shift : Nat) : Int) + x.delta).toNat = next + shift := by omega
    rw [listDepths, listDepths, hdeeper, ← hnext, Int.toNat_natCast, ihx _ _ _ _ hx, ih _ _ _ _ _ hrest]
    simp

/-! ## Where names are declared -/

/-- From the depth `floor` on, a variable in reach is still in reach among the other declarations, when the
stack is `shift` cells deeper. -/
def KeepsReach (vars vars' : List Bytes) (floor shift : Nat) : Prop :=
  ∀ x slot, vars.idxOf? x = some slot → ∃ slot', vars'.idxOf? x = some slot' ∧
    ∀ d, floor ≤ d → (slot ≤ d → slot' ≤ d + shift) ∧ (slot < d → slot' < d + shift)

/-- All variables are as far from the top as before, when the stack is `shift` cells deeper. -/
def KeepsDistance (vars vars' : List Bytes) (shift : Nat) : Prop :=
  ∀ x slot, vars.idxOf? x = some slot → vars'.idxOf? x = some (slot + shift)

variable {vars vars' : List Bytes}

theorem KeepsDistance.keepsReach {shift : Nat} (h : KeepsDistance vars vars' shift) :
    KeepsReach vars vars' 0 shift :=
  fun x slot hslot => ⟨slot + shift, h x slot hslot, fun d _ => by omega⟩

theorem KeepsDistance.sub_eq {shift slot slot' : Nat} {x : Bytes} (h : KeepsDistance vars vars' shift)
    (hslot : vars.idxOf? x = some slot) (hslot' : vars'.idxOf? x = some slot') (depth : Nat) :
    depth + shift - slot' = depth - slot := by
  rw [h x slot hslot] at hslot'
  cases hslot'
  exact Nat.add_sub_add_right ..

theorem keepsDistance_append {extra : List Bytes} (hfresh : ∀ x ∈ extra, x ∉ vars) :
    KeepsDistance vars (extra ++ vars) extra.length := by
  intro x slot hslot
  have hx : x ∉ extra := fun hmem => hfresh x hmem (List.mem_of_getElem? (getElem?_of_idxOf? hslot))
  have hnone : extra.idxOf? x = none := List.idxOf?_eq_none_iff.2 hx
  rw [List.idxOf?] at hslot hnone ⊢
  rw [List.findIdx?_append, hnone, hslot]
  rfl

/-- Above all variables every variable is in reach, wherever it is declared. -/
theorem keepsReach_of_subset {shift : Nat} (hlen : vars'.length = vars.length + shift) (hsub : vars ⊆ vars') :
    KeepsReach vars vars' vars.length shift := by
  intro x slot hslot
  have hx : x ∈ vars' := hsub (List.mem_of_getElem? (getElem?_of_idxOf? hslot))
  obtain ⟨place, hplace⟩ := List.getElem?_of_mem hx
  obtain ⟨slot', hslot', _⟩ := idxOf?_of_getElem? hplace
  have hlt : slot' < vars'.length := (List.getElem?_eq_some_iff.1 (getElem?_of_idxOf? hslot')).1
  exact ⟨slot', hslot', fun d hd => by omega⟩

/-! ## Compiling again -/

/-- The outcome is the given one for a stack that is `shift` cells deeper. It also has the same code behind the
comments if `same` holds. -/
def Deeper (same : Prop) (shift : Nat) (text : Bytes) (next : Nat) (r : Output) : Prop :=
  ∃ text', r = .ok (text', next + shift) ∧ (same → strip text' = strip text)

variable {o : Options} {floor shift level depth next : Nat} {text : Bytes} {same : Prop}

theorem emit_deeper {label code code' : Bytes} {δ : Int} (h : emit o level depth label code δ = .ok (text, next))
    (hcode : same → strip code' = strip code) :
    Deeper same shift text next (emit o level (depth + shift) label code' δ) := by
  obtain ⟨hnext, m, hm, rfl⟩ := emit_ok h
  have hdeeper : (((depth + shift : Nat) : Int) + δ).toNat = next + shift := by omega
  rw [emit_eq, if_neg (by omega), hm, hdeeper]
  refine ⟨_, rfl, fun hsame => ?_⟩
  simp only [strip_append, hcode hsame, (Listing.silent_depthNote o _).strip]

theorem Lowers.deeper {x : Instr} {b : Block} {δ : Int} (h : Lowers vars depth x b δ)
    (hreach : KeepsReach vars vars' floor shift) (hfloor : floor ≤ depth) :
    ∃ b', Lowers vars' (depth + shift) x b' δ ∧ (KeepsDistance vars vars' shift → b' = b) := by
  cases h with
  | basic b => exact ⟨_, .basic b, fun _ => rfl⟩
  | push hn => exact ⟨_, .push hn, fun _ => rfl⟩
  | addc hn => exact ⟨_, .addc hn, fun _ => rfl⟩
  | subc hn => exact ⟨_, .subc hn, fun _ => rfl⟩
  | print t => exact ⟨_, .print t, fun _ => rfl⟩
  | get hslot hle =>
    obtain ⟨slot', hslot', hd⟩ := hreach _ _ hslot
    refine ⟨_, .get hslot' ((hd depth hfloor).1 hle), fun hkeep => ?_⟩
    rw [hkeep.sub_eq hslot hslot']
  | set hslot hlt =>
    obtain ⟨slot', hslot', hd⟩ := hreach _ _ hslot
    refine ⟨_, .set hslot' ((hd depth hfloor).2 hlt), fun hkeep => ?_⟩
    rw [hkeep.sub_eq hslot hslot']

/-- **A body compiles among other declarations** that keep its variables in reach, and to the same code if they
keep its variables at their distance. -/
theorem deeper_instr_list (o : Options) (hreach : KeepsReach vars vars' floor shift) :
    (∀ x : Instr, ∀ level depth text next, instr ⟨o, vars⟩ level depth x = .ok (text, next) → floor ≤ depth →
      (∀ d ∈ x.innerDepths depth, floor ≤ d) →
      Deeper (KeepsDistance vars vars' shift) shift text next (instr ⟨o, vars'⟩ level (depth + shift) x)) ∧
    ∀ xs : List Instr, ∀ level depth index text after, list ⟨o, vars⟩ level depth index xs = .ok (text, after) →
      (∀ d ∈ listDepths depth xs, floor ≤ d) →
      Deeper (KeepsDistance vars vars' shift) shift text after (list ⟨o, vars'⟩ level (depth + shift) index xs) := by
  apply Instr.induct
  case simple =>
    intro x hx level depth text next h hfloor _
    obtain ⟨b, δ, hb, he⟩ := instr_simple_ok hx h
    obtain ⟨b', hb', hsame⟩ := hb.deeper hreach hfloor
    rw [Lowers.instr_eq (c := ⟨o, vars'⟩) hb']
    exact emit_deeper he fun hkeep => by rw [hsame hkeep]
  case stat =>
    intro body ih level depth text next h _ hinner
    rw [Instr.innerDepths] at hinner
    obtain ⟨_, code, stop, hbody, hstop, he⟩ := instr_stat_ok h
    obtain ⟨code', hbody', hsame⟩ := ih _ _ _ _ _ hbody hinner
    simp only [instr_stat, hbody', hstop, ne_eq, not_true_eq_false, if_false]
    exact emit_deeper he fun hkeep => by simp only [strip_append, hsame hkeep]
  case ifThen =>
    intro test body ihTest ihBody level depth text next h _ hinner
    rw [Instr.innerDepths] at hinner
    obtain ⟨_, testCode, bodyCode, middle, stop, htest, hbody, hmiddle, hstop, he⟩ := instr_ifThen_ok h
    obtain ⟨testCode', htest', hsameTest⟩ :=
      ihTest _ _ _ _ _ htest fun d hd => hinner d (List.mem_append_left _ hd)
    obtain ⟨bodyCode', hbody', hsameBody⟩ :=
      ihBody _ _ _ _ _ hbody fun d hd => hinner d (List.mem_append_right _ hd)
    -- the depth that the test has to leave is one above the new start, however it is summed up
    rw [Nat.add_right_comm] at htest' hbody'
    simp only [instr_ifThen, htest', hbody', hmiddle, hstop, ne_eq, not_true_eq_false, if_false]
    exact emit_deeper he fun hkeep => by simp only [strip_append, hsameTest hkeep, hsameBody hkeep]
  case nil =>
    intro level depth index text after h _
    rw [list] at h ⊢
    cases h
    exact ⟨[], rfl, fun _ => rfl⟩
  case cons =>
    intro x rest ihx ih level depth index text after h hdepths
    obtain ⟨code, next, more, hx, hrest, rfl⟩ := list_cons_ok h
    rw [listDepths, ← instr_ok_depth hx, Int.toNat_natCast] at hdepths
    obtain ⟨code', hx', hsame⟩ := ihx _ _ _ _ hx (hdepths _ (by simp)) fun d hd => hdepths d (by simp [hd])
    obtain ⟨more', hrest', hsameRest⟩ := ih _ _ _ _ _ hrest fun d hd => hdepths d (by simp [hd])
    simp only [list_cons, hx', hrest']
    exact ⟨_, rfl, fun hkeep => by simp only [strip_append, hsame hkeep, hsameRest hkeep]⟩

/-! ## Declarations in front -/

/-- Without comments there is nothing to strip. -/
theorem strip_bare (ho : o.comments = false) {xs : List Instr} {index after : Nat}
    (h : list ⟨o, vars⟩ level depth index xs = .ok (text, after)) : strip text = text := by
  have hbare := (bare_instr_list o ho vars).2 xs level depth index fun l _ label =>
    ⟨[], Listing.mark_bare ho l label⟩
  rw [h, bare_ok] at hbare
  exact (Prod.mk.inj (Except.ok.inj hbare)).1

theorem declare_plain (hnodup : vars.Nodup) :
    declare .plain [] vars = .ok (List.replicate vars.length Act.right.byte) := by
  have h := declare_bare (o := .plain) rfl [] hnodup fun x _ => List.not_mem_nil (a := x)
  have hmoves : (vars.flatMap fun _ => (Fragment.right 1).text) = List.replicate vars.length Act.right.byte := by
    rw [show (Fragment.right 1).text = [Act.right.byte] from rfl, ← List.map_eq_flatMap, List.map_const']
  rw [List.append_nil, hmoves] at h
  simpa [declare, Except.map] using h

/-- **Addresses are relative.** Declare other names in front of the variables of a program: it still compiles,
to the same code behind one move to the right for each of these names, and the stack ends as much deeper. -/
theorem scope_prepend {body : List Instr} {code : Bytes} {d : Nat} (h : scope .plain vars body = .ok (code, d))
    {extra : List Bytes} (hnodup : extra.Nodup) (hfresh : ∀ x ∈ extra, x ∉ vars) :
    scope .plain (extra ++ vars) body =
      .ok (List.replicate extra.length Act.right.byte ++ code, d + extra.length) := by
  obtain ⟨declared, text, hdecl, hbody, rfl⟩ := scope_ok h
  have hvars := (nodup_of_declare hdecl).1
  have hall : (extra ++ vars).Nodup := List.nodup_append.2 ⟨hnodup, hvars, fun x hx y hy e => hfresh x hx (e ▸ hy)⟩
  have hkeep := keepsDistance_append hfresh
  obtain ⟨text', hbody', hsame⟩ := (deeper_instr_list .plain hkeep.keepsReach).2 _ _ _ _ _ _ hbody
    fun d _ => Nat.zero_le d
  -- stripping loses nothing here, so the texts are equal and not only the code in them
  obtain rfl : text' = text := by rw [← strip_bare rfl hbody, ← strip_bare rfl hbody', hsame hkeep]
  rw [declare_plain hvars] at hdecl
  cases hdecl
  rw [scope_eq, declare_plain hall, List.length_append, Nat.add_comm extra.length, hbody', Nat.add_comm vars.length,
    List.replicate_add]
  simp only [List.append_assoc]

/-- Two names in front of one that is read and set at different depths, and inside a block. -/
theorem scope_prepend_pair :
    ∃ code, scope .plain [ascii "n"] [.basic .read, .set (ascii "n"),
        .ifThen [.get (ascii "n")] [.get (ascii "n"), .basic .dec, .set (ascii "n")]] = .ok (code, 1) ∧
      scope .plain [ascii "a", ascii "b", ascii "n"] [.basic .read, .set (ascii "n"),
        .ifThen [.get (ascii "n")] [.get (ascii "n"), .basic .dec, .set (ascii "n")]] = .ok (ascii ">>" ++ code, 3) := by
  obtain ⟨code, h⟩ : ∃ code, scope .plain [ascii "n"] [.basic .read, .set (ascii "n"),
      .ifThen [.get (ascii "n")] [.get (ascii "n"), .basic .dec, .set (ascii "n")]] = .ok (code, 1) := ⟨_, rfl⟩
  have hnodup : [ascii "a", ascii "b"].Nodup := by decide
  exact ⟨code, h, scope_prepend h hnodup (by decide)⟩

/-! ## Declarations in any order -/

open Machine

variable {body : List Instr} {code : Bytes} {final : Nat}

/-- With enough steps, a run leaves the output and the variables of the program on its frame. -/
theorem run_frame (h : scope o vars body = .ok (code, final))
    (habove : ∀ d ∈ listDepths vars.length body, vars.length ≤ d) (input : Bytes) :
    ∃ bound, ∀ size steps, peak vars body + 3 ≤ size →
      (limited size steps).Settles bound code input fun ran =>
        let meant := evalList (Frame.initial input) body
        ran.verdict = .done ∧ ran.output = meant.values.output ∧
        ∀ x ∈ vars, ran.machine.tape[vars.idxOf x]? = some (meant.env x) := by
  have hvars : vars.length ≤ peak vars body := le_peak (List.mem_append_right _ (mem_listDepths_self ..))
  obtain ⟨bound, hbound⟩ := settles_scope h input
  refine ⟨bound, fun size steps hsize => (hbound size steps hsize).imp (Nat.le_refl _) ?_⟩
  rintro ran rfl
  rw [(run_flat h habove input).1]
  refine ⟨rfl, rfl, fun x hx => ?_⟩
  have hlt : vars.idxOf x < vars.length := List.idxOf_lt_length_of_mem hx
  rw [← Frame.get_flat hx]
  exact Stack.getElem?_onTape (by omega)

/-- A scope compiles with any other declarations that hold its variables, when its stack stays above them. It
then stays above the other declarations too. -/
theorem scope_redeclared (h : scope o vars body = .ok (code, final))
    (habove : ∀ d ∈ listDepths vars.length body, vars.length ≤ d) (hnodup : vars'.Nodup) (hsub : vars ⊆ vars') :
    (∃ code' final', scope o vars' body = .ok (code', final')) ∧
      ∀ d ∈ listDepths vars'.length body, vars'.length ≤ d := by
  obtain ⟨declared, text, hdecl, hbody, _⟩ := scope_ok h
  have hlen : vars.length ≤ vars'.length := (List.subperm_of_subset (nodup_of_declare hdecl).1 hsub).length_le
  obtain ⟨shift, hshift⟩ := Nat.exists_eq_add_of_le hlen
  have hreach := keepsReach_of_subset hshift hsub
  obtain ⟨text', hbody', _⟩ := (deeper_instr_list o hreach).2 _ _ _ _ _ _ hbody habove
  obtain ⟨declared', hdecl'⟩ := declare_of_nodup o hnodup fun x _ => List.not_mem_nil (a := x)
  rw [hshift, (depths_deeper ⟨o, vars⟩ shift).2 _ _ _ _ _ _ hbody]
  constructor
  · rw [scope_eq, hdecl', hshift, hbody']
    exact ⟨_, _, rfl⟩
  · intro d hd
    obtain ⟨e, he, rfl⟩ := List.mem_map.1 hd
    have := habove e he
    omega

/-- **Only the names of variables matter.** Take a program whose stack never goes below the cell above its
variables, not even inside a block, and declare its variables in any order, with other names among them. It
still compiles. For every input, with enough cells and steps, both codes complete, write the same output and
leave the same value in the cell of each variable. -/
theorem run_redeclared (h : scope o vars body = .ok (code, final))
    (habove : ∀ d ∈ listDepths vars.length body, vars.length ≤ d) (hnodup : vars'.Nodup) (hsub : vars ⊆ vars') :
    ∃ code' final', scope o vars' body = .ok (code', final') ∧
      ∀ input, ∃ bound, ∀ size steps size' steps', peak vars body + 3 ≤ size → peak vars' body + 3 ≤ size' →
        (limited size steps).Settles bound code input fun ran =>
          (limited size' steps').Settles bound code' input fun ran' =>
            ran.verdict = .done ∧ ran'.verdict = .done ∧ ran.output = ran'.output ∧
            ∀ x ∈ vars, ∃ v, ran.machine.tape[vars.idxOf x]? = some v ∧
              ran'.machine.tape[vars'.idxOf x]? = some v := by
  obtain ⟨⟨code', final', h'⟩, habove'⟩ := scope_redeclared h habove hnodup hsub
  refine ⟨code', final', h', fun input => ?_⟩
  -- one frame stands for both runs, as it is made from the body alone
  obtain ⟨bound, hrun⟩ := run_frame h habove input
  obtain ⟨bound', hrun'⟩ := run_frame h' habove' input
  refine ⟨max bound bound', fun size steps size' steps' hsize hsize' => ?_⟩
  refine (hrun size steps hsize).imp (by omega) fun ran hran => ?_
  refine (hrun' size' steps' hsize').imp (by omega) fun ran' hran' => ?_
  obtain ⟨hdone, hout, hcells⟩ := hran
  obtain ⟨hdone', hout', hcells'⟩ := hran'
  exact ⟨hdone, hdone', hout.trans hout'.symm, fun x hx => ⟨_, hcells x hx, hcells' x (hsub hx)⟩⟩

/-- Two variables change places, with a third name between them. -/
theorem run_redeclared_exchanged :
    ∃ code code', scope .plain [ascii "a", ascii "b"] [.basic .read, .set (ascii "a"),
        .ifThen [.get (ascii "a")] [.get (ascii "a"), .basic .inc, .basic .copy, .set (ascii "b"), .basic .write]] =
          .ok (code, 2) ∧
      scope .plain [ascii "b", ascii "c", ascii "a"] [.basic .read, .set (ascii "a"),
        .ifThen [.get (ascii "a")] [.get (ascii "a"), .basic .inc, .basic .copy, .set (ascii "b"), .basic .write]] =
          .ok (code', 3) ∧
      ∃ bound, ∀ size steps size' steps', 8 ≤ size → 9 ≤ size' →
        (limited size steps).Settles bound code [4] fun ran =>
          (limited size' steps').Settles bound code' [4] fun ran' =>
            ran.verdict = .done ∧ ran'.verdict = .done ∧ ran.output = ran'.output ∧
              ran.machine.tape[1]? = ran'.machine.tape[0]? := by
  obtain ⟨code, h⟩ : ∃ code, scope .plain [ascii "a", ascii "b"] [.basic .read, .set (ascii "a"),
      .ifThen [.get (ascii "a")] [.get (ascii "a"), .basic .inc, .basic .copy, .set (ascii "b"), .basic .write]] =
        .ok (code, 2) := ⟨_, rfl⟩
  have hnodup : [ascii "b", ascii "c", ascii "a"].Nodup := by decide
  obtain ⟨code', final', h', hruns⟩ := run_redeclared h (by decide) hnodup (by decide)
  obtain ⟨bound, hrun⟩ := hruns [4]
  have hfinal : final' = 3 := by
    cases h'
    rfl
  refine ⟨code, code', h, hfinal ▸ h', bound, fun size steps size' steps' hsize hsize' => ?_⟩
  refine (hrun size steps size' steps' hsize hsize').imp (Nat.le_refl _) fun ran hran => ?_
  refine hran.imp (Nat.le_refl _) fun ran' hboth => ?_
  obtain ⟨hdone, hdone', hout, hcells⟩ := hboth
  obtain ⟨v, hv, hv'⟩ := hcells (ascii "b") (by decide)
  exact ⟨hdone, hdone', hout, hv.trans hv'.symm⟩

end Compile

end StackTape

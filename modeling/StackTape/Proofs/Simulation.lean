import StackTape.Proofs.Fragment
import StackTape.Proofs.Shape

/-!
# Generated code does what programs mean

The code of an accepted program crosses from the cells of a stack to the cells that the meaning of the
program gives (`simulates_instr_list`, `simulates_scope`). The invariant between instructions is that the
pointer is at the depth the compiler has computed and that all cells above it are zero (`Clean`). The
crossing also promises it, by way of `Keeps`, wherever the fragment of an instruction ends: inside
blocks too, and whichever way the tests in the code go.
-/

namespace StackTape

/-! ## Clean stacks -/

namespace Stack

variable {s : Stack}

@[simp] theorem depth_push (v : UInt8) : (s.push v).depth = s.depth + 1 := rfl
@[simp] theorem depth_drop : s.drop.depth = s.depth - 1 := rfl
@[simp] theorem depth_combine (f : UInt8 → UInt8 → UInt8) : (s.combine f).depth = s.depth - 1 := rfl

theorem drop_eq : s.drop = (s.setTop 0).moved (s.depth - 1) := rfl

namespace Clean

theorem setCell (h : s.Clean) {i : Nat} (hi : i ≤ s.depth) (v : UInt8) : (s.setCell i v).Clean := by
  intro j hj
  have hj : s.depth < j := hj
  simp only [Stack.setCell]
  rw [if_neg (by omega)]
  exact h j hj

theorem setTop (h : s.Clean) (v : UInt8) : (s.setTop v).Clean := h.setCell (Nat.le_refl _) v

theorem push (h : s.Clean) (v : UInt8) : (s.push v).Clean := by
  intro j hj
  have hj : s.depth + 1 < j := hj
  simp only [Stack.push, Stack.setCell]
  rw [if_neg (by omega)]
  exact h j (by omega)

theorem drop (h : s.Clean) : s.drop.Clean := by
  intro j hj
  have hj : s.depth - 1 < j := hj
  simp only [Stack.drop, Stack.setTop, Stack.setCell]
  split
  · rfl
  · exact h j (by omega)

theorem moved (h : s.Clean) {d : Nat} (hd : s.depth ≤ d) : (s.moved d).Clean := fun i hi =>
  h i (Nat.lt_of_le_of_lt hd hi)

theorem combine (h : s.Clean) (f : UInt8 → UInt8 → UInt8) : (s.combine f).Clean := h.drop.setTop _

end Clean

end Stack

namespace Compile

open Listing

/-! ## Simple instructions -/

theorem basic_runs {hi : Nat} {s : Stack} (b : Basic) (hc : s.Clean) (hpos : b.delta = -1 → 0 < s.depth)
    (hhi : s.depth + 2 ≤ hi) : Runs hi b.fragment s (b.run s) := by
  cases b with
  | clear => exact .clear (by omega)
  | copy => exact .copy hc hhi
  | inc => exact .inc (by omega)
  | dec => exact .dec (by omega)
  | add => exact .add (hpos rfl) (by omega)
  | sub => exact .sub (hpos rfl) (by omega)
  | mul => exact .mul (hpos rfl) hc hhi
  | bool => exact .bool hc (by omega)
  | read => exact .read (by omega)
  | write => exact .write (hpos rfl) (by omega)

theorem basic_depth {s : Stack} (b : Basic) (hpos : b.delta = -1 → 0 < s.depth) :
    ((b.run s).depth : Int) = s.depth + b.delta := by
  cases b <;> simp [Basic.run, Basic.delta] at hpos ⊢ <;> omega

theorem basic_clean {s : Stack} (b : Basic) (hc : s.Clean) : (b.run s).Clean := by
  cases b with
  | clear | inc | dec | bool => exact hc.setTop _
  | copy => exact hc.push _
  | read => exact Stack.Clean.push (s := { s with input := s.input.tail }) hc _
  | add | sub | mul => exact hc.combine _
  | write => exact Stack.Clean.drop (s := s.write [s.top]) hc

theorem idxOf_of_idxOf? {vars : List Bytes} {x : Bytes} {slot : Nat} (h : vars.idxOf? x = some slot) :
    vars.idxOf x = slot := by
  rw [List.idxOf?] at h
  rw [List.idxOf, List.findIdx_eq_getD_findIdx?, h, Option.getD_some]

/-- The fragment of a simple instruction does what the instruction means, and leaves a clean stack of the
depth that the compiler has computed. -/
theorem Lowers.runs {vars : List Bytes} {hi next : Nat} {s : Stack} {x : Instr} {b : Block} {δ : Int}
    (h : Lowers vars s.depth x b δ) (hnext : (next : Int) = s.depth + δ) (hc : s.Clean)
    (hhi : s.depth + 2 ≤ hi) :
    Runs hi b s (x.run vars s) ∧ (x.run vars s).depth = next ∧ (x.run vars s).Clean := by
  cases h with
  | basic b =>
    have hpos : b.delta = -1 → 0 < s.depth := by omega
    have hd := basic_depth b hpos
    rw [Instr.run]
    exact ⟨basic_runs b hc hpos hhi, by omega, basic_clean b hc⟩
  | push hn =>
    rw [Instr.run]
    exact ⟨.push _ hc (by omega), by simp; omega, hc.push _⟩
  | addc hn =>
    rw [Instr.run]
    exact ⟨.number _ (by omega), by simp; omega, hc.setTop _⟩
  | subc hn =>
    rw [Instr.run]
    exact ⟨.lessen _ (by omega), by simp; omega, hc.setTop _⟩
  | get hslot hle =>
    rename_i slot
    rw [Instr.run, idxOf_of_idxOf? hslot]
    refine ⟨?_, by simp; omega, hc.push _⟩
    have h := Runs.get (s.depth - slot) hc (by omega) hhi
    rwa [show s.depth - (s.depth - slot) = slot by omega] at h
  | set hslot hlt =>
    rename_i slot
    rw [Instr.run, idxOf_of_idxOf? hslot]
    refine ⟨?_, by simp; omega, Stack.Clean.drop (hc.setCell (by omega) _)⟩
    have h : Runs hi (Fragment.set (s.depth - slot : Nat)) s
        ((s.setCell (s.depth - (s.depth - slot)) s.top).drop) := .set _ (by omega) (by omega) (by omega)
    rwa [show s.depth - (s.depth - slot) = slot by omega] at h
  | print t =>
    rw [Instr.run]
    exact ⟨.say t hc (by omega), by simp; omega, hc⟩

/-! ## Passing the end of a fragment -/

/-- Where one of the ends is passed, the stack is clean and has the depth of that end. -/
def Keeps (o : Options) (Ends : Bytes → Nat → Prop) (i : Nat) (r : Stack) : Prop :=
  ∀ upto d, Ends upto d → i ≤ upto.length → upto.length ≤ i + (depthNote o d).length →
    r.depth = d ∧ r.Clean

/-- The ends in two stretches in a row: those in the first, and those in the second behind the first. -/
theorem Keeps.of_joined {o : Options} {E E₁ E₂ : Bytes → Nat → Prop} {t₁ t₂ : Bytes} {i : Nat} {r : Stack}
    (h : joined t₁.length (Keeps o E₁) (Keeps o E₂) i r) (h₁ : ∀ u d, E₁ u d → Placed o t₁ u d)
    (h₂ : ∀ u d, E₂ u d → Placed o t₂ u d)
    (hE : ∀ v d, E v d → E₁ v d ∨ ∃ u, E₂ u d ∧ v = t₁ ++ u) : Keeps o E i r := by
  intro v d hv hle hge
  rcases hE v d hv with hu | ⟨u, hu, rfl⟩
  · have := (h₁ v d hu).le_length
    exact h.1 (by omega) v d hu hle hge
  · have := (h₂ u d hu).note_le
    rw [List.length_append] at hle hge
    exact h.2 (by omega) u d hu (by omega) (by omega)

section
variable {hi : Nat} {I : Nat → Stack → Prop} {t : Bytes} {s s' : Stack}

/-- A stretch between comments. Behind it, nothing changes any more. -/
theorem crosses_padded {m n : Bytes} (hm : Silent m) (hn : Silent n) (h : Crosses hi I t s s') :
    Crosses hi (fun i r => (m.length ≤ i → i ≤ m.length + t.length → I (i - m.length) r) ∧
      (m.length + t.length ≤ i → r = s')) (m ++ t ++ n) s s' := by
  have hbefore : Crosses hi (fun _ _ => True) m s s := .comment hm h.start_le fun _ _ => trivial
  have hafter : Crosses hi (fun _ r => r = s') n s' s' := .comment hn h.finish_le fun _ _ => rfl
  refine ((hbefore.append h).append hafter).mono fun i r _ hI => ⟨fun hlo hhi => ?_, fun hlo => ?_⟩
  · exact (hI.1 (by rwa [List.length_append])).2 hlo
  · exact hI.2 (by rwa [List.length_append])

/-- The loop around the body of a conditional runs at most once, as the body is followed by a clear. -/
theorem crosses_once {o : Options} {E : Bytes → Nat → Prop} {stop : Bytes} (hstop : Silent stop)
    (ht : Balanced t) (hE : ∀ u d, E u d → Placed o t u d) (h : Crosses hi (Keeps o E) t s s') :
    Crosses hi (Keeps o fun v d => ∃ u, E u d ∧ v = [Symbol.enter.byte] ++ lineBreak o ++ u)
      (Symbol.enter.byte :: ((lineBreak o ++ t ++ stop ++ Fragment.clear.text) ++ [Symbol.leave.byte]))
      s (if s.top = 0 then s else s'.setTop 0) := by
  have hbal : Balanced (lineBreak o ++ t ++ stop ++ Fragment.clear.text) :=
    (((silent_lineBreak o).balanced.append ht).append hstop.balanced).append (Block.balanced_text _)
  -- no end is at either bracket
  have hedge : ∀ i r, i = 0 ∨ i = (lineBreak o ++ t ++ stop ++ Fragment.clear.text).length + 2 →
      Keeps o (fun v d => ∃ u, E u d ∧ v = [Symbol.enter.byte] ++ lineBreak o ++ u) i r := by
    rintro i r hi _ d ⟨u, hu, rfl⟩ hle hge
    have := (hE u d hu).note_le
    have := (hE u d hu).le_length
    simp only [List.length_append, List.length_singleton] at hi hle hge
    omega
  by_cases h0 : s.top = 0
  · rw [if_pos h0]
    exact .skip h0 hbal (hedge _ _ (.inl rfl)) (hedge _ _ (.inr rfl)) h.start_le
  · rw [if_neg h0]
    have hclear : Crosses hi (fun _ _ => True) Fragment.clear.text s' (s'.setTop 0) := Runs.clear h.finish_le
    have hturn := (crosses_padded (silent_lineBreak o) hstop h).append hclear
    have hzero : (s'.setTop 0).top = 0 := by simp [Stack.setTop, Stack.setCell, Stack.top]
    refine .again h0 hbal hturn
      (.skip hzero hbal (hedge _ _ (.inl rfl)) (hedge _ _ (.inr rfl)) h.finish_le) (hedge _ _ (.inl rfl)) ?_
    rintro i r _ hI _ d ⟨u, hu, rfl⟩ hle hge
    have := (hE u d hu).note_le
    have := (hE u d hu).le_length
    simp only [List.length_append, List.length_singleton] at hle hge
    have hin := hI.1 (by simp only [List.length_append]; omega)
    exact hin.1 (by omega) (by omega) u d hu (by omega) (by omega)

end

/-! ## Instructions -/

/-- The code takes `s` to the clean stack `s'` of depth `after`, and what it promises at its ends holds. -/
structure Simulates (hi : Nat) (o : Options) (E : Bytes → Nat → Prop) (text : Bytes) (after : Nat)
    (s s' : Stack) : Prop where
  crosses : Crosses hi (Keeps o E) text s s'
  depth_eq : s'.depth = after
  clean : s'.Clean

section
variable {c : Context} {hi level depth next : Nat} {text : Bytes} {s : Stack}

theorem simulates_simple {x : Instr} (hx : x.isSimple = true) (h : instr c level depth x = .ok (text, next))
    (hs : s.depth = depth) (hc : s.Clean) (hhi : depth + 2 ≤ hi) :
    Simulates hi c.options (InstrEnd c level depth x) text next s (x.run c.vars s) := by
  subst hs
  obtain ⟨b, δ, hb, he⟩ := instr_simple_ok hx h
  obtain ⟨hnext, m, hm, rfl⟩ := emit_ok he
  obtain ⟨hruns, hd, hcl⟩ := hb.runs hnext hc hhi
  have hline := crosses_padded (silent_mark hm) (silent_depthNote c.options next) hruns
  refine ⟨hline.mono fun i r _ hI upto d hend hle hge => ?_, hd, hcl⟩
  cases hend with
  | own h' =>
    rw [h] at h'
    cases h'
    rw [hI.2 (by simp only [List.length_append] at hge; omega)]
    exact ⟨hd, hcl⟩
  | stat | test | body => cases hx

theorem simulates_stat {body : List Instr} {code : Bytes}
    (h : instr c level depth (.stat body) = .ok (text, next))
    (hbody : list c (level + 1) depth 0 body = .ok (code, depth))
    (hsim : Simulates hi c.options (ListEnd c (level + 1) depth body) code depth s (runList c.vars s body)) :
    Simulates hi c.options (InstrEnd c level depth (.stat body)) text next s
      ((Instr.stat body).run c.vars s) := by
  obtain ⟨rfl, code', stop, hbody', hstop, he⟩ := instr_stat_ok h
  rw [hbody] at hbody'
  cases hbody'
  obtain ⟨_, m, hm, rfl⟩ := emit_ok he
  obtain ⟨hcross, hd, hcl⟩ := hsim
  rw [Instr.run]
  have hline := crosses_padded ((silent_mark hm).append (silent_lineBreak c.options))
    ((silent_mark hstop).append (silent_depthNote c.options next)) hcross
  have htext : m ++ (lineBreak c.options ++ code ++ stop) ++ depthNote c.options next =
      m ++ lineBreak c.options ++ code ++ (stop ++ depthNote c.options next) := by simp
  rw [← htext] at hline
  refine ⟨hline.mono fun i r _ hI upto d hend hle hge => ?_, hd, hcl⟩
  simp only [List.length_append] at hI
  cases hend with
  | own h' =>
    rw [h] at h'
    cases h'
    rw [hI.2 (by simp only [List.length_append] at hge; omega)]
    exact ⟨hd, hcl⟩
  | stat hm' hend =>
    rw [hm] at hm'
    cases hm'
    have hplaced := list_placed hbody hend
    have := hplaced.note_le
    have := hplaced.le_length
    simp only [List.length_append] at hle hge
    exact hI.1 (by omega) (by omega) _ _ hend (by omega) (by omega)

/-- The test leaves its value on top; the loop around the body drops it to zero, and the pointer goes back
below it. -/
theorem simulates_ifThen {test body : List Instr} {testCode bodyCode : Bytes} {tested ran : Stack}
    (h : instr c level depth (.ifThen test body) = .ok (text, next))
    (htest : list c (level + 1) depth 0 test = .ok (testCode, depth + 1))
    (hbody : list c (level + 1) (depth + 1) 0 body = .ok (bodyCode, depth + 1))
    (hsimTest : Simulates hi c.options (ListEnd c (level + 1) depth test) testCode (depth + 1) s tested)
    (hsimBody : Simulates hi c.options (ListEnd c (level + 1) (depth + 1) body) bodyCode (depth + 1)
      tested ran) :
    Simulates hi c.options (InstrEnd c level depth (.ifThen test body)) text next s
      (if tested.top = 0 then tested.drop else ran.drop) := by
  obtain ⟨rfl, testCode', bodyCode', middle, stop, htest', hbody', hmiddle, hstop, he⟩ := instr_ifThen_ok h
  rw [htest] at htest'
  rw [hbody] at hbody'
  cases htest'
  cases hbody'
  obtain ⟨_, m, hm, rfl⟩ := emit_ok he
  obtain ⟨hcrossTest, hdTest, hclTest⟩ := hsimTest
  obtain ⟨hcrossBody, hdBody, hclBody⟩ := hsimBody
  have hmid : Crosses hi (fun _ _ => True) middle tested tested :=
    .comment (silent_mark hmiddle) hcrossTest.finish_le fun _ _ => trivial
  have hloop := crosses_once (silent_mark hstop) (list_balanced hbody)
    (fun u d hend => list_placed hbody hend) hcrossBody
  have hleft : Crosses hi (fun _ _ => True) (Fragment.left 1).text
      (if tested.top = 0 then tested else ran.setTop 0)
      (if tested.top = 0 then tested.drop else ran.drop) := by
    split
    · rename_i h0
      rw [Stack.drop_eq, ← h0, Stack.setTop_top]
      exact Runs.left (k := 1) rfl (by omega) hcrossTest.finish_le
    · exact Runs.left (k := 1) rfl (by simp; omega) hcrossBody.finish_le
  have hd : (if tested.top = 0 then tested.drop else ran.drop).depth = next := by
    split <;> simp <;> omega
  have hcl : (if tested.top = 0 then tested.drop else ran.drop).Clean := by
    split
    · exact hclTest.drop
    · exact hclBody.drop
  have hline := crosses_padded ((silent_mark hm).append (silent_lineBreak c.options))
    (silent_depthNote c.options next) (hcrossTest.append (hmid.append (hloop.append hleft)))
  have htext : m ++ (lineBreak c.options ++ testCode ++ middle ++ [Symbol.enter.byte] ++ lineBreak c.options ++
        bodyCode ++ stop ++ Fragment.clear.text ++ [Symbol.leave.byte] ++ (Fragment.left 1).text) ++
        depthNote c.options next =
      m ++ lineBreak c.options ++ (testCode ++ (middle ++ (Symbol.enter.byte :: (lineBreak c.options ++ bodyCode ++
        stop ++ Fragment.clear.text ++ [Symbol.leave.byte]) ++ (Fragment.left 1).text))) ++
        depthNote c.options next := by simp
  rw [← htext] at hline
  refine ⟨hline.mono fun i r _ hI upto d hend hle hge => ?_, hd, hcl⟩
  simp only [List.length_append, List.length_cons, List.length_nil] at hI
  cases hend with
  | own h' =>
    rw [h] at h'
    cases h'
    rw [hI.2 (by simp only [List.length_append, List.length_cons, List.length_nil] at hge; omega)]
    exact ⟨hd, hcl⟩
  | test hm' hend =>
    rw [hm] at hm'
    cases hm'
    have hplaced := list_placed htest hend
    have := hplaced.note_le
    have := hplaced.le_length
    simp only [List.length_append] at hle hge
    exact (hI.1 (by omega) (by omega)).1 (by omega) _ _ hend (by omega) (by omega)
  | body hm' htest' hmiddle' hend =>
    rw [hm] at hm'
    rw [htest] at htest'
    rw [hmiddle] at hmiddle'
    cases hm'
    cases htest'
    cases hmiddle'
    have hplaced := list_placed hbody hend
    have := hplaced.note_le
    have := hplaced.le_length
    simp only [List.length_append, List.length_singleton] at hle hge
    -- past the test and the comment after it, inside the loop
    have hin := (((hI.1 (by omega) (by omega)).2 (by omega)).2 (by omega)).1 (by omega)
    refine hin _ d ⟨_, hend, rfl⟩ ?_ ?_ <;> simp only [List.length_append, List.length_singleton] <;> omega

theorem simulates_cons {index after : Nat} {x : Instr} {rest : List Instr} {code more : Bytes} {s₁ s₂ : Stack}
    (hx : instr c level depth x = .ok (code, next))
    (hrest : list c level next (index + 1) rest = .ok (more, after))
    (h₁ : Simulates hi c.options (InstrEnd c level depth x) code next s s₁)
    (h₂ : Simulates hi c.options (ListEnd c level next rest) more after s₁ s₂) :
    Simulates hi c.options (ListEnd c level depth (x :: rest)) (code ++ more) after s s₂ := by
  refine ⟨(h₁.crosses.append h₂.crosses).mono fun i r _ hI => ?_, h₂.depth_eq, h₂.clean⟩
  refine Keeps.of_joined hI (fun u d hend => instr_placed hx hend)
    (fun u d hend => list_placed hrest hend) fun v d hend => ?_
  cases hend with
  | head hend => exact .inl hend
  | tail hx' hend =>
    rw [hx] at hx'
    cases hx'
    exact .inr ⟨_, hend, rfl⟩

end

/-! ## Programs -/

/-- Accepted code simulates the program, provided that the machine may use two cells above every depth that
the compiler goes through. -/
theorem simulates_instr_list (c : Context) (hi : Nat) :
    (∀ x : Instr, ∀ level depth text next, instr c level depth x = .ok (text, next) →
      ∀ s : Stack, s.depth = depth → s.Clean → depth + 2 ≤ hi → (∀ d ∈ x.innerDepths depth, d + 2 ≤ hi) →
      Simulates hi c.options (InstrEnd c level depth x) text next s (x.run c.vars s)) ∧
    ∀ xs : List Instr, ∀ level depth index text after, list c level depth index xs = .ok (text, after) →
      ∀ s : Stack, s.depth = depth → s.Clean → (∀ d ∈ listDepths depth xs, d + 2 ≤ hi) →
      Simulates hi c.options (ListEnd c level depth xs) text after s (runList c.vars s xs) := by
  apply Instr.induct
  case simple =>
    intro x hx level depth text next h s hs hc hhi _
    exact simulates_simple hx h hs hc hhi
  case stat =>
    intro body ih level depth text next h s hs hc _ hinner
    rw [Instr.innerDepths] at hinner
    obtain ⟨_, code, _, hbody, _⟩ := instr_stat_ok h
    exact simulates_stat h hbody (ih _ _ _ _ _ hbody s hs hc hinner)
  case ifThen =>
    intro test body ihTest ihBody level depth text next h s hs hc _ hinner
    rw [Instr.innerDepths] at hinner
    obtain ⟨_, testCode, bodyCode, _, _, htest, hbody, _⟩ := instr_ifThen_ok h
    have hsimTest := ihTest _ _ _ _ _ htest s hs hc fun d hd => hinner d (List.mem_append_left _ hd)
    have hsimBody := ihBody _ _ _ _ _ hbody _ hsimTest.depth_eq hsimTest.clean
      fun d hd => hinner d (List.mem_append_right _ hd)
    rw [Instr.run]
    exact simulates_ifThen h htest hbody hsimTest hsimBody
  case nil =>
    intro level depth index text after h s hs hc hhi
    rw [list] at h
    cases h
    rw [runList]
    have := hhi _ (mem_listDepths_self ..)
    refine ⟨.nil ?_ (by omega), hs, hc⟩
    intro upto d hend
    cases hend
  case cons =>
    intro x rest ihx ih level depth index text after h s hs hc hhi
    obtain ⟨code, next, more, hx, hrest, rfl⟩ := list_cons_ok h
    rw [listDepths, ← instr_ok_depth hx, Int.toNat_natCast] at hhi
    have hsim := ihx _ _ _ _ hx s hs hc (hhi _ (by simp)) fun d hd => hhi d (by simp [hd])
    rw [runList]
    exact simulates_cons hx hrest hsim
      (ih _ _ _ _ _ hrest _ hsim.depth_eq hsim.clean fun d hd => hhi d (by simp [hd]))

/-- Declarations move the top up to the first cell above the variables. -/
theorem simulates_declare {o : Options} {seen vars : List Bytes} {hi : Nat} {text : Bytes} {s : Stack}
    (h : declare o seen vars = .ok text) (hs : s.depth = seen.length) (hc : s.Clean)
    (hhi : seen.length + vars.length ≤ hi) :
    Simulates hi o (DeclareEnd o seen vars) text (seen.length + vars.length) s
      (s.moved (seen.length + vars.length)) := by
  induction vars generalizing seen text s with
  | nil =>
    cases h
    have e : s.moved (seen.length + ([] : List Bytes).length) = s := by
      rw [List.length_nil, Nat.add_zero, ← hs]
      rfl
    rw [e]
    refine ⟨.nil ?_ (by simp at hhi; omega), by simpa using hs, hc⟩
    intro upto d hend
    cases hend
  | cons x rest ih =>
    obtain ⟨code, more, hline, hmore, rfl⟩ := declare_cons_ok h
    obtain ⟨_, m, hm, hcode⟩ := emit_ok hline
    rw [List.length_cons] at hhi ⊢
    have hright : Crosses hi (fun _ _ => True) (Fragment.right 1).text s (s.moved (seen.length + 1)) := by
      rw [← hs]
      exact Runs.right (k := 1) rfl (by omega)
    have hcl : (s.moved (seen.length + 1)).Clean := hc.moved (by omega)
    have hfirst : Crosses hi (Keeps o fun u d => u = code ∧ d = seen.length + 1) code s
        (s.moved (seen.length + 1)) := by
      rw [hcode]
      refine (crosses_padded (silent_mark hm) (silent_depthNote o _) hright).mono ?_
      rintro i r _ hI _ _ ⟨rfl, rfl⟩ _ hge
      rw [hI.2 (by simp only [List.length_append] at hge; omega)]
      exact ⟨rfl, hcl⟩
    have hsim := ih (s := s.moved (seen.length + 1)) hmore rfl hcl (by simp only [List.length_cons]; omega)
    rw [List.length_cons, Nat.add_right_comm, Nat.add_assoc] at hsim
    refine ⟨(hfirst.append hsim.crosses).mono fun i r _ hI => ?_, rfl, hsim.clean⟩
    refine Keeps.of_joined hI ?_ (fun u d hend => declare_placed hmore hend) fun v d hend => ?_
    · rintro _ _ ⟨rfl, rfl⟩
      exact .of_emit hline
    · cases hend with
      | head hline' =>
        rw [hline] at hline'
        cases hline'
        exact .inl ⟨rfl, rfl⟩
      | tail hline' hend =>
        rw [hline] at hline'
        cases hline'
        exact .inr ⟨_, hend, rfl⟩

/-- **Generated code simulates the program**: from empty cells, it crosses to the cells that the program
leaves, with the pointer never more than two cells above the greatest depth. -/
theorem simulates_scope {o : Options} {vars : List Bytes} {body : List Instr} {code : Bytes} {final : Nat}
    (h : scope o vars body = .ok (code, final)) (input : Bytes) :
    Simulates (peak vars body + 2) o (ScopeEnd o vars body) code final (.initial [] input)
      (Program.run ⟨vars, body⟩ input) := by
  obtain ⟨declared, text, hdecl, hbody, rfl⟩ := scope_ok h
  have hvars : vars.length ≤ peak vars body :=
    le_peak (List.mem_append_right _ (mem_listDepths_self ..))
  have hdeclare : Simulates (peak vars body + 2) o (DeclareEnd o [] vars) declared vars.length
      (.initial [] input) (.initial vars input) := by
    have hle : ([] : List Bytes).length + vars.length ≤ peak vars body + 2 := by
      rw [List.length_nil]
      omega
    have hsim := simulates_declare hdecl (s := .initial [] input) rfl (fun _ _ => rfl) hle
    rw [List.length_nil, Nat.zero_add] at hsim
    exact hsim
  have hlist := (simulates_instr_list ⟨o, vars⟩ (peak vars body + 2)).2 _ _ _ _ _ _ hbody
    (.initial vars input) rfl hdeclare.clean fun d hd => Nat.add_le_add_right (le_peak (List.mem_append_right _ hd)) 2
  have hbreak : Crosses (peak vars body + 2) (Keeps o (DeclareEnd o [] vars)) (declared ++ lineBreak o)
      (.initial [] input) (.initial vars input) := by
    have hsilent : Crosses (peak vars body + 2) (fun _ _ => True) (lineBreak o) (.initial vars input)
        (.initial vars input) := .comment (silent_lineBreak o) hdeclare.crosses.finish_le fun _ _ => trivial
    refine (hdeclare.crosses.append hsilent).mono fun i r _ hI upto d hend hle hge => ?_
    exact hI.1 (Nat.le_trans hle (declare_placed hdecl hend).le_length) upto d hend hle hge
  refine ⟨(hbreak.append hlist.crosses).mono fun i r _ hI => ?_, hlist.depth_eq, hlist.clean⟩
  refine Keeps.of_joined hI (fun u d hend => (declare_placed hdecl hend).append _)
    (fun u d hend => list_placed hbody hend) fun v d hend => ?_
  cases hend with
  | declaration hend => exact .inl hend
  | instr hdecl' hend =>
    rw [hdecl] at hdecl'
    cases hdecl'
    exact .inr ⟨_, hend, rfl⟩

end Compile

end StackTape

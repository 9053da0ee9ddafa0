import StackTape.Proofs.Layout

/-!
# Which programs compile, and what is wrong with the others

A program compiles exactly when its stack depth can be typed: `ListTyped vars d xs d'` says that the list `xs`
takes a stack of depth `d` to one of depth `d'`, where `vars` are the declared variables. The rules say
nothing about code.

A program that does not compile has a first fault, described by rules of its own (`ListFault`): whatever the
compiler looks at before it is typed, and there one condition fails. The path of the fault leads to the
instruction that breaks the condition, and nothing behind it matters (`SameUntil`).
-/

namespace StackTape

/-! ## Depth typing -/

mutual

/-- The instruction takes a stack of the first depth to one of the second. -/
inductive Instr.Typed (vars : List Bytes) : Nat → Instr → Nat → Prop
  | basic {d d' : Nat} {b : Basic} : (d' : Int) = d + b.delta → Instr.Typed vars d (.basic b) d'
  | push {d : Nat} {n : Int} : 0 ≤ n → Instr.Typed vars d (.push n) (d + 1)
  | addc {d : Nat} {n : Int} : 0 ≤ n → Instr.Typed vars d (.addc n) d
  | subc {d : Nat} {n : Int} : 0 ≤ n → Instr.Typed vars d (.subc n) d
  | get {d slot : Nat} {x : Bytes} : vars[slot]? = some x → slot ≤ d → Instr.Typed vars d (.get x) (d + 1)
  | set {d slot : Nat} {x : Bytes} : vars[slot]? = some x → slot < d → Instr.Typed vars d (.set x) (d - 1)
  | print {d : Nat} (t : Bytes) : Instr.Typed vars d (.print t) d
  | stat {d : Nat} {body : List Instr} : ListTyped vars d body d → Instr.Typed vars d (.stat body) d
  | ifThen {d : Nat} {test body : List Instr} : ListTyped vars d test (d + 1) →
    ListTyped vars (d + 1) body (d + 1) → Instr.Typed vars d (.ifThen test body) d

/-- The list takes a stack of the first depth to one of the second, one instruction after the other. -/
inductive ListTyped (vars : List Bytes) : Nat → List Instr → Nat → Prop
  | nil {d : Nat} : ListTyped vars d [] d
  | cons {d d' d'' : Nat} {x : Instr} {rest : List Instr} : Instr.Typed vars d x d' →
    ListTyped vars d' rest d'' → ListTyped vars d (x :: rest) d''

end

/-! ## Faults -/

mutual

/-- The instruction, met at a depth, has a fault with a path inside it and a cause. -/
inductive Instr.Fault (vars : List Bytes) : Nat → Instr → List PathStep → Cause → Prop
  | depth {d : Nat} {b : Basic} : d + b.delta < 0 →
    Instr.Fault vars d (.basic b) [] (.negativeDepth b.name d b.delta)
  | push {d : Nat} {n : Int} : n < 0 → Instr.Fault vars d (.push n) [] (.negativeConstant (Instr.push n).label)
  | addc {d : Nat} {n : Int} : n < 0 → Instr.Fault vars d (.addc n) [] (.negativeConstant (Instr.addc n).label)
  | subc {d : Nat} {n : Int} : n < 0 → Instr.Fault vars d (.subc n) [] (.negativeConstant (Instr.subc n).label)
  | getName {d : Nat} {x : Bytes} : x ∉ vars → Instr.Fault vars d (.get x) [] (.undefinedVariable x)
  | setName {d : Nat} {x : Bytes} : x ∉ vars → Instr.Fault vars d (.set x) [] (.undefinedVariable x)
  | getReach {d slot : Nat} {x : Bytes} : vars[slot]? = some x → d < slot →
    Instr.Fault vars d (.get x) [] (.outOfReach x slot d)
  | setReach {d slot : Nat} {x : Bytes} : vars[slot]? = some x → d ≤ slot →
    Instr.Fault vars d (.set x) [] (.outOfReach x slot d)
  | foreign {d : Nat} (type : Bytes) : Instr.Fault vars d (.foreign type) [] (.unsupported type)
  | inStat {d : Nat} {body : List Instr} {p : List PathStep} {c : Cause} : ListFault vars d body p c →
    Instr.Fault vars d (.stat body) (.stat :: p) c
  | imbalance {d d' : Nat} {body : List Instr} : ListTyped vars d body d' → d' ≠ d →
    Instr.Fault vars d (.stat body) [] (.imbalance d d')
  | inTest {d : Nat} {test body : List Instr} {p : List PathStep} {c : Cause} : ListFault vars d test p c →
    Instr.Fault vars d (.ifThen test body) (.test :: p) c
  | testDepth {d d' : Nat} {test body : List Instr} : ListTyped vars d test d' → d' ≠ d + 1 →
    Instr.Fault vars d (.ifThen test body) [] (.testDepth d d')
  | inBody {d : Nat} {test body : List Instr} {p : List PathStep} {c : Cause} : ListTyped vars d test (d + 1) →
    ListFault vars (d + 1) body p c → Instr.Fault vars d (.ifThen test body) (.body :: p) c
  | bodyDepth {d d' : Nat} {test body : List Instr} : ListTyped vars d test (d + 1) →
    ListTyped vars (d + 1) body d' → d' ≠ d + 1 → Instr.Fault vars d (.ifThen test body) [] (.bodyDepth (d + 1) d')

/-- The list, met at a depth, has a fault: all before one of its instructions is typed, and that instruction
has the fault. -/
inductive ListFault (vars : List Bytes) : Nat → List Instr → List PathStep → Cause → Prop
  | intro {d d' : Nat} {before rest : List Instr} {x : Instr} {p : List PathStep} {c : Cause} :
    ListTyped vars d before d' → Instr.Fault vars d' x p c →
    ListFault vars d (before ++ x :: rest) (.instr before.length x.label :: p) c

end

/-- The first fault of a scope: a name that is declared before, else the first fault of the body. -/
inductive ScopeFault : List Bytes → List Instr → List PathStep → Cause → Prop
  | declaration {before rest : List Bytes} {x : Bytes} {body : List Instr} : before.Nodup → x ∈ before →
    ScopeFault (before ++ x :: rest) body [] (.duplicateVariable x)
  | body {vars : List Bytes} {body : List Instr} {p : List PathStep} {c : Cause} : vars.Nodup →
    ListFault vars vars.length body p c → ScopeFault vars body p c

/-! ## What comes behind a fault -/

/-- The lists agree in all that is looked at up to the fault with this path and cause. Behind the instruction
that breaks a condition everything is free, at all levels around it; when a test has the wrong depth, the
body behind it is free too. -/
inductive SameUntil : List PathStep → Cause → List Instr → List Instr → Prop
  | here (before : List Instr) (x : Instr) (rest rest' : List Instr) (c : Cause) :
    SameUntil [.instr before.length x.label] c (before ++ x :: rest) (before ++ x :: rest')
  | tested (before test body body' rest rest' : List Instr) (d d' : Nat) (label : Bytes) :
    SameUntil [.instr before.length label] (.testDepth d d') (before ++ .ifThen test body :: rest)
      (before ++ .ifThen test body' :: rest')
  | inStat {p : List PathStep} {c : Cause} {xs ys : List Instr} (before rest rest' : List Instr) (label : Bytes) :
    SameUntil p c xs ys → SameUntil (.instr before.length label :: .stat :: p) c (before ++ .stat xs :: rest)
      (before ++ .stat ys :: rest')
  | inTest {p : List PathStep} {c : Cause} {xs ys : List Instr} (before body body' rest rest' : List Instr)
    (label : Bytes) : SameUntil p c xs ys →
    SameUntil (.instr before.length label :: .test :: p) c (before ++ .ifThen xs body :: rest)
      (before ++ .ifThen ys body' :: rest')
  | inBody {p : List PathStep} {c : Cause} {xs ys : List Instr} (before test rest rest' : List Instr)
    (label : Bytes) : SameUntil p c xs ys →
    SameUntil (.instr before.length label :: .body :: p) c (before ++ .ifThen test xs :: rest)
      (before ++ .ifThen test ys :: rest')

/-- The scopes agree in all that is looked at up to the fault with this path and cause. Behind a name that is
declared twice everything is free. -/
inductive SameScopeUntil : List PathStep → Cause → List Bytes → List Instr → List Bytes → List Instr → Prop
  | declaration {before rest rest' : List Bytes} {x : Bytes} (body body' : List Instr) : before.Nodup →
    x ∈ before → SameScopeUntil [] (.duplicateVariable x) (before ++ x :: rest) body (before ++ x :: rest') body'
  | body {p : List PathStep} {c : Cause} {body body' : List Instr} (vars : List Bytes) : SameUntil p c body body' →
    SameScopeUntil p c vars body vars body'

variable {vars : List Bytes}

theorem ListFault.at {d : Nat} {before rest : List Instr} {x : Instr} {label : Bytes} {p : List PathStep}
    {c : Cause} (h : ListFault vars d (before ++ x :: rest) (.instr before.length label :: p) c) :
    label = x.label ∧ ∃ d', ListTyped vars d before d' ∧ x.Fault vars d' p c := by
  generalize hxs : before ++ x :: rest = xs at h
  generalize hq : PathStep.instr before.length label :: p = q at h
  cases h with
  | intro hbefore hx =>
    simp only [List.cons.injEq, PathStep.instr.injEq] at hq
    obtain ⟨⟨hlen, rfl⟩, rfl⟩ := hq
    obtain ⟨rfl, hrest⟩ := List.append_inj hxs hlen
    obtain ⟨rfl, rfl⟩ := List.cons.inj hrest
    exact ⟨rfl, _, hbefore, hx⟩

/-- What comes behind a fault does not matter. -/
theorem ListFault.of_same {d : Nat} {xs ys : List Instr} {p : List PathStep} {c : Cause}
    (hsame : SameUntil p c xs ys) (h : ListFault vars d xs p c) : ListFault vars d ys p c := by
  induction hsame generalizing d with
  | here before x rest rest' c =>
    obtain ⟨_, d', hbefore, hx⟩ := ListFault.at h
    exact .intro hbefore hx
  | tested before test body body' rest rest' e e' label =>
    obtain ⟨rfl, d', hbefore, hx⟩ := ListFault.at h
    cases hx with
    | testDepth htest hne => exact .intro (x := .ifThen test body') hbefore (.testDepth htest hne)
  | inStat before rest rest' label _ ih =>
    obtain ⟨rfl, d', hbefore, hx⟩ := ListFault.at h
    cases hx with
    | inStat hbody => exact .intro (x := .stat _) hbefore (.inStat (ih hbody))
  | inTest before body body' rest rest' label _ ih =>
    obtain ⟨rfl, d', hbefore, hx⟩ := ListFault.at h
    cases hx with
    | inTest htest => exact .intro (x := .ifThen _ body') hbefore (.inTest (ih htest))
  | inBody before test rest rest' label _ ih =>
    obtain ⟨rfl, d', hbefore, hx⟩ := ListFault.at h
    cases hx with
    | inBody htest hbody => exact .intro (x := .ifThen test _) hbefore (.inBody htest (ih hbody))

/-- A fault of a list whose first instruction has the given index. -/
def FaultFrom (vars : List Bytes) (index d : Nat) (xs : List Instr) (p : List PathStep) (cause : Cause) : Prop :=
  ∃ before x rest d' q, xs = before ++ x :: rest ∧ ListTyped vars d before d' ∧ x.Fault vars d' q cause ∧
    p = .instr (index + before.length) x.label :: q

theorem listFault_iff {d : Nat} {xs : List Instr} {p : List PathStep} {cause : Cause} :
    ListFault vars d xs p cause ↔ FaultFrom vars 0 d xs p cause := by
  constructor
  · rintro ⟨hbefore, hx⟩
    exact ⟨_, _, _, _, _, rfl, hbefore, hx, by rw [Nat.zero_add]⟩
  · rintro ⟨before, x, rest, d', q, rfl, hbefore, hx, rfl⟩
    rw [Nat.zero_add]
    exact .intro hbefore hx

namespace Compile

variable {o : Options} {vars : List Bytes}

/-! ## Accepted programs are typed -/

theorem getElem?_of_idxOf? {x : Bytes} {slot : Nat} (h : vars.idxOf? x = some slot) : vars[slot]? = some x := by
  rw [List.idxOf?, List.findIdx?_eq_some_iff_getElem] at h
  obtain ⟨hlt, hx, _⟩ := h
  rw [List.getElem?_eq_getElem hlt, eq_of_beq hx]

/-- The cell of a name is the first place where it is declared. -/
theorem idxOf?_of_getElem? {x : Bytes} {slot : Nat} (h : vars[slot]? = some x) :
    ∃ first, vars.idxOf? x = some first ∧ first ≤ slot := by
  obtain ⟨hlt, hx⟩ := List.getElem?_eq_some_iff.1 h
  cases hfirst : vars.idxOf? x with
  | none => exact absurd (hx ▸ List.getElem_mem hlt) (List.idxOf?_eq_none_iff.1 hfirst)
  | some first =>
    refine ⟨first, rfl, Nat.le_of_not_lt fun hgt => ?_⟩
    rw [List.idxOf?, List.findIdx?_eq_some_iff_getElem] at hfirst
    obtain ⟨_, _, hbefore⟩ := hfirst
    exact hbefore slot hgt (by simp [hx])

theorem Lowers.typed {d d' : Nat} {x : Instr} {b : Block} {δ : Int} (h : Lowers vars d x b δ)
    (hd' : (d' : Int) = d + δ) : x.Typed vars d d' := by
  cases h with
  | basic b => exact .basic hd'
  | push hn =>
    obtain rfl : d' = d + 1 := by omega
    exact .push hn
  | addc hn =>
    obtain rfl : d' = d := by omega
    exact .addc hn
  | subc hn =>
    obtain rfl : d' = d := by omega
    exact .subc hn
  | get hslot hle =>
    obtain rfl : d' = d + 1 := by omega
    exact .get (getElem?_of_idxOf? hslot) hle
  | set hslot hlt =>
    obtain rfl : d' = d - 1 := by omega
    exact .set (getElem?_of_idxOf? hslot) hlt
  | print t =>
    obtain rfl : d' = d := by omega
    exact .print t

/-- What compiles is typed, with the depth that the compiler has computed. -/
theorem typed_instr_list (c : Context) :
    (∀ x : Instr, ∀ level d text d', instr c level d x = .ok (text, d') → x.Typed c.vars d d') ∧
    ∀ xs : List Instr, ∀ level d index text d', list c level d index xs = .ok (text, d') →
      ListTyped c.vars d xs d' := by
  apply Instr.induct
  case simple =>
    intro x hx level d text d' h
    obtain ⟨b, δ, hb, he⟩ := instr_simple_ok hx h
    exact hb.typed (emit_ok he).1
  case stat =>
    intro body ih level d text d' h
    obtain ⟨rfl, code, _, hbody, _⟩ := instr_stat_ok h
    exact .stat (ih _ _ _ _ _ hbody)
  case ifThen =>
    intro test body ihTest ihBody level d text d' h
    obtain ⟨rfl, _, _, _, _, htest, hbody, _⟩ := instr_ifThen_ok h
    exact .ifThen (ihTest _ _ _ _ _ htest) (ihBody _ _ _ _ _ hbody)
  case nil =>
    intro level d index text d' h
    rw [list] at h
    cases h
    exact .nil
  case cons =>
    intro x rest ihx ih level d index text d' h
    obtain ⟨_, _, _, hx, hrest, _⟩ := list_cons_ok h
    exact .cons (ihx _ _ _ _ hx) (ih _ _ _ _ _ hrest)

/-! ## Errors are faults -/

/-- The error is a fault by the given rules. Only a listing with comments can also fail to be laid out. -/
def Explains (o : Options) (F : List PathStep → Cause → Prop) : CompileError → Prop
  | .refused p cause => F p cause
  | .layout _ => o.comments = true

namespace Explains

variable {F G : List PathStep → Cause → Prop} {e : CompileError}

theorem mono (h : Explains o F e) (hFG : ∀ p cause, F p cause → G p cause) : Explains o G e := by
  cases e with
  | refused p cause => exact hFG p cause h
  | layout f => exact h

theorem within (h : Explains o F e) (step : PathStep) (hFG : ∀ p cause, F p cause → G (step :: p) cause) :
    Explains o G (e.within step) := by
  cases e with
  | refused p cause => exact hFG p cause h
  | layout f => exact h

theorem of_mark {level : Int} {label : Bytes} {f : RepeatFault} (h : Listing.mark o level label = .error f) :
    Explains o F (.layout f) := by
  cases ho : o.comments with
  | true => exact ho
  | false =>
    rw [Listing.mark_bare ho] at h
    cases h

theorem of_emit {level d : Nat} {label code : Bytes} {δ : Int} (h : emit o level d label code δ = .error e)
    (hF : d + δ < 0 → F [] (.negativeDepth label d δ)) : Explains o F e := by
  rw [emit_eq] at h
  split at h
  · rename_i hneg
    cases h
    exact hF hneg
  · split at h
    · rename_i f hmark
      cases h
      exact of_mark hmark
    · cases h

theorem of_constant {level d : Nat} {label : Bytes} {n δ : Int} {code : Block} (hδ : 0 ≤ δ)
    (h : emitConstant o level d label n code δ = .error e) (hF : n < 0 → F [] (.negativeConstant label)) :
    Explains o F e := by
  rw [emitConstant] at h
  split at h
  · rename_i hneg
    cases h
    exact hF hneg
  · exact of_emit h fun hneg => absurd hneg (by omega)

/-- An access fails for its name or for its distance; the depth after it is never the reason. -/
theorem of_access {c : Context} {level d least : Nat} {label x : Bytes} {code : Nat → Block} {δ : Int}
    (hδ : 0 ≤ least + δ) (h : emitAccess c level d label x least code δ = .error e)
    (hname : x ∉ c.vars → F [] (.undefinedVariable x))
    (hreach : ∀ slot, c.vars[slot]? = some x → d < slot + least → F [] (.outOfReach x slot d)) :
    Explains c.options F e := by
  rw [emitAccess] at h
  split at h
  · rename_i hnone
    cases h
    exact hname (List.idxOf?_eq_none_iff.1 hnone)
  · rename_i slot hslot
    split at h
    · rename_i hlt
      cases h
      exact hreach slot (getElem?_of_idxOf? hslot) hlt
    · exact of_emit h fun hneg => absurd hneg (by omega)

end Explains

theorem fault_simple {c : Context} {level d : Nat} {x : Instr} {e : CompileError} (hx : x.isSimple = true)
    (h : instr c level d x = .error e) : Explains c.options (x.Fault c.vars d) e := by
  cases x with
  | basic b =>
    rw [instr] at h
    exact .of_emit h .depth
  | push n =>
    rw [instr] at h
    exact .of_constant (by omega) h .push
  | addc n =>
    rw [instr] at h
    exact .of_constant (by omega) h .addc
  | subc n =>
    rw [instr] at h
    exact .of_constant (by omega) h .subc
  | get x =>
    rw [instr] at h
    exact .of_access (by omega) h .getName fun slot hslot hlt => .getReach hslot hlt
  | set x =>
    rw [instr] at h
    exact .of_access (by omega) h .setName fun slot hslot hlt => .setReach hslot (by omega)
  | print t =>
    rw [instr] at h
    exact .of_emit h fun hneg => absurd hneg (by omega)
  | foreign type =>
    rw [instr] at h
    cases h
    exact .foreign type
  | stat body => cases hx
  | ifThen test body => cases hx

/-- **An error is the first fault**, with its path and cause. -/
theorem fault_instr_list (c : Context) :
    (∀ x : Instr, ∀ level d e, instr c level d x = .error e → Explains c.options (x.Fault c.vars d) e) ∧
    ∀ xs : List Instr, ∀ level d index e, list c level d index xs = .error e →
      Explains c.options (FaultFrom c.vars index d xs) e := by
  apply Instr.induct
  case simple =>
    intro x hx level d e h
    exact fault_simple hx h
  case stat =>
    intro body ih level d e h
    rw [instr_stat] at h
    split at h
    · rename_i e' hbody
      cases h
      exact (ih _ _ _ _ hbody).within _ fun p cause hfault => .inStat (listFault_iff.2 hfault)
    · rename_i code after hbody
      split at h
      · rename_i hne
        cases h
        exact .imbalance ((typed_instr_list c).2 _ _ _ _ _ _ hbody) hne
      · split at h
        · rename_i f hstop
          cases h
          exact .of_mark hstop
        · exact .of_emit h fun hneg => absurd hneg (by omega)
  case ifThen =>
    intro test body ihTest ihBody level d e h
    rw [instr_ifThen] at h
    split at h
    · rename_i e' htest
      cases h
      exact (ihTest _ _ _ _ htest).within _ fun p cause hfault => .inTest (listFault_iff.2 hfault)
    · rename_i testCode tested htest
      have hTest := (typed_instr_list c).2 _ _ _ _ _ _ htest
      split at h
      · rename_i hne
        cases h
        exact .testDepth hTest hne
      · rename_i htested
        obtain rfl : tested = d + 1 := Decidable.of_not_not htested
        split at h
        · rename_i e' hbody
          cases h
          exact (ihBody _ _ _ _ hbody).within _ fun p cause hfault => .inBody hTest (listFault_iff.2 hfault)
        · rename_i bodyCode after hbody
          split at h
          · rename_i hne
            cases h
            exact .bodyDepth hTest ((typed_instr_list c).2 _ _ _ _ _ _ hbody) hne
          · split at h
            · rename_i f hmiddle
              cases h
              exact .of_mark hmiddle
            · split at h
              · rename_i f hstop
                cases h
                exact .of_mark hstop
              · exact .of_emit h fun hneg => absurd hneg (by omega)
  case nil =>
    intro level d index e h
    rw [list] at h
    cases h
  case cons =>
    intro x rest ihx ih level d index e h
    rw [list_cons] at h
    split at h
    · rename_i e' hx
      cases h
      exact (ihx _ _ _ hx).within _ fun q cause hfault => ⟨[], x, rest, d, q, rfl, .nil, hfault, rfl⟩
    · rename_i code next hx
      split at h
      · rename_i e' hrest
        cases h
        refine (ih _ _ _ _ hrest).mono ?_
        rintro _ cause ⟨before, y, after, d', q, rfl, hbefore, hy, rfl⟩
        refine ⟨x :: before, y, after, d', q, rfl, .cons ((typed_instr_list c).1 _ _ _ _ _ hx) hbefore, hy, ?_⟩
        rw [List.length_cons, Nat.add_assoc, Nat.add_comm 1]
      · cases h

/-! ## Typed programs compile -/

theorem emit_bare (ho : o.comments = false) {level d : Nat} {label code : Bytes} {δ : Int} (h : 0 ≤ d + δ) :
    emit o level d label code δ = .ok (code, (d + δ).toNat) := by
  rw [emit_eq, if_neg (by omega)]
  simp only [Listing.mark_bare ho, Listing.depthNote_bare ho, List.nil_append, List.append_nil]

theorem emitAccess_bare (ho : o.comments = false) {level d least slot : Nat} {label x : Bytes} {code : Nat → Block}
    {δ : Int} (hslot : vars[slot]? = some x) (hd : slot + least ≤ d) (hδ : 0 ≤ least + δ) :
    ∃ text, emitAccess ⟨o, vars⟩ level d label x least code δ = .ok (text, (d + δ).toNat) := by
  obtain ⟨first, hfirst, hle⟩ := idxOf?_of_getElem? hslot
  simp only [emitAccess, hfirst]
  rw [if_neg (by omega), emit_bare ho (by omega)]
  exact ⟨_, rfl⟩

theorem accepts_simple (ho : o.comments = false) {level d d' : Nat} {x : Instr} (hx : x.isSimple = true)
    (h : x.Typed vars d d') : ∃ text, instr ⟨o, vars⟩ level d x = .ok (text, d') := by
  cases h with
  | basic hd =>
    rw [instr, emit_bare ho (by omega), ← hd]
    exact ⟨_, rfl⟩
  | push hn | addc hn | subc hn =>
    rw [instr, emitConstant, if_neg (by omega), emit_bare ho (by omega)]
    exact ⟨_, rfl⟩
  | get hslot hle =>
    rw [instr]
    exact emitAccess_bare ho hslot hle (by omega)
  | set hslot hlt =>
    rw [instr]
    rw [show d - 1 = (d + (-1 : Int)).toNat by omega]
    exact emitAccess_bare ho hslot hlt (by omega)
  | print t =>
    rw [instr, emit_bare ho (by omega)]
    exact ⟨_, rfl⟩
  | stat | ifThen => cases hx

/-- Without comments nothing but the type of a program decides whether it compiles. -/
theorem accepts_instr_list (ho : o.comments = false) (vars : List Bytes) :
    (∀ x : Instr, ∀ level d d', x.Typed vars d d' → ∃ text, instr ⟨o, vars⟩ level d x = .ok (text, d')) ∧
    ∀ xs : List Instr, ∀ level d index d', ListTyped vars d xs d' →
      ∃ text, list ⟨o, vars⟩ level d index xs = .ok (text, d') := by
  apply Instr.induct
  case simple =>
    intro x hx level d d' h
    exact accepts_simple ho hx h
  case stat =>
    intro body ih level d d' h
    cases h with
    | stat hbody =>
      obtain ⟨code, hcode⟩ := ih (level + 1) d 0 d hbody
      simp only [instr_stat, hcode, ne_eq, not_true_eq_false, if_false, Listing.mark_bare ho]
      exact ⟨_, emit_bare ho (by omega)⟩
  case ifThen =>
    intro test body ihTest ihBody level d d' h
    cases h with
    | ifThen htest hbody =>
      obtain ⟨testCode, htestCode⟩ := ihTest (level + 1) d 0 _ htest
      obtain ⟨bodyCode, hbodyCode⟩ := ihBody (level + 1) (d + 1) 0 _ hbody
      simp only [instr_ifThen, htestCode, hbodyCode, ne_eq, not_true_eq_false, if_false, Listing.mark_bare ho]
      exact ⟨_, emit_bare ho (by omega)⟩
  case nil =>
    intro level d index d' h
    cases h
    exact ⟨[], by rw [list]⟩
  case cons =>
    intro x rest ihx ih level d index d'' h
    cases h with
    | cons hx hrest =>
      obtain ⟨code, hcode⟩ := ihx level d _ hx
      obtain ⟨more, hmore⟩ := ih level _ (index + 1) _ hrest
      simp only [list_cons, hcode, hmore]
      exact ⟨_, rfl⟩

/-! ## Faults are reported -/

theorem emitAccess_of_fault {c : Context} {level d least : Nat} {label x : Bytes} {code : Nat → Block} {δ : Int} :
    (x ∉ c.vars → emitAccess c level d label x least code δ = refuse (.undefinedVariable x)) ∧
    ∀ slot, c.vars.Nodup → c.vars[slot]? = some x → d < slot + least →
      emitAccess c level d label x least code δ = refuse (.outOfReach x slot d) := by
  refine ⟨fun hx => ?_, fun slot hnodup hslot hd => ?_⟩
  · simp only [emitAccess, List.idxOf?_eq_none_iff.2 hx]
  · obtain ⟨first, hfirst, hle⟩ := idxOf?_of_getElem? hslot
    obtain ⟨hlt, _⟩ := List.getElem?_eq_some_iff.1 hslot
    obtain rfl : first = slot :=
      (List.getElem?_inj (by omega) hnodup).1 ((getElem?_of_idxOf? hfirst).trans hslot.symm)
    simp only [emitAccess, hfirst]
    rw [if_pos hd]

theorem refuses_simple (hnodup : vars.Nodup) {level d : Nat} {x : Instr} {p : List PathStep} {cause : Cause}
    (hx : x.isSimple = true) (h : x.Fault vars d p cause) :
    instr ⟨o, vars⟩ level d x = .error (.refused p cause) := by
  cases h with
  | depth hneg =>
    rw [instr, emit_eq, if_pos hneg]
    rfl
  | push hneg | addc hneg | subc hneg =>
    rw [instr, emitConstant, if_pos hneg]
    rfl
  | getName hname | setName hname =>
    rw [instr]
    exact emitAccess_of_fault.1 hname
  | getReach hslot hlt =>
    rw [instr]
    exact emitAccess_of_fault.2 _ hnodup hslot hlt
  | setReach hslot hle =>
    rw [instr]
    exact emitAccess_of_fault.2 _ hnodup hslot (by omega)
  | foreign type =>
    rw [instr]
    rfl
  | inStat | imbalance | inTest | testDepth | inBody | bodyDepth => cases hx

/-- A fault is reported with its path and cause. -/
theorem refuses_instr_list (ho : o.comments = false) (hnodup : vars.Nodup) :
    (∀ x : Instr, ∀ level d p cause, x.Fault vars d p cause →
      instr ⟨o, vars⟩ level d x = .error (.refused p cause)) ∧
    ∀ xs : List Instr, ∀ level d index p cause, FaultFrom vars index d xs p cause →
      list ⟨o, vars⟩ level d index xs = .error (.refused p cause) := by
  apply Instr.induct
  case simple =>
    intro x hx level d p cause h
    exact refuses_simple hnodup hx h
  case stat =>
    intro body ih level d p cause h
    rw [instr_stat]
    cases h with
    | inStat hbody =>
      simp only [ih (level + 1) d 0 _ _ (listFault_iff.1 hbody)]
      rfl
    | imbalance hbody hne =>
      obtain ⟨code, hcode⟩ := (accepts_instr_list ho vars).2 _ (level + 1) d 0 _ hbody
      simp only [hcode]
      rw [if_pos hne]
      rfl
  case ifThen =>
    intro test body ihTest ihBody level d p cause h
    rw [instr_ifThen]
    cases h with
    | inTest htest =>
      simp only [ihTest (level + 1) d 0 _ _ (listFault_iff.1 htest)]
      rfl
    | testDepth htest hne =>
      obtain ⟨code, hcode⟩ := (accepts_instr_list ho vars).2 _ (level + 1) d 0 _ htest
      simp only [hcode]
      rw [if_pos hne]
      rfl
    | inBody htest hbody =>
      obtain ⟨code, hcode⟩ := (accepts_instr_list ho vars).2 _ (level + 1) d 0 _ htest
      simp only [hcode, ihBody (level + 1) (d + 1) 0 _ _ (listFault_iff.1 hbody)]
      rw [if_neg (by simp)]
      rfl
    | bodyDepth htest hbody hne =>
      obtain ⟨code, hcode⟩ := (accepts_instr_list ho vars).2 _ (level + 1) d 0 _ htest
      obtain ⟨code', hcode'⟩ := (accepts_instr_list ho vars).2 _ (level + 1) (d + 1) 0 _ hbody
      simp only [hcode, hcode']
      rw [if_neg (by simp), if_pos hne]
      rfl
  case nil =>
    rintro level d index _ cause ⟨before, x, rest, _, _, h, _⟩
    simp at h
  case cons =>
    rintro y ys ihy ih level d index _ cause ⟨before, x, rest, d', q, h, hbefore, hx, rfl⟩
    rw [list_cons]
    cases hbefore with
    | nil =>
      obtain ⟨rfl, rfl⟩ : y = x ∧ ys = rest := by simpa using h
      rw [ihy level d q cause hx]
      rfl
    | cons hz hbefore =>
      rename_i d₁ z before
      obtain ⟨rfl, rfl⟩ : y = z ∧ ys = before ++ x :: rest := by simpa using h
      obtain ⟨code, hcode⟩ := (accepts_instr_list ho vars).1 y level d d₁ hz
      simp only [hcode, ih level d₁ (index + 1) _ cause ⟨before, x, rest, d', q, rfl, hbefore, hx, rfl⟩]
      rw [List.length_cons, Nat.add_assoc, Nat.add_comm 1]

/-! ## Declarations -/

/-- Accepted declarations are distinct, also from the names already seen. -/
theorem nodup_of_declare {seen : List Bytes} {text : Bytes} (h : declare o seen vars = .ok text) :
    vars.Nodup ∧ ∀ x ∈ vars, x ∉ seen := by
  induction vars generalizing seen text with
  | nil => simp
  | cons x rest ih =>
    have hx : x ∉ seen := by
      intro hmem
      rw [declare_cons, if_pos hmem] at h
      cases h
    obtain ⟨_, more, _, hmore, _⟩ := declare_cons_ok h
    obtain ⟨hnodup, hseen⟩ := ih hmore
    refine ⟨List.nodup_cons.2 ⟨fun hmem => hseen x hmem (by simp), hnodup⟩, fun y hy => ?_⟩
    rcases List.mem_cons.1 hy with rfl | hy
    · exact hx
    · exact fun hmem => hseen y hy (by simp [hmem])

/-- Declarations without a name that is already there take one line each. -/
theorem declare_bare (ho : o.comments = false) {seen before : List Bytes} (rest : List Bytes)
    (hnodup : before.Nodup) (hseen : ∀ x ∈ before, x ∉ seen) :
    declare o seen (before ++ rest) =
      (declare o (before.reverse ++ seen) rest).map ((before.flatMap fun _ => (Fragment.right 1).text) ++ ·) := by
  induction before generalizing seen with
  | nil => cases h : declare o seen rest <;> simp [h, Except.map]
  | cons x before ih =>
    obtain ⟨hx, hnodup⟩ := List.nodup_cons.1 hnodup
    have hfresh : ∀ y ∈ before, y ∉ x :: seen := by
      intro y hy hmem
      rcases List.mem_cons.1 hmem with rfl | hmem
      · exact hx hy
      · exact hseen y (by simp [hy]) hmem
    rw [List.cons_append, declare_cons, if_neg (hseen x (by simp)), emit_bare ho (by omega), ih hnodup hfresh]
    simp only [List.reverse_cons, List.append_assoc, List.singleton_append]
    cases declare o (before.reverse ++ x :: seen) rest <;> simp [Except.map]

/-- Distinct declarations are accepted, whatever the options are. -/
theorem declare_of_nodup (o : Options) (hnodup : vars.Nodup) {seen : List Bytes} (hseen : ∀ x ∈ vars, x ∉ seen) :
    ∃ declared, declare o seen vars = .ok declared := by
  induction vars generalizing seen with
  | nil => exact ⟨[], rfl⟩
  | cons x rest ih =>
    obtain ⟨hx, hnodup⟩ := List.nodup_cons.1 hnodup
    obtain ⟨mark, hmark⟩ := Listing.lays_zero o (ascii "let " ++ x)
    have hfresh : ∀ y ∈ rest, y ∉ x :: seen := by
      intro y hy hmem
      rcases List.mem_cons.1 hmem with rfl | hmem
      · exact hx hy
      · exact hseen y (by simp [hy]) hmem
    obtain ⟨more, hmore⟩ := ih hnodup hfresh
    rw [declare_cons, if_neg (hseen x (by simp)), emit_eq, if_neg (by omega), hmore]
    simp only [hmark]
    exact ⟨_, rfl⟩

/-- A declaration is refused for a name that is already there, and only for the first such name. -/
theorem declare_error (ho : o.comments = false) {seen : List Bytes} {e : CompileError}
    (h : declare o seen vars = .error e) :
    ∃ before x rest, vars = before ++ x :: rest ∧ before.Nodup ∧ (∀ y ∈ before, y ∉ seen) ∧
      (x ∈ seen ∨ x ∈ before) ∧ e = .refused [] (.duplicateVariable x) := by
  induction vars generalizing seen with
  | nil => cases h
  | cons x rest ih =>
    rw [declare_cons] at h
    split at h
    · rename_i hx
      cases h
      exact ⟨[], x, rest, rfl, List.nodup_nil, by simp, .inl hx, rfl⟩
    · rename_i hx
      rw [emit_bare ho (by omega)] at h
      simp only at h
      split at h
      · rename_i e' hrest
        cases h
        obtain ⟨before, y, after, rfl, hnodup, hseen, hy, rfl⟩ := ih hrest
        refine ⟨x :: before, y, after, rfl, ?_, ?_, ?_, rfl⟩
        · exact List.nodup_cons.2 ⟨fun hmem => hseen x hmem (by simp), hnodup⟩
        · intro z hz
          rcases List.mem_cons.1 hz with rfl | hz
          · exact hx
          · exact fun hmem => hseen z hz (by simp [hmem])
        · rcases hy with hy | hy
          · rcases List.mem_cons.1 hy with rfl | hy
            · exact .inr (by simp)
            · exact .inl hy
          · exact .inr (by simp [hy])
      · cases h

/-! ## Scopes -/

theorem scope_ok_iff (vars : List Bytes) (body : List Instr) (d : Nat) :
    (∃ code, scope .plain vars body = .ok (code, d)) ↔ vars.Nodup ∧ ListTyped vars vars.length body d := by
  constructor
  · rintro ⟨code, h⟩
    obtain ⟨_, _, hdecl, hbody, _⟩ := scope_ok h
    exact ⟨(nodup_of_declare hdecl).1, (typed_instr_list ⟨.plain, vars⟩).2 _ _ _ _ _ _ hbody⟩
  · rintro ⟨hnodup, hbody⟩
    obtain ⟨text, htext⟩ := (accepts_instr_list (o := .plain) rfl vars).2 body 0 vars.length 0 d hbody
    obtain ⟨declared, hdecl⟩ := declare_of_nodup .plain hnodup fun x _ => List.not_mem_nil (a := x)
    rw [scope_eq, hdecl, htext]
    exact ⟨_, rfl⟩

/-- A scope with a fault is refused with the path and cause of that fault. -/
theorem scope_refuses {body : List Instr} {p : List PathStep} {cause : Cause} (h : ScopeFault vars body p cause) :
    scope .plain vars body = .error (.refused p cause) := by
  cases h with
  | declaration hnodup hx =>
    rename_i before rest x
    rw [scope_eq, declare_bare (o := .plain) rfl (x :: rest) hnodup (by simp), declare_cons, if_pos (by simp [hx])]
    rfl
  | body hnodup hbody =>
    have hlist := (refuses_instr_list (o := .plain) rfl hnodup).2 _ 0 vars.length 0 _ _ (listFault_iff.1 hbody)
    obtain ⟨declared, hdecl⟩ := declare_of_nodup .plain hnodup fun x _ => List.not_mem_nil (a := x)
    rw [scope_eq, hdecl, hlist]

/-- A refusal always names the first fault; without comments there are no other errors. -/
theorem scope_error {body : List Instr} {e : CompileError} (h : scope .plain vars body = .error e) :
    ∃ p cause, e = .refused p cause ∧ ScopeFault vars body p cause := by
  rw [scope_eq] at h
  split at h
  · rename_i e' hdecl
    cases h
    obtain ⟨before, x, rest, rfl, hnodup, _, hx, rfl⟩ := declare_error rfl hdecl
    exact ⟨[], _, rfl, .declaration hnodup (by simpa using hx)⟩
  · rename_i declared hdecl
    have hnodup := (nodup_of_declare hdecl).1
    split at h
    · rename_i e' hlist
      cases h
      have hfault := (fault_instr_list ⟨.plain, vars⟩).2 _ _ _ _ _ hlist
      cases e with
      | refused p cause => exact ⟨p, cause, rfl, .body hnodup (listFault_iff.2 hfault)⟩
      | layout fault => cases hfault
    · cases h

/-- **Exactly the typed programs compile, and all others are refused for their first fault.** The depth of the
type is the depth at the end. The message of a refusal is the path to the instruction with the fault, then
the cause. Changing what comes behind the fault never changes the error. -/
theorem scope_verdict (vars : List Bytes) (body : List Instr) :
    (∀ d, (∃ code, scope .plain vars body = .ok (code, d)) ↔ vars.Nodup ∧ ListTyped vars vars.length body d) ∧
    (∀ e, scope .plain vars body = .error e ↔
      ∃ path cause, e = .refused path cause ∧ ScopeFault vars body path cause ∧
        e.message = path.flatMap (fun step => step.text ++ ascii ": ") ++ cause.message) ∧
    ∀ path cause vars' body', scope .plain vars body = .error (.refused path cause) →
      SameScopeUntil path cause vars body vars' body' →
      scope .plain vars' body' = .error (.refused path cause) := by
  refine ⟨scope_ok_iff vars body, fun e => ⟨fun h => ?_, ?_⟩, fun path cause vars' body' h hsame => ?_⟩
  · obtain ⟨path, cause, rfl, hfault⟩ := scope_error h
    exact ⟨path, cause, rfl, hfault, rfl⟩
  · rintro ⟨path, cause, rfl, hfault, _⟩
    exact scope_refuses hfault
  · cases hsame with
    | declaration _ _ hnodup hx => exact scope_refuses (.declaration hnodup hx)
    | body vars hsame =>
      obtain ⟨_, _, he, hfault⟩ := scope_error h
      cases he
      cases hfault with
      | declaration => cases hsame
      | body hnodup hbody => exact scope_refuses (.body hnodup (hbody.of_same hsame))

/-- A test in a block pushes two values, and an undeclared name stands in the body behind it. -/
theorem scope_verdict_test_depth : ∀ body rest rest' : List Instr,
    scope .plain [ascii "x"] ([.push 1, .stat ([.ifThen [.push 1, .push 2] body] ++ rest)] ++ rest') =
      .error (.refused [.instr 1 (ascii "stat"), .stat, .instr 0 (ascii "if")] (.testDepth 2 4)) := by
  intro body rest rest'
  have h : scope .plain [ascii "x"] [.push 1, .stat [.ifThen [.push 1, .push 2] [.get (ascii "y")]]] =
      .error (.refused [.instr 1 (ascii "stat"), .stat, .instr 0 (ascii "if")] (.testDepth 2 4)) := by
    rfl
  exact (scope_verdict _ _).2.2 _ _ _ _ h
    (.body _ (.inStat [.push 1] [] rest' _ (.tested [] [.push 1, .push 2] _ body [] rest 2 4 _)))

end Compile

end StackTape

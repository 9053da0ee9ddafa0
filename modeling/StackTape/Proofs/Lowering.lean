import StackTape.Compile.Scope
import StackTape.Proofs.Listing

/-!
# What the compiler emits

Equations that open the compiler once, for all proofs about it. Every result of `emit` is a line of
the listing; the code of a simple instruction is a fragment (`Lowers`); the code of a block is built
around the code of its parts (`instr_stat_ok`, `instr_ifThen_ok`, `list_cons_ok`).

The stack depths that a compilation goes through are computed beside it (`listDepths`), together with
the greatest of them (`Compile.peak`).
-/

namespace StackTape

/-! ## Induction over programs -/

namespace Instr

/-- The instruction holds no other instructions. -/
def isSimple : Instr → Bool
  | .stat _ | .ifThen _ _ => false
  | _ => true

/-- How an accepted instruction changes the stack depth. -/
def delta : Instr → Int
  | .basic b => b.delta
  | .push _ | .get _ => 1
  | .set _ => -1
  | _ => 0

/-- Induction over an instruction and over a list of them at once. -/
theorem induct {P : Instr → Prop} {Q : List Instr → Prop}
    (simple : ∀ x : Instr, x.isSimple = true → P x) (stat : ∀ body, Q body → P (.stat body))
    (ifThen : ∀ test body, Q test → Q body → P (.ifThen test body)) (nil : Q [])
    (cons : ∀ x rest, P x → Q rest → Q (x :: rest)) : (∀ x, P x) ∧ ∀ xs, Q xs := by
  have hP : ∀ x, P x := fun x =>
    @Instr.rec P Q (fun _ => simple _ rfl) (fun _ => simple _ rfl) (fun _ => simple _ rfl)
      (fun _ => simple _ rfl) (fun _ => simple _ rfl) (fun _ => simple _ rfl) (fun _ => simple _ rfl)
      stat ifThen (fun _ => simple _ rfl) nil cons x
  refine ⟨hP, fun xs => ?_⟩
  induction xs with
  | nil => exact nil
  | cons x rest ih => exact cons x rest (hP x) ih

end Instr

/-! ## Stack depths -/

mutual

/-- The depths that the compiler goes through inside an instruction. -/
def Instr.innerDepths (depth : Nat) : Instr → List Nat
  | .stat body => listDepths depth body
  | .ifThen test body => listDepths depth test ++ listDepths (depth + 1) body
  | _ => []

/-- The depths that the compiler goes through in a list of instructions, nested blocks included. -/
def listDepths (depth : Nat) : List Instr → List Nat
  | [] => [depth]
  | x :: rest => depth :: (x.innerDepths depth ++ listDepths (depth + x.delta).toNat rest)

end

theorem mem_listDepths_self (depth : Nat) (xs : List Instr) : depth ∈ listDepths depth xs := by
  cases xs <;> simp [listDepths]

theorem le_foldr_max {d : Nat} {ds : List Nat} (h : d ∈ ds) : d ≤ ds.foldr max 0 := by
  induction ds with
  | nil => simp at h
  | cons e ds ih =>
    rcases List.mem_cons.1 h with rfl | h
    · exact Nat.le_max_left ..
    · exact Nat.le_trans (ih h) (Nat.le_max_right ..)

namespace Compile

/-- All depths that the compiler goes through: while it declares the variables, then in the body. -/
def depths (vars : List Bytes) (body : List Instr) : List Nat :=
  List.range vars.length ++ listDepths vars.length body

/-- The greatest depth that the compiler goes through. -/
def peak (vars : List Bytes) (body : List Instr) : Nat := (depths vars body).foldr max 0

theorem le_peak {vars : List Bytes} {body : List Instr} {d : Nat} (h : d ∈ depths vars body) :
    d ≤ peak vars body := le_foldr_max h

/-! ## The compiler, opened -/

theorem emit_eq (o : Options) (level depth : Nat) (label code : Bytes) (δ : Int) :
    emit o level depth label code δ =
      if depth + δ < 0 then refuse (.negativeDepth label depth δ)
      else match Listing.mark o level label with
        | .error f => .error (.layout f)
        | .ok m => .ok (m ++ code ++ Listing.depthNote o (depth + δ).toNat, (depth + δ).toNat) := by
  unfold emit
  split
  · rfl
  · rename_i h
    have e : (depth : Int) + δ = ((depth + δ).toNat : Nat) := by omega
    rw [e, Listing.line_eq, ← e]
    cases Listing.mark o level label <;> rfl

theorem list_cons (c : Context) (level depth index : Nat) (x : Instr) (rest : List Instr) :
    list c level depth index (x :: rest) =
      match instr c level depth x with
      | .error e => .error (e.within (.instr index x.label))
      | .ok (code, next) =>
        match list c level next (index + 1) rest with
        | .error e => .error e
        | .ok (more, after) => .ok (code ++ more, after) := by
  rw [list]
  cases instr c level depth x with
  | error e => rfl
  | ok r =>
    cases h : list c level r.2 (index + 1) rest <;>
      simp [inStep, bind, Except.bind, h, pure, Except.pure]

theorem instr_stat (c : Context) (level depth : Nat) (body : List Instr) :
    instr c level depth (.stat body) =
      match list c (level + 1) depth 0 body with
      | .error e => .error (e.within .stat)
      | .ok (code, after) =>
        if after ≠ depth then refuse (.imbalance depth after)
        else match Listing.mark c.options level (ascii "end stat") with
          | .error f => .error (.layout f)
          | .ok stop =>
            emit c.options level depth (ascii "stat") (Listing.lineBreak c.options ++ code ++ stop) 0 := by
  rw [instr]
  cases list c (level + 1) depth 0 body with
  | error e => rfl
  | ok r =>
    simp only [inStep, bind, Except.bind]
    split
    · rfl
    · cases Listing.mark c.options level (ascii "end stat") <;> rfl

theorem instr_ifThen (c : Context) (level depth : Nat) (test body : List Instr) :
    instr c level depth (.ifThen test body) =
      match list c (level + 1) depth 0 test with
      | .error e => .error (e.within .test)
      | .ok (testCode, tested) =>
        if tested ≠ depth + 1 then refuse (.testDepth depth tested)
        else match list c (level + 1) tested 0 body with
          | .error e => .error (e.within .body)
          | .ok (bodyCode, after) =>
            if after ≠ tested then refuse (.bodyDepth tested after)
            else match Listing.mark c.options level (ascii "then") with
              | .error f => .error (.layout f)
              | .ok middle =>
                match Listing.mark c.options level (ascii "end if") with
                | .error f => .error (.layout f)
                | .ok stop =>
                  emit c.options level depth (ascii "if")
                    (Listing.lineBreak c.options ++ testCode ++ middle ++ [Symbol.enter.byte] ++
                      Listing.lineBreak c.options ++ bodyCode ++ stop ++ Fragment.clear.text ++
                      [Symbol.leave.byte] ++ (Fragment.left 1).text) 0 := by
  rw [instr]
  cases list c (level + 1) depth 0 test with
  | error e => rfl
  | ok r =>
    simp only [inStep, bind, Except.bind]
    split
    · rfl
    · cases list c (level + 1) r.2 0 body with
      | error e => rfl
      | ok q =>
        simp only
        split
        · rfl
        · cases Listing.mark c.options level (ascii "then") with
          | error f => rfl
          | ok middle => cases Listing.mark c.options level (ascii "end if") <;> rfl

theorem declare_cons (o : Options) (seen : List Bytes) (x : Bytes) (rest : List Bytes) :
    declare o seen (x :: rest) =
      if x ∈ seen then refuse (.duplicateVariable x)
      else match emit o 0 seen.length (ascii "let " ++ x) (Fragment.right 1).text 1 with
        | .error e => .error e
        | .ok (code, _) =>
          match declare o (x :: seen) rest with
          | .error e => .error e
          | .ok more => .ok (code ++ more) := by
  rw [declare]
  split
  · rfl
  · cases emit o 0 seen.length (ascii "let " ++ x) (Fragment.right 1).text 1 with
    | error e => rfl
    | ok r => cases declare o (x :: seen) rest <;> rfl

theorem scope_eq (o : Options) (vars : List Bytes) (body : List Instr) :
    scope o vars body =
      match declare o [] vars with
      | .error e => .error e
      | .ok declared =>
        match list ⟨o, vars⟩ 0 vars.length 0 body with
        | .error e => .error e
        | .ok (code, depth) => .ok (declared ++ Listing.lineBreak o ++ code, depth) := by
  rw [scope]
  cases declare o [] vars with
  | error e => rfl
  | ok declared => cases list ⟨o, vars⟩ 0 vars.length 0 body <;> rfl

/-! ## Accepted programs -/

/-- The code of a simple instruction that is accepted at a depth, and how it changes the depth. -/
inductive Lowers (vars : List Bytes) (depth : Nat) : Instr → Block → Int → Prop
  | basic (b : Basic) : Lowers vars depth (.basic b) b.fragment b.delta
  | push {n : Int} : 0 ≤ n → Lowers vars depth (.push n) (Fragment.push n) 1
  | addc {n : Int} : 0 ≤ n → Lowers vars depth (.addc n) (Fragment.number n) 0
  | subc {n : Int} : 0 ≤ n → Lowers vars depth (.subc n) (Fragment.lessen n) 0
  | get {x : Bytes} {slot : Nat} : vars.idxOf? x = some slot → slot ≤ depth →
    Lowers vars depth (.get x) (Fragment.get (depth - slot : Nat)) 1
  | set {x : Bytes} {slot : Nat} : vars.idxOf? x = some slot → slot < depth →
    Lowers vars depth (.set x) (Fragment.set (depth - slot : Nat)) (-1)
  | print (t : Bytes) : Lowers vars depth (.print t) (Fragment.say t) 0

theorem Lowers.delta_eq {vars : List Bytes} {depth : Nat} {x : Instr} {b : Block} {δ : Int}
    (h : Lowers vars depth x b δ) : x.delta = δ := by
  cases h <;> rfl

variable {c : Context} {level depth next : Nat} {text : Bytes}

/-- An accepted line: its mark, its code, and the depth after it. -/
theorem emit_ok {o : Options} {label code : Bytes} {δ : Int}
    (h : emit o level depth label code δ = .ok (text, next)) :
    (next : Int) = depth + δ ∧
      ∃ m, Listing.mark o level label = .ok m ∧ text = m ++ code ++ Listing.depthNote o next := by
  rw [emit_eq] at h
  split at h
  · cases h
  · split at h
    · cases h
    · rename_i hneg m hm
      cases h
      exact ⟨by omega, m, hm, rfl⟩

theorem instr_simple_ok {x : Instr} (hx : x.isSimple = true) (h : instr c level depth x = .ok (text, next)) :
    ∃ b δ, Lowers c.vars depth x b δ ∧ emit c.options level depth x.label b.text δ = .ok (text, next) := by
  cases x with
  | basic b => exact ⟨_, _, .basic b, by rwa [instr] at h⟩
  | push n =>
    rw [instr, emitConstant] at h
    split at h
    · cases h
    · exact ⟨_, _, .push (by omega), h⟩
  | addc n =>
    rw [instr, emitConstant] at h
    split at h
    · cases h
    · exact ⟨_, _, .addc (by omega), h⟩
  | subc n =>
    rw [instr, emitConstant] at h
    split at h
    · cases h
    · exact ⟨_, _, .subc (by omega), h⟩
  | get x =>
    rw [instr, emitAccess] at h
    split at h
    · cases h
    · split at h
      · cases h
      · exact ⟨_, _, .get ‹_› (by omega), h⟩
  | set x =>
    rw [instr, emitAccess] at h
    split at h
    · cases h
    · split at h
      · cases h
      · exact ⟨_, _, .set ‹_› (by omega), h⟩
  | print t => exact ⟨_, _, .print t, by rwa [instr] at h⟩
  | stat body => cases hx
  | ifThen test body => cases hx
  | foreign t => rw [instr] at h; cases h

/-- The code of a simple instruction is a line of its fragment. -/
theorem Lowers.instr_eq {c : Context} {x : Instr} {b : Block} {δ : Int} (h : Lowers c.vars depth x b δ)
    (level : Nat) : instr c level depth x = emit c.options level depth x.label b.text δ := by
  cases h with
  | basic | print => rw [instr, Instr.label]
  | push hn | addc hn | subc hn => rw [instr, emitConstant, if_neg (by omega)]
  | get hslot hle | set hslot hle =>
    rw [instr, emitAccess, hslot]
    simp only
    rw [if_neg (by omega)]

theorem instr_stat_ok {body : List Instr} (h : instr c level depth (.stat body) = .ok (text, next)) :
    next = depth ∧ ∃ code stop, list c (level + 1) depth 0 body = .ok (code, depth) ∧
      Listing.mark c.options level (ascii "end stat") = .ok stop ∧
      emit c.options level depth (ascii "stat") (Listing.lineBreak c.options ++ code ++ stop) 0 =
        .ok (text, next) := by
  rw [instr_stat] at h
  split at h
  · cases h
  · rename_i code after hbody
    split at h
    · cases h
    · rename_i hafter
      obtain rfl : after = depth := Decidable.of_not_not hafter
      split at h
      · cases h
      · rename_i stop hstop
        exact ⟨by have := (emit_ok h).1; omega, code, stop, hbody, hstop, h⟩

theorem instr_ifThen_ok {test body : List Instr}
    (h : instr c level depth (.ifThen test body) = .ok (text, next)) :
    next = depth ∧ ∃ testCode bodyCode middle stop,
      list c (level + 1) depth 0 test = .ok (testCode, depth + 1) ∧
      list c (level + 1) (depth + 1) 0 body = .ok (bodyCode, depth + 1) ∧
      Listing.mark c.options level (ascii "then") = .ok middle ∧
      Listing.mark c.options level (ascii "end if") = .ok stop ∧
      emit c.options level depth (ascii "if")
        (Listing.lineBreak c.options ++ testCode ++ middle ++ [Symbol.enter.byte] ++
          Listing.lineBreak c.options ++ bodyCode ++ stop ++ Fragment.clear.text ++
          [Symbol.leave.byte] ++ (Fragment.left 1).text) 0 = .ok (text, next) := by
  rw [instr_ifThen] at h
  split at h
  · cases h
  · rename_i testCode tested htest
    split at h
    · cases h
    · rename_i htested
      obtain rfl : tested = depth + 1 := Decidable.of_not_not htested
      split at h
      · cases h
      · rename_i bodyCode after hbody
        split at h
        · cases h
        · rename_i hafter
          obtain rfl : after = depth + 1 := Decidable.of_not_not hafter
          split at h
          · cases h
          · rename_i middle hmiddle
            split at h
            · cases h
            · rename_i stop hstop
              have hnext := (emit_ok h).1
              exact ⟨by omega, testCode, bodyCode, middle, stop, htest, hbody, hmiddle, hstop, h⟩

theorem list_cons_ok {index after : Nat} {x : Instr} {rest : List Instr}
    (h : list c level depth index (x :: rest) = .ok (text, after)) :
    ∃ code next more, instr c level depth x = .ok (code, next) ∧
      list c level next (index + 1) rest = .ok (more, after) ∧ text = code ++ more := by
  rw [list_cons] at h
  split at h
  · cases h
  · rename_i code next hx
    split at h
    · cases h
    · rename_i more after' hrest
      cases h
      exact ⟨code, next, more, hx, hrest, rfl⟩

theorem declare_cons_ok {o : Options} {seen : List Bytes} {x : Bytes} {rest : List Bytes}
    (h : declare o seen (x :: rest) = .ok text) :
    ∃ code more,
      emit o 0 seen.length (ascii "let " ++ x) (Fragment.right 1).text 1 = .ok (code, seen.length + 1) ∧
      declare o (x :: seen) rest = .ok more ∧ text = code ++ more := by
  rw [declare_cons] at h
  split at h
  · cases h
  · split at h
    · cases h
    · rename_i code next hline
      split at h
      · cases h
      · rename_i more hmore
        cases h
        obtain rfl : next = seen.length + 1 := by have := (emit_ok hline).1; omega
        exact ⟨code, more, hline, hmore, rfl⟩

theorem scope_ok {o : Options} {vars : List Bytes} {body : List Instr} {final : Nat}
    (h : scope o vars body = .ok (text, final)) :
    ∃ declared code, declare o [] vars = .ok declared ∧
      list ⟨o, vars⟩ 0 vars.length 0 body = .ok (code, final) ∧
      text = declared ++ Listing.lineBreak o ++ code := by
  rw [scope_eq] at h
  split at h
  · cases h
  · rename_i declared hdecl
    split at h
    · cases h
    · rename_i code depth hbody
      cases h
      exact ⟨declared, code, hdecl, hbody, rfl⟩

theorem instr_ok_depth {x : Instr} (h : instr c level depth x = .ok (text, next)) :
    (next : Int) = depth + x.delta := by
  cases hx : x.isSimple with
  | true =>
    obtain ⟨b, δ, hb, he⟩ := instr_simple_ok hx h
    rw [hb.delta_eq]
    exact (emit_ok he).1
  | false =>
    cases x <;> simp only [Instr.isSimple, reduceCtorEq] at hx
    · rw [(instr_stat_ok h).1]; simp [Instr.delta]
    · rw [(instr_ifThen_ok h).1]; simp [Instr.delta]

end Compile

end StackTape

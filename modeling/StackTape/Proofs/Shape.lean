import StackTape.Proofs.Brackets
import StackTape.Proofs.Lowering

/-!
# The shape of generated code

Two facts about the code of an accepted program that do not depend on how it runs. Its brackets pair up
(`scope_balanced`), and it holds the code of every instruction, at every nesting level, as one stretch:
`ScopeEnd` lists the places where such a stretch ends, together with the stack depth that the compiler
has reached there. The depths at these places are the ones that `Compile.peak` is the greatest of
(`mem_depths_iff`).
-/

namespace StackTape

theorem Silent.balanced {t : Bytes} (h : Silent t) : Balanced t :=
  .of_straight fun b hb => straight_of_not_primitive (h b hb)

namespace Compile

open Listing

/-! ## Brackets -/

theorem emit_balanced {o : Options} {level depth next : Nat} {label code text : Bytes} {δ : Int}
    (h : emit o level depth label code δ = .ok (text, next)) (hcode : Balanced code) : Balanced text := by
  obtain ⟨_, m, hm, rfl⟩ := emit_ok h
  exact ((silent_mark hm).balanced.append hcode).append (silent_depthNote o next).balanced

theorem balanced_instr_list (c : Context) :
    (∀ x : Instr, ∀ level depth text next, instr c level depth x = .ok (text, next) → Balanced text) ∧
    ∀ xs : List Instr, ∀ level depth index text after,
      list c level depth index xs = .ok (text, after) → Balanced text := by
  have hbreak : Balanced (lineBreak c.options) := (silent_lineBreak _).balanced
  apply Instr.induct
  case simple =>
    intro x hx level depth text next h
    obtain ⟨b, δ, _, he⟩ := instr_simple_ok hx h
    exact emit_balanced he (Block.balanced_text b)
  case stat =>
    intro body ih level depth text next h
    obtain ⟨_, code, stop, hbody, hstop, he⟩ := instr_stat_ok h
    exact emit_balanced he ((hbreak.append (ih _ _ _ _ _ hbody)).append (silent_mark hstop).balanced)
  case ifThen =>
    intro test body ihTest ihBody level depth text next h
    obtain ⟨_, testCode, bodyCode, middle, stop, htest, hbody, hmiddle, hstop, he⟩ := instr_ifThen_ok h
    have hinner : Balanced (lineBreak c.options ++ bodyCode ++ stop ++ Fragment.clear.text) :=
      ((hbreak.append (ihBody _ _ _ _ _ hbody)).append (silent_mark hstop).balanced).append
        (Block.balanced_text _)
    refine emit_balanced he ?_
    have h := ((hbreak.append (ihTest _ _ _ _ _ htest)).append (silent_mark hmiddle).balanced).append
      (hinner.bracket.append (Block.balanced_text (Fragment.left 1)))
    simpa only [List.append_assoc, List.cons_append, List.nil_append, List.singleton_append] using h
  case nil =>
    intro level depth index text after h
    rw [list] at h
    cases h
    exact .nil
  case cons =>
    intro x rest ihx ih level depth index text after h
    obtain ⟨code, next, more, hx, hrest, rfl⟩ := list_cons_ok h
    exact (ihx _ _ _ _ hx).append (ih _ _ _ _ _ hrest)

theorem list_balanced {c : Context} {level depth index after : Nat} {xs : List Instr} {text : Bytes}
    (h : list c level depth index xs = .ok (text, after)) : Balanced text :=
  (balanced_instr_list c).2 xs level depth index text after h

theorem declare_balanced {o : Options} {seen vars : List Bytes} {text : Bytes}
    (h : declare o seen vars = .ok text) : Balanced text := by
  induction vars generalizing seen text with
  | nil =>
    cases h
    exact .nil
  | cons x rest ih =>
    obtain ⟨code, more, hline, hmore, rfl⟩ := declare_cons_ok h
    exact (emit_balanced hline (Block.balanced_text _)).append (ih hmore)

/-- The brackets of generated code pair up. -/
theorem scope_balanced {o : Options} {vars : List Bytes} {body : List Instr} {code : Bytes} {final : Nat}
    (h : scope o vars body = .ok (code, final)) : Balanced code := by
  obtain ⟨declared, text, hdecl, hbody, rfl⟩ := scope_ok h
  exact ((declare_balanced hdecl).append (silent_lineBreak o).balanced).append
    (list_balanced hbody)

/-! ## Ends of fragments -/

mutual

/-- `upto` is the code of the instruction up to the end of the code of one instruction in it, which may
be itself; `d` is the depth that the compiler has after that one. -/
inductive InstrEnd (c : Context) : (level depth : Nat) → Instr → (upto : Bytes) → (d : Nat) → Prop
  | own {level depth : Nat} {x : Instr} {text : Bytes} {d : Nat} :
    instr c level depth x = .ok (text, d) → InstrEnd c level depth x text d
  | stat {level depth : Nat} {body : List Instr} {m upto : Bytes} {d : Nat} :
    mark c.options level (ascii "stat") = .ok m → ListEnd c (level + 1) depth body upto d →
    InstrEnd c level depth (.stat body) (m ++ lineBreak c.options ++ upto) d
  | test {level depth : Nat} {test body : List Instr} {m upto : Bytes} {d : Nat} :
    mark c.options level (ascii "if") = .ok m → ListEnd c (level + 1) depth test upto d →
    InstrEnd c level depth (.ifThen test body) (m ++ lineBreak c.options ++ upto) d
  | body {level depth tested : Nat} {test body : List Instr} {m testCode middle upto : Bytes} {d : Nat} :
    mark c.options level (ascii "if") = .ok m →
    list c (level + 1) depth 0 test = .ok (testCode, tested) →
    mark c.options level (ascii "then") = .ok middle → ListEnd c (level + 1) tested body upto d →
    InstrEnd c level depth (.ifThen test body)
      (m ++ lineBreak c.options ++ testCode ++ middle ++ [Symbol.enter.byte] ++ lineBreak c.options ++ upto) d

/-- The same for the code of a list of instructions. -/
inductive ListEnd (c : Context) : (level depth : Nat) → List Instr → (upto : Bytes) → (d : Nat) → Prop
  | head {level depth : Nat} {x : Instr} {rest : List Instr} {upto : Bytes} {d : Nat} :
    InstrEnd c level depth x upto d → ListEnd c level depth (x :: rest) upto d
  | tail {level depth next : Nat} {x : Instr} {rest : List Instr} {code upto : Bytes} {d : Nat} :
    instr c level depth x = .ok (code, next) → ListEnd c level next rest upto d →
    ListEnd c level depth (x :: rest) (code ++ upto) d

end

/-- The same for the code that declares the variables, after those in `seen`. -/
inductive DeclareEnd (o : Options) : (seen vars : List Bytes) → (upto : Bytes) → (d : Nat) → Prop
  | head {seen rest : List Bytes} {x text : Bytes} {d : Nat} :
    emit o 0 seen.length (ascii "let " ++ x) (Fragment.right 1).text 1 = .ok (text, d) →
    DeclareEnd o seen (x :: rest) text d
  | tail {seen rest : List Bytes} {x text upto : Bytes} {next d : Nat} :
    emit o 0 seen.length (ascii "let " ++ x) (Fragment.right 1).text 1 = .ok (text, next) →
    DeclareEnd o (x :: seen) rest upto d → DeclareEnd o seen (x :: rest) (text ++ upto) d

/-- `upto` is the code of a scope up to the end of the code of a declaration or of an instruction, at any
nesting level; `d` is the depth that the compiler has there. -/
inductive ScopeEnd (o : Options) (vars : List Bytes) (body : List Instr) : (upto : Bytes) → (d : Nat) → Prop
  | declaration {upto : Bytes} {d : Nat} : DeclareEnd o [] vars upto d → ScopeEnd o vars body upto d
  | instr {declared upto : Bytes} {d : Nat} :
    declare o [] vars = .ok declared → ListEnd ⟨o, vars⟩ 0 vars.length body upto d →
    ScopeEnd o vars body (declared ++ lineBreak o ++ upto) d

/-- The text starts with `upto`, which ends with a note of the depth `d`. -/
def Placed (o : Options) (text upto : Bytes) (d : Nat) : Prop :=
  ∃ fragment after, upto = fragment ++ depthNote o d ∧ text = upto ++ after

namespace Placed

variable {o : Options} {text upto : Bytes} {d : Nat}

theorem append (h : Placed o text upto d) (after : Bytes) : Placed o (text ++ after) upto d := by
  obtain ⟨fragment, rest, hupto, rfl⟩ := h
  exact ⟨fragment, rest ++ after, hupto, List.append_assoc ..⟩

theorem behind (h : Placed o text upto d) (before : Bytes) : Placed o (before ++ text) (before ++ upto) d := by
  obtain ⟨fragment, rest, rfl, rfl⟩ := h
  exact ⟨before ++ fragment, rest, by simp, by simp⟩

theorem note_le (h : Placed o text upto d) : (depthNote o d).length ≤ upto.length := by
  obtain ⟨fragment, rest, rfl, rfl⟩ := h
  simp

theorem le_length (h : Placed o text upto d) : upto.length ≤ text.length := by
  obtain ⟨fragment, rest, rfl, rfl⟩ := h
  simp

theorem of_emit {level depth : Nat} {label code : Bytes} {δ : Int}
    (h : emit o level depth label code δ = .ok (text, d)) : Placed o text text d := by
  obtain ⟨_, m, _, rfl⟩ := emit_ok h
  exact ⟨m ++ code, [], rfl, by simp⟩

end Placed

theorem instr_own_placed {c : Context} {level depth d : Nat} {x : Instr} {text : Bytes}
    (h : instr c level depth x = .ok (text, d)) : Placed c.options text text d := by
  cases hx : x.isSimple with
  | true =>
    obtain ⟨b, δ, _, he⟩ := instr_simple_ok hx h
    exact .of_emit he
  | false =>
    cases x <;> simp only [Instr.isSimple, reduceCtorEq] at hx
    · obtain ⟨_, code, stop, _, _, he⟩ := instr_stat_ok h
      exact .of_emit he
    · obtain ⟨_, testCode, bodyCode, middle, stop, _, _, _, _, he⟩ := instr_ifThen_ok h
      exact .of_emit he

theorem placed_instr_list (c : Context) :
    (∀ x : Instr, ∀ level depth text next upto d, instr c level depth x = .ok (text, next) →
      InstrEnd c level depth x upto d → Placed c.options text upto d) ∧
    ∀ xs : List Instr, ∀ level depth index text after upto d,
      list c level depth index xs = .ok (text, after) → ListEnd c level depth xs upto d →
      Placed c.options text upto d := by
  apply Instr.induct
  case simple =>
    intro x hx level depth text next upto d h hend
    cases hend with
    | own h' =>
      rw [h] at h'
      cases h'
      exact instr_own_placed h
    | stat | test | body => cases hx
  case stat =>
    intro body ih level depth text next upto d h hend
    obtain ⟨_, code, stop, hbody, _, he⟩ := instr_stat_ok h
    obtain ⟨_, m, hm, rfl⟩ := emit_ok he
    cases hend with
    | own h' =>
      rw [h] at h'
      cases h'
      exact instr_own_placed h
    | stat hm' hend =>
      rw [hm] at hm'
      cases hm'
      have := ((ih _ _ _ _ _ _ _ hbody hend).behind (m ++ lineBreak c.options)).append
        (stop ++ depthNote c.options next)
      simpa only [List.append_assoc] using this
  case ifThen =>
    intro test body ihTest ihBody level depth text next upto d h hend
    obtain ⟨_, testCode, bodyCode, middle, stop, htest, hbody, hmiddle, _, he⟩ := instr_ifThen_ok h
    obtain ⟨_, m, hm, rfl⟩ := emit_ok he
    cases hend with
    | own h' =>
      rw [h] at h'
      cases h'
      exact instr_own_placed h
    | test hm' hend =>
      rw [hm] at hm'
      cases hm'
      have := ((ihTest _ _ _ _ _ _ _ htest hend).behind (m ++ lineBreak c.options)).append
        (middle ++ [Symbol.enter.byte] ++ lineBreak c.options ++ bodyCode ++ stop ++ Fragment.clear.text ++
          [Symbol.leave.byte] ++ (Fragment.left 1).text ++ depthNote c.options next)
      simpa only [List.append_assoc] using this
    | body hm' htest' hmiddle' hend =>
      rw [hm] at hm'
      rw [htest] at htest'
      rw [hmiddle] at hmiddle'
      cases hm'
      cases htest'
      cases hmiddle'
      have := ((ihBody _ _ _ _ _ _ _ hbody hend).behind (m ++ lineBreak c.options ++ testCode ++ middle ++
        [Symbol.enter.byte] ++ lineBreak c.options)).append
        (stop ++ Fragment.clear.text ++ [Symbol.leave.byte] ++ (Fragment.left 1).text ++ depthNote c.options next)
      simpa only [List.append_assoc] using this
  case nil =>
    intro level depth index text after upto d _ hend
    cases hend
  case cons =>
    intro x rest ihx ih level depth index text after upto d h hend
    obtain ⟨code, next, more, hx, hrest, rfl⟩ := list_cons_ok h
    cases hend with
    | head hend => exact (ihx _ _ _ _ _ _ hx hend).append more
    | tail hx' hend =>
      rw [hx] at hx'
      cases hx'
      exact (ih _ _ _ _ _ _ _ hrest hend).behind code

theorem instr_placed {c : Context} {level depth next d : Nat} {x : Instr} {text upto : Bytes}
    (h : instr c level depth x = .ok (text, next)) (hend : InstrEnd c level depth x upto d) :
    Placed c.options text upto d :=
  (placed_instr_list c).1 x level depth text next upto d h hend

theorem list_placed {c : Context} {level depth index after d : Nat} {xs : List Instr} {text upto : Bytes}
    (h : list c level depth index xs = .ok (text, after)) (hend : ListEnd c level depth xs upto d) :
    Placed c.options text upto d :=
  (placed_instr_list c).2 xs level depth index text after upto d h hend

theorem declare_placed {o : Options} {seen vars : List Bytes} {text upto : Bytes} {d : Nat}
    (h : declare o seen vars = .ok text) (hend : DeclareEnd o seen vars upto d) : Placed o text upto d := by
  induction vars generalizing seen text upto with
  | nil => cases hend
  | cons x rest ih =>
    obtain ⟨code, more, hline, hmore, rfl⟩ := declare_cons_ok h
    cases hend with
    | head hline' =>
      rw [hline] at hline'
      cases hline'
      exact (Placed.of_emit hline).append more
    | tail hline' hend =>
      rw [hline] at hline'
      cases hline'
      exact (ih hmore hend).behind code

/-- The end of a fragment is a place in the code of the scope, behind a note of the depth. -/
theorem scope_placed {o : Options} {vars : List Bytes} {body : List Instr} {code upto : Bytes} {final d : Nat}
    (h : scope o vars body = .ok (code, final)) (hend : ScopeEnd o vars body upto d) :
    Placed o code upto d := by
  obtain ⟨declared, text, hdecl, hbody, rfl⟩ := scope_ok h
  cases hend with
  | declaration hend =>
    have := (declare_placed hdecl hend).append (lineBreak o ++ text)
    simpa only [List.append_assoc] using this
  | instr hdecl' hend =>
    rw [hdecl] at hdecl'
    cases hdecl'
    exact (list_placed hbody hend).behind _

/-! ## Depths at the ends -/

theorem after_mem_listDepths {c : Context} {level depth index after : Nat} {xs : List Instr} {text : Bytes}
    (h : list c level depth index xs = .ok (text, after)) : after ∈ listDepths depth xs := by
  induction xs generalizing depth index text with
  | nil =>
    rw [list] at h
    cases h
    exact mem_listDepths_self ..
  | cons x rest ih =>
    obtain ⟨code, next, more, hx, hrest, rfl⟩ := list_cons_ok h
    rw [listDepths, ← instr_ok_depth hx, Int.toNat_natCast]
    exact List.mem_cons_of_mem _ (List.mem_append_right _ (ih hrest))

/-- The depths inside an accepted program are those at the ends of its fragments, and the first one. -/
theorem depths_instr_list (c : Context) :
    (∀ x : Instr, ∀ level depth text next, instr c level depth x = .ok (text, next) → ∀ d,
      (d = depth ∨ d = next ∨ d ∈ x.innerDepths depth) ↔ d = depth ∨ ∃ upto, InstrEnd c level depth x upto d) ∧
    ∀ xs : List Instr, ∀ level depth index text after, list c level depth index xs = .ok (text, after) → ∀ d,
      d ∈ listDepths depth xs ↔ d = depth ∨ ∃ upto, ListEnd c level depth xs upto d := by
  apply Instr.induct
  case simple =>
    intro x hx level depth text next h d
    have hinner : x.innerDepths depth = [] := by
      cases x <;> simp [Instr.isSimple, Instr.innerDepths] at hx ⊢
    rw [hinner]
    constructor
    · rintro (rfl | rfl | hd)
      · exact .inl rfl
      · exact .inr ⟨text, .own h⟩
      · exact absurd hd List.not_mem_nil
    · rintro (rfl | ⟨upto, hend⟩)
      · exact .inl rfl
      · cases hend with
        | own h' =>
          rw [h] at h'
          cases h'
          exact .inr (.inl rfl)
        | stat | test | body => cases hx
  case stat =>
    intro body ih level depth text next h d
    obtain ⟨hnext, code, stop, hbody, _, he⟩ := instr_stat_ok h
    obtain ⟨_, m, hm, _⟩ := emit_ok he
    have hd := ih _ _ _ _ _ hbody d
    rw [Instr.innerDepths, hd]
    constructor
    · rintro (rfl | rfl | rfl | ⟨upto, hend⟩)
      · exact .inl rfl
      · exact .inl hnext
      · exact .inl rfl
      · exact .inr ⟨_, .stat hm hend⟩
    · rintro (rfl | ⟨upto, hend⟩)
      · exact .inl rfl
      · cases hend with
        | own h' =>
          rw [h] at h'
          cases h'
          exact .inr (.inl rfl)
        | stat _ hend => exact .inr (.inr (.inr ⟨_, hend⟩))
  case ifThen =>
    intro test body ihTest ihBody level depth text next h d
    obtain ⟨hnext, testCode, bodyCode, middle, stop, htest, hbody, hmiddle, _, he⟩ := instr_ifThen_ok h
    obtain ⟨_, m, hm, _⟩ := emit_ok he
    have hd := ihTest _ _ _ _ _ htest d
    rw [Instr.innerDepths, List.mem_append, hd, ihBody _ _ _ _ _ hbody d]
    constructor
    · rintro (rfl | rfl | (rfl | ⟨upto, hend⟩) | (rfl | ⟨upto, hend⟩))
      · exact .inl rfl
      · exact .inl hnext
      · exact .inl rfl
      · exact .inr ⟨_, .test hm hend⟩
      · -- the depth after the test is the depth at the end of its last fragment
        rcases hd.1 (after_mem_listDepths htest) with h | ⟨upto, hend⟩
        · omega
        · exact .inr ⟨_, .test hm hend⟩
      · exact .inr ⟨_, .body hm htest hmiddle hend⟩
    · rintro (rfl | ⟨upto, hend⟩)
      · exact .inl rfl
      · cases hend with
        | own h' =>
          rw [h] at h'
          cases h'
          exact .inr (.inl rfl)
        | test _ hend => exact .inr (.inr (.inl (.inr ⟨_, hend⟩)))
        | body _ htest' _ hend =>
          rw [htest] at htest'
          cases htest'
          exact .inr (.inr (.inr (.inr ⟨_, hend⟩)))
  case nil =>
    intro level depth index text after _ d
    rw [listDepths, List.mem_singleton]
    constructor
    · exact .inl
    · rintro (rfl | ⟨upto, hend⟩)
      · rfl
      · cases hend
  case cons =>
    intro x rest ihx ih level depth index text after h d
    obtain ⟨code, next, more, hx, hrest, rfl⟩ := list_cons_ok h
    have hd := ihx _ _ _ _ hx d
    rw [listDepths, ← instr_ok_depth hx, Int.toNat_natCast, List.mem_cons, List.mem_append, ih _ _ _ _ _ hrest d]
    constructor
    · rintro (rfl | hinner | rfl | ⟨upto, hend⟩)
      · exact .inl rfl
      · rcases hd.1 (.inr (.inr hinner)) with h | ⟨upto, hend⟩
        · exact .inl h
        · exact .inr ⟨_, .head hend⟩
      · exact .inr ⟨_, .head (.own hx)⟩
      · exact .inr ⟨_, .tail hx hend⟩
    · rintro (rfl | ⟨upto, hend⟩)
      · exact .inl rfl
      · cases hend with
        | head hend =>
          rcases hd.2 (.inr ⟨_, hend⟩) with h | h | h
          · exact .inl h
          · exact .inr (.inr (.inl h))
          · exact .inr (.inl h)
        | tail hx' hend =>
          rw [hx] at hx'
          cases hx'
          exact .inr (.inr (.inr ⟨_, hend⟩))

theorem declareEnd_iff {o : Options} {seen vars : List Bytes} {text : Bytes}
    (h : declare o seen vars = .ok text) (d : Nat) :
    (∃ upto, DeclareEnd o seen vars upto d) ↔ seen.length < d ∧ d ≤ seen.length + vars.length := by
  induction vars generalizing seen text with
  | nil =>
    constructor
    · rintro ⟨_, hend⟩
      cases hend
    · rw [List.length_nil]
      omega
  | cons x rest ih =>
    obtain ⟨code, more, hline, hmore, rfl⟩ := declare_cons_ok h
    have hd := ih hmore
    simp only [List.length_cons] at hd ⊢
    constructor
    · rintro ⟨upto, hend⟩
      cases hend with
      | head hline' =>
        have := (emit_ok hline').1
        omega
      | tail _ hend =>
        have := hd.1 ⟨_, hend⟩
        omega
    · intro hlt
      by_cases hfirst : d = seen.length + 1
      · subst hfirst
        exact ⟨code, .head hline⟩
      · obtain ⟨upto, hend⟩ := hd.2 (by omega)
        exact ⟨code ++ upto, .tail hline hend⟩

/-- The depths that `peak` is the greatest of are those at the ends of fragments, and zero. -/
theorem mem_depths_iff {o : Options} {vars : List Bytes} {body : List Instr} {code : Bytes} {final : Nat}
    (h : scope o vars body = .ok (code, final)) (d : Nat) :
    d ∈ depths vars body ↔ d = 0 ∨ ∃ upto, ScopeEnd o vars body upto d := by
  obtain ⟨declared, text, hdecl, hbody, rfl⟩ := scope_ok h
  have hvars := declareEnd_iff hdecl d
  rw [List.length_nil] at hvars
  rw [depths, List.mem_append, List.mem_range, (depths_instr_list ⟨o, vars⟩).2 _ _ _ _ _ _ hbody d]
  constructor
  · rintro (hlt | rfl | ⟨upto, hend⟩)
    · rcases Nat.eq_zero_or_pos d with rfl | hpos
      · exact .inl rfl
      · obtain ⟨upto, hend⟩ := hvars.2 (by omega)
        exact .inr ⟨upto, .declaration hend⟩
    · rcases Nat.eq_zero_or_pos vars.length with h0 | hpos
      · exact .inl h0
      · obtain ⟨upto, hend⟩ := hvars.2 (by omega)
        exact .inr ⟨upto, .declaration hend⟩
    · exact .inr ⟨_, .instr hdecl hend⟩
  · rintro (rfl | ⟨upto, hend⟩)
    · omega
    · cases hend with
      | declaration hend =>
        have := hvars.1 ⟨upto, hend⟩
        omega
      | instr _ hend => exact .inr (.inr ⟨_, hend⟩)

end Compile

end StackTape

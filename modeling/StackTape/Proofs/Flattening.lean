import StackTape.Program.Flatten
import StackTape.Proofs.Typing

/-!
# Blocks cost nothing

A `stat` block is compiled apart from the list that it stands in, at a nesting level of its own, and its code is put
in place afterwards. Without comments neither the level nor the index of an instruction shows in its code, so the
instructions of the block may as well stand in its place: opening every `stat` of a program, at all levels, keeps
its code byte for byte (`scope_flatten`).
-/

namespace StackTape

/-! ## Flat programs -/

mutual

/-- The instruction is no `stat` and holds none, at any level. -/
def Instr.isFlat : Instr → Bool
  | .stat _ => false
  | .ifThen test body => listIsFlat test && listIsFlat body
  | _ => true

/-- There is no `stat` in the list, at any level. -/
def listIsFlat : List Instr → Bool
  | [] => true
  | x :: rest => x.isFlat && listIsFlat rest

end

theorem listIsFlat_append (xs ys : List Instr) : listIsFlat (xs ++ ys) = (listIsFlat xs && listIsFlat ys) := by
  induction xs with
  | nil => simp [listIsFlat]
  | cons x xs ih => simp [listIsFlat, ih, Bool.and_assoc]

theorem Instr.flatten_simple {x : Instr} (hx : x.isSimple = true) : x.flatten = [x] := by
  cases x <;> first | rfl | cases hx

/-- Flattening opens every `stat`. -/
theorem isFlat_flatten :
    (∀ x : Instr, listIsFlat x.flatten = true) ∧ ∀ xs : List Instr, listIsFlat (flattenList xs) = true := by
  apply Instr.induct
  case simple =>
    intro x hx
    rw [Instr.flatten_simple hx]
    cases x <;> first | rfl | cases hx
  case stat =>
    intro body ih
    rwa [Instr.flatten]
  case ifThen =>
    intro test body ihTest ihBody
    simp [Instr.flatten, listIsFlat, Instr.isFlat, ihTest, ihBody]
  case nil => rfl
  case cons =>
    intro x rest ihx ih
    rw [flattenList, listIsFlat_append, ihx, ih]
    rfl

namespace Compile

open Listing

/-! ## The code of a list in parts -/

/-- Two lists in a row: the second one starts at the depth and index where the first one ends. -/
theorem list_append {c : Context} {level depth index next after : Nat} {xs ys : List Instr} {code more : Bytes}
    (hxs : list c level depth index xs = .ok (code, next))
    (hys : list c level next (index + xs.length) ys = .ok (more, after)) :
    list c level depth index (xs ++ ys) = .ok (code ++ more, after) := by
  induction xs generalizing depth index code with
  | nil =>
    rw [list] at hxs
    cases hxs
    exact hys
  | cons x rest ih =>
    obtain ⟨first, mid, tail, hx, hrest, rfl⟩ := list_cons_ok hxs
    have hindex : index + (x :: rest).length = index + 1 + rest.length := by rw [List.length_cons]; omega
    rw [hindex] at hys
    simp only [List.cons_append, list_cons, hx, ih hrest hys, List.append_assoc]

theorem list_singleton {c : Context} {level depth next : Nat} {x : Instr} {code : Bytes}
    (h : instr c level depth x = .ok (code, next)) (index : Nat) :
    list c level depth index [x] = .ok (code, next) := by
  rw [list_cons, h]
  simp only [list, List.append_nil]

/-! ## Opening blocks -/

section
variable {o : Options} (ho : o.comments = false)
include ho

/-- A line without comments is its code. -/
theorem emit_bare_ok {level depth next : Nat} {label code text : Bytes} {δ : Int}
    (h : emit o level depth label code δ = .ok (text, next)) : text = code := by
  obtain ⟨_, m, hm, rfl⟩ := emit_ok h
  rw [mark_bare ho] at hm
  cases hm
  rw [depthNote_bare ho, List.nil_append, List.append_nil]

/-- The code of a simple instruction is the same at every nesting level. -/
theorem instr_simple_level {vars : List Bytes} {level depth next : Nat} {x : Instr} {code : Bytes}
    (hx : x.isSimple = true) (h : instr ⟨o, vars⟩ level depth x = .ok (code, next)) (level' : Nat) :
    instr ⟨o, vars⟩ level' depth x = .ok (code, next) := by
  obtain ⟨b, δ, hb, he⟩ := instr_simple_ok hx h
  obtain ⟨hnext, _⟩ := emit_ok he
  obtain rfl := emit_bare_ok ho he
  rw [Lowers.instr_eq (c := ⟨o, vars⟩) hb, emit_bare ho (by omega), ← hnext]
  rfl

/-- **Opened blocks have the same code**, wherever the instructions are put. -/
theorem flatten_instr_list (vars : List Bytes) :
    (∀ x : Instr, ∀ level depth code next, instr ⟨o, vars⟩ level depth x = .ok (code, next) →
      ∀ level' index, list ⟨o, vars⟩ level' depth index x.flatten = .ok (code, next)) ∧
    ∀ xs : List Instr, ∀ level depth index code after, list ⟨o, vars⟩ level depth index xs = .ok (code, after) →
      ∀ level' index', list ⟨o, vars⟩ level' depth index' (flattenList xs) = .ok (code, after) := by
  apply Instr.induct
  case simple =>
    intro x hx level depth code next h level' index
    rw [Instr.flatten_simple hx]
    exact list_singleton (instr_simple_level ho hx h level') index
  case stat =>
    intro body ih level depth code next h level' index
    obtain ⟨rfl, inner, stop, hbody, hstop, he⟩ := instr_stat_ok h
    -- without comments there is nothing around the code of the body
    rw [mark_bare ho] at hstop
    cases hstop
    have hcode : code = inner := by
      rw [emit_bare_ok ho he, lineBreak_bare ho, List.nil_append, List.append_nil]
    rw [Instr.flatten, hcode]
    exact ih _ _ _ _ _ hbody level' index
  case ifThen =>
    intro test body ihTest ihBody level depth code next h level' index
    obtain ⟨rfl, testCode, bodyCode, middle, stop, htest, hbody, hmiddle, hstop, he⟩ := instr_ifThen_ok h
    rw [mark_bare ho] at hmiddle hstop
    cases hmiddle
    cases hstop
    have htest' := ihTest _ _ _ _ _ htest (level' + 1) 0
    have hbody' := ihBody _ _ _ _ _ hbody (level' + 1) 0
    refine list_singleton ?_ index
    simp only [instr_ifThen, htest', hbody', mark_bare ho, ne_eq, not_true_eq_false, if_false]
    rw [emit_bare ho (by omega), ← emit_bare_ok ho he]
    simp
  case nil =>
    intro level depth index code after h level' index'
    rw [list] at h
    rw [flattenList, list]
    exact h
  case cons =>
    intro x rest ihx ih level depth index code after h level' index'
    obtain ⟨first, next, more, hx, hrest, rfl⟩ := list_cons_ok h
    exact list_append (ihx _ _ _ _ hx level' index') (ih _ _ _ _ _ hrest level' _)

end

/-- **Opening blocks keeps the code.** A program that compiles also compiles with the instructions of every `stat`
put in its place, at all levels, to the same bare code and the same depth. No `stat` is left in it then. -/
theorem scope_flatten {vars : List Bytes} {body : List Instr} {code : Bytes} {d : Nat}
    (h : scope .plain vars body = .ok (code, d)) :
    scope .plain vars (flattenList body) = .ok (code, d) ∧ listIsFlat (flattenList body) = true := by
  obtain ⟨declared, text, hdecl, hbody, rfl⟩ := scope_ok h
  refine ⟨?_, isFlat_flatten.2 body⟩
  rw [scope_eq, hdecl, (flatten_instr_list (o := .plain) rfl vars).2 _ _ _ _ _ _ hbody 0 0]

/-- A block in the test and one in the body of a conditional, which is itself in a block. -/
theorem scope_flatten_nested :
    ∃ code, scope .plain [ascii "n"] [.stat [.ifThen [.stat [], .get (ascii "n")]
        [.stat [.push 3, .stat [.basic .inc], .set (ascii "n")]]], .basic .read] = .ok (code, 2) ∧
      scope .plain [ascii "n"] [.ifThen [.get (ascii "n")] [.push 3, .basic .inc, .set (ascii "n")], .basic .read] =
        .ok (code, 2) := by
  obtain ⟨code, h⟩ : ∃ code, scope .plain [ascii "n"] [.stat [.ifThen [.stat [], .get (ascii "n")]
      [.stat [.push 3, .stat [.basic .inc], .set (ascii "n")]]], .basic .read] = .ok (code, 2) := ⟨_, rfl⟩
  exact ⟨code, h, (scope_flatten h).1⟩

end Compile

end StackTape

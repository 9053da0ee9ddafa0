import Mathlib.Control.Monad.Basic
import StackTape.Compile.Text
import StackTape.Listing.Config
import StackTape.Proofs.Typing

/-!
# Listings that cannot be laid out

The indent of a line is its nesting level times a width that nothing bounds, and the product is a word that wraps
around. One that comes out negative cannot be laid out, and compiling ends there without a code and without a
refusal. Nothing else ever breaks a listing: the padding behind a label is cut off at zero, and no word of spaces
is too long.

Which lines are laid out depends on the program, as compiling stops at its first fault: `ListLines vars n level d xs`
says that the compiler, at a nesting level and a depth, comes to a line of the list at the level `n`. A text breaks
exactly when there is such a line with a negative indent (`compileText_layout_iff`). An options file with a negative
width is refused, but one that is not can still lead there (`read_indent_breaks`).
-/

namespace StackTape

/-- The indent at the nesting level is negative, and there are comments to be indented. -/
def Options.Breaks (o : Options) (level : Nat) : Prop := o.comments = true ∧ wrap64 (level * o.indent) < 0

mutual

/-- The compiler, at a nesting level and a depth, comes to lay out a line of the instruction at the level `n`. The
line of the instruction itself comes last, when all inside it is typed. -/
inductive Instr.Lines (vars : List Bytes) (n : Nat) : Nat → Nat → Instr → Prop
  | own {d d' : Nat} {x : Instr} : x.Typed vars d d' → Instr.Lines vars n n d x
  | stat {level d : Nat} {body : List Instr} : ListLines vars n (level + 1) d body →
    Instr.Lines vars n level d (.stat body)
  | test {level d : Nat} {test body : List Instr} : ListLines vars n (level + 1) d test →
    Instr.Lines vars n level d (.ifThen test body)
  | body {level d : Nat} {test body : List Instr} : ListTyped vars d test (d + 1) →
    ListLines vars n (level + 1) (d + 1) body → Instr.Lines vars n level d (.ifThen test body)

/-- The compiler, at a nesting level and a depth, comes to lay out a line of the list at the level `n`. -/
inductive ListLines (vars : List Bytes) (n : Nat) : Nat → Nat → List Instr → Prop
  | head {level d : Nat} {x : Instr} {rest : List Instr} : x.Lines vars n level d →
    ListLines vars n level d (x :: rest)
  | tail {level d d' : Nat} {x : Instr} {rest : List Instr} : x.Typed vars d d' →
    ListLines vars n level d' rest → ListLines vars n level d (x :: rest)

end

namespace Listing

variable {o : Options} {level : Nat}

/-- A mark breaks for its indent only. -/
theorem mark_error_iff {label : Bytes} {f : RepeatFault} :
    mark o level label = .error f ↔ o.Breaks level ∧ f = .negativeCount := by
  unfold mark Options.Breaks
  cases o.comments with
  | false => simp [pure, Except.pure]
  | true =>
    have hbound : wrap64 (level * o.indent) < wordBound := by
      have := padding_lt (level * o.indent)
      omega
    obtain ⟨after, hafter⟩ := spaces_ok (Int.le_max_left 0 _)
      (padding_lt (o.labelWidth - wrap64 (level * o.indent) - (sanitize label).length))
    by_cases hneg : wrap64 (level * o.indent) < 0
    · have hbefore : spaces (wrap64 (level * o.indent)) = .error .negativeCount := by rw [spaces, if_pos hneg]
      simp [comment, hbefore, bind, Except.bind, hneg, eq_comm]
    · obtain ⟨before, hbefore⟩ := spaces_ok (Int.not_lt.1 hneg) hbound
      simp [comment, hbefore, hafter, bind, Except.bind, pure, Except.pure, hneg]

theorem not_breaks_of_mark {label m : Bytes} (h : mark o level label = .ok m) : ¬o.Breaks level := by
  intro hbreaks
  rw [mark_error_iff.2 ⟨hbreaks, rfl⟩] at h
  cases h

theorem not_breaks_zero (o : Options) : ¬o.Breaks 0 := by
  obtain ⟨m, hm⟩ := lays_zero o []
  exact not_breaks_of_mark hm

end Listing

namespace Compile

open Listing

variable {o : Options} {vars : List Bytes}

/-! ## What breaks a listing -/

/-- A fault of the layout is that of a line with a negative indent, at one of the levels. -/
def Broken (o : Options) (L : Nat → Prop) : CompileError → Prop
  | .refused _ _ => True
  | .layout f => f = .negativeCount ∧ ∃ n, L n ∧ o.Breaks n

namespace Broken

variable {L M : Nat → Prop} {e : CompileError}

theorem mono (h : Broken o L e) (hLM : ∀ n, L n → M n) : Broken o M e := by
  cases e with
  | refused p cause => trivial
  | layout f => exact h.imp_right fun ⟨n, hn, hbreaks⟩ => ⟨n, hLM n hn, hbreaks⟩

theorem within (h : Broken o L e) (step : PathStep) : Broken o L (e.within step) := by
  cases e with
  | refused p cause => trivial
  | layout f => exact h

theorem of_mark {level : Nat} {label : Bytes} {f : RepeatFault} (h : mark o level label = .error f) (hL : L level) :
    Broken o L (.layout f) := by
  obtain ⟨hbreaks, rfl⟩ := mark_error_iff.1 h
  exact ⟨rfl, level, hL, hbreaks⟩

theorem of_emit {level d : Nat} {label code : Bytes} {δ : Int} (h : emit o level d label code δ = .error e)
    (hL : L level) : Broken o L e := by
  rw [emit_eq] at h
  split at h
  · cases h
    trivial
  · split at h
    · rename_i f hmark
      cases h
      exact of_mark hmark hL
    · cases h

end Broken

/-- A simple instruction is refused for a fault, or it has the line of its fragment. -/
theorem simple_refused_or_lowers (o : Options) (hnodup : vars.Nodup) {x : Instr} (hx : x.isSimple = true)
    (level d : Nat) :
    (∃ p cause, instr ⟨o, vars⟩ level d x = .error (.refused p cause)) ∨
      ∃ b δ, ∃ d' : Nat, Lowers vars d x b δ ∧ d' = d + δ := by
  -- bare code has no layout that could break
  cases hplain : instr ⟨.plain, vars⟩ level d x with
  | ok r =>
    obtain ⟨b, δ, hb, he⟩ := instr_simple_ok hx hplain
    exact .inr ⟨b, δ, r.2, hb, (emit_ok he).1⟩
  | error e =>
    have hfault := fault_simple hx hplain
    cases e with
    | refused p cause => exact .inl ⟨p, cause, refuses_simple hnodup hx hfault⟩
    | layout f => cases hfault

/-- **A listing breaks at a line with a negative indent**, which the compiler has come to. -/
theorem broken_instr_list (o : Options) (hnodup : vars.Nodup) :
    (∀ x : Instr, ∀ level d e, instr ⟨o, vars⟩ level d x = .error e → Broken o (x.Lines vars · level d) e) ∧
    ∀ xs : List Instr, ∀ level d index e, list ⟨o, vars⟩ level d index xs = .error e →
      Broken o (ListLines vars · level d xs) e := by
  have htyped := typed_instr_list ⟨o, vars⟩
  apply Instr.induct
  case simple =>
    intro x hx level d e h
    rcases simple_refused_or_lowers o hnodup hx level d with ⟨p, cause, hrefused⟩ | ⟨b, δ, d', hb, hd'⟩
    · rw [hrefused] at h
      cases h
      trivial
    · rw [Lowers.instr_eq (c := ⟨o, vars⟩) hb] at h
      exact .of_emit h (.own (hb.typed hd'))
  case stat =>
    intro body ih level d e h
    rw [instr_stat] at h
    split at h
    · rename_i e' hbody
      cases h
      exact ((ih _ _ _ _ hbody).mono fun n => .stat).within _
    · rename_i code after hbody
      split at h
      · cases h
        trivial
      · rename_i hafter
        obtain rfl : after = d := Decidable.of_not_not hafter
        have hown : (Instr.stat body).Lines vars level level after := .own (.stat (htyped.2 _ _ _ _ _ _ hbody))
        split at h
        · rename_i f hstop
          cases h
          exact .of_mark hstop hown
        · exact .of_emit h hown
  case ifThen =>
    intro test body ihTest ihBody level d e h
    rw [instr_ifThen] at h
    split at h
    · rename_i e' htest
      cases h
      exact ((ihTest _ _ _ _ htest).mono fun n => .test).within _
    · rename_i testCode tested htest
      split at h
      · cases h
        trivial
      · rename_i htested
        obtain rfl : tested = d + 1 := Decidable.of_not_not htested
        have hTest := htyped.2 _ _ _ _ _ _ htest
        split at h
        · rename_i e' hbody
          cases h
          exact ((ihBody _ _ _ _ hbody).mono fun n => .body hTest).within _
        · rename_i bodyCode after hbody
          split at h
          · cases h
            trivial
          · rename_i hafter
            obtain rfl : after = d + 1 := Decidable.of_not_not hafter
            have hown : (Instr.ifThen test body).Lines vars level level d :=
              .own (.ifThen hTest (htyped.2 _ _ _ _ _ _ hbody))
            split at h
            · rename_i f hmiddle
              cases h
              exact .of_mark hmiddle hown
            · split at h
              · rename_i f hstop
                cases h
                exact .of_mark hstop hown
              · exact .of_emit h hown
  case nil =>
    intro level d index e h
    rw [list] at h
    cases h
  case cons =>
    intro x rest ihx ih level d index e h
    rw [list_cons] at h
    split at h
    · rename_i e' hx
      cases h
      exact ((ihx _ _ _ hx).mono fun n => .head).within _
    · rename_i code next hx
      split at h
      · rename_i e' hrest
        cases h
        exact (ih _ _ _ _ hrest).mono fun n => .tail (htyped.1 _ _ _ _ _ hx)
      · cases h

/-! ## Where a listing breaks -/

/-- An outcome that is refused only where bare code is refused, and has the depth of bare code if it has one: when
the bare code compiles, it can only break. -/
theorem ok_or_broken {r r' : Output} {d : Nat} {L : Nat → Prop} (hbare : ∃ code, r' = .ok (code, d))
    (hok : ∀ text d', r = .ok (text, d') → ∃ code, r' = .ok (code, d'))
    (hrefused : ∀ p cause, r = .error (.refused p cause) → r' = .error (.refused p cause))
    (hbroken : ∀ e, r = .error e → Broken o L e) :
    (∃ text, r = .ok (text, d)) ∨ r = .error (.layout .negativeCount) := by
  obtain ⟨code, rfl⟩ := hbare
  cases r with
  | ok p =>
    obtain ⟨_, hcode⟩ := hok p.1 p.2 rfl
    cases hcode
    exact .inl ⟨p.1, rfl⟩
  | error e =>
    cases e with
    | refused p cause => cases hrefused p cause rfl
    | layout f =>
      obtain ⟨rfl, _⟩ := hbroken _ rfl
      exact .inr rfl

/-- What is typed compiles, unless its listing breaks. -/
theorem ok_or_broken_of_typed (o : Options) (hnodup : vars.Nodup) :
    (∀ x : Instr, ∀ level d d', x.Typed vars d d' →
      (∃ text, instr ⟨o, vars⟩ level d x = .ok (text, d')) ∨
        instr ⟨o, vars⟩ level d x = .error (.layout .negativeCount)) ∧
    ∀ xs : List Instr, ∀ level d index d', ListTyped vars d xs d' →
      (∃ text, list ⟨o, vars⟩ level d index xs = .ok (text, d')) ∨
        list ⟨o, vars⟩ level d index xs = .error (.layout .negativeCount) := by
  have htyped := typed_instr_list ⟨o, vars⟩
  have hfaults := fault_instr_list ⟨o, vars⟩
  have haccepts := accepts_instr_list (o := .plain) rfl vars
  have hrefuses := refuses_instr_list (o := .plain) rfl hnodup
  have hbroken := broken_instr_list o hnodup
  refine ⟨fun x level d d' h => ?_, fun xs level d index d' h => ?_⟩
  · exact ok_or_broken (haccepts.1 x level d d' h)
      (fun _ _ hx => haccepts.1 x level d _ (htyped.1 _ _ _ _ _ hx))
      (fun _ _ hx => hrefuses.1 x level d _ _ (hfaults.1 _ _ _ _ hx)) (hbroken.1 x level d)
  · exact ok_or_broken (haccepts.2 xs level d index d' h)
      (fun _ _ hxs => haccepts.2 xs level d index _ (htyped.2 _ _ _ _ _ _ hxs))
      (fun _ _ hxs => hrefuses.2 xs level d index _ _ (hfaults.2 _ _ _ _ _ hxs)) (hbroken.2 xs level d index)

theorem emit_ok_unbroken {level d next : Nat} {label code text : Bytes} {δ : Int}
    (h : emit o level d label code δ = .ok (text, next)) : ¬o.Breaks level := by
  obtain ⟨_, m, hm, _⟩ := emit_ok h
  exact not_breaks_of_mark hm

/-- The line of a compiled instruction has been laid out. -/
theorem instr_ok_unbroken {c : Context} {level d next : Nat} {x : Instr} {text : Bytes}
    (h : instr c level d x = .ok (text, next)) : ¬c.options.Breaks level := by
  cases hx : x.isSimple with
  | true =>
    obtain ⟨b, δ, _, he⟩ := instr_simple_ok hx h
    exact emit_ok_unbroken he
  | false =>
    cases x <;> simp only [Instr.isSimple, reduceCtorEq] at hx
    case stat body =>
      obtain ⟨_, _, _, _, _, he⟩ := instr_stat_ok h
      exact emit_ok_unbroken he
    case ifThen test body =>
      obtain ⟨_, _, _, _, _, _, _, _, _, he⟩ := instr_ifThen_ok h
      exact emit_ok_unbroken he

/-- **Every line with a negative indent breaks the listing** when the compiler comes to it; what it has found
before can only be another such line. -/
theorem breaks_instr_list (o : Options) (hnodup : vars.Nodup) :
    (∀ x : Instr, ∀ level d n, x.Lines vars n level d → o.Breaks n →
      instr ⟨o, vars⟩ level d x = .error (.layout .negativeCount)) ∧
    ∀ xs : List Instr, ∀ level d index n, ListLines vars n level d xs → o.Breaks n →
      list ⟨o, vars⟩ level d index xs = .error (.layout .negativeCount) := by
  have hcompiles := ok_or_broken_of_typed o hnodup
  have hown : ∀ x : Instr, ∀ level d d', x.Typed vars d d' → o.Breaks level →
      instr ⟨o, vars⟩ level d x = .error (.layout .negativeCount) := by
    intro x level d d' hx hbreaks
    rcases hcompiles.1 x level d d' hx with ⟨text, htext⟩ | hlayout
    · exact absurd hbreaks (instr_ok_unbroken htext)
    · exact hlayout
  apply Instr.induct
  case simple =>
    intro x hx level d n h hbreaks
    cases h with
    | own htyped => exact hown x level d _ htyped hbreaks
    | stat | test | body => cases hx
  case stat =>
    intro body ih level d n h hbreaks
    cases h with
    | own htyped => exact hown _ level d _ htyped hbreaks
    | stat hbody =>
      rw [instr_stat, ih (level + 1) d 0 n hbody hbreaks]
      rfl
  case ifThen =>
    intro test body ihTest ihBody level d n h hbreaks
    cases h with
    | own htyped => exact hown _ level d _ htyped hbreaks
    | test htest =>
      rw [instr_ifThen, ihTest (level + 1) d 0 n htest hbreaks]
      rfl
    | body htest hbody =>
      rw [instr_ifThen]
      rcases hcompiles.2 test (level + 1) d 0 _ htest with ⟨code, hcode⟩ | hlayout
      · simp only [hcode, ihBody (level + 1) (d + 1) 0 n hbody hbreaks]
        rw [if_neg (by simp)]
        rfl
      · rw [hlayout]
        rfl
  case nil =>
    intro level d index n h
    cases h
  case cons =>
    intro x rest ihx ih level d index n h hbreaks
    rw [list_cons]
    cases h with
    | head hx =>
      rw [ihx level d n hx hbreaks]
      rfl
    | tail hx hrest =>
      rcases hcompiles.1 x level d _ hx with ⟨code, hcode⟩ | hlayout
      · simp only [hcode, ih level _ (index + 1) n hrest hbreaks]
      · rw [hlayout]
        rfl

/-! ## Scopes and texts -/

/-- Declarations stand outside all blocks, so they never break. -/
theorem declare_ne_layout {o : Options} {seen vars : List Bytes} {f : RepeatFault} :
    declare o seen vars ≠ .error (.layout f) := by
  intro h
  induction vars generalizing seen with
  | nil => cases h
  | cons x rest ih =>
    rw [declare_cons] at h
    split at h
    · cases h
    · split at h
      · rename_i e hemit
        cases h
        obtain ⟨_, _, rfl, hbreaks⟩ := Broken.of_emit (L := (· = 0)) hemit rfl
        exact not_breaks_zero o hbreaks
      · split at h
        · rename_i e hrest
          cases h
          exact ih hrest
        · cases h

theorem scope_layout_iff {o : Options} {vars : List Bytes} {body : List Instr} {f : RepeatFault} :
    scope o vars body = .error (.layout f) ↔
      f = .negativeCount ∧ vars.Nodup ∧ ∃ level, ListLines vars level 0 vars.length body ∧ o.Breaks level := by
  rw [scope_eq]
  constructor
  · intro h
    split at h
    · rename_i e hdecl
      cases h
      exact absurd hdecl declare_ne_layout
    · rename_i declared hdecl
      have hnodup := (nodup_of_declare hdecl).1
      split at h
      · rename_i e hlist
        cases h
        obtain ⟨hf, level, hlines, hbreaks⟩ := (broken_instr_list o hnodup).2 _ _ _ _ _ hlist
        exact ⟨hf, hnodup, level, hlines, hbreaks⟩
      · cases h
  · rintro ⟨rfl, hnodup, level, hlines, hbreaks⟩
    obtain ⟨declared, hdecl⟩ := declare_of_nodup o hnodup fun x _ => List.not_mem_nil (a := x)
    simp only [hdecl, (breaks_instr_list o hnodup).2 body 0 vars.length 0 level hlines hbreaks]

end Compile

/-- **A text breaks exactly at lines with a negative indent**: it is a program with distinct variables, and the
compiler comes to such a line in it. There is no other fault of the layout, and bare code never breaks. -/
theorem compileText_layout_iff (o : Options) (text : Bytes) (f : RepeatFault) :
    compileText o text = .error (.program (.layout f)) ↔
      f = .negativeCount ∧ o.comments = true ∧ ∃ p level, Source.parse text = .ok p ∧ p.vars.Nodup ∧
        ListLines p.vars level 0 p.vars.length p.body ∧ wrap64 (level * o.indent) < 0 := by
  have hscope : compileText o text = .error (.program (.layout f)) ↔
      ∃ p, Source.parse text = .ok p ∧ Compile.scope o p.vars p.body = .error (.layout f) := by
    rw [compileText]
    cases Source.parse text with
    | error fault => simp
    | ok p => cases h : Compile.scope o p.vars p.body <;> simp [Compile.program, h, Functor.map, Except.map]
  rw [hscope]
  constructor
  · rintro ⟨p, hp, h⟩
    obtain ⟨hf, hnodup, level, hlines, ho, hneg⟩ := Compile.scope_layout_iff.1 h
    exact ⟨hf, ho, p, level, hp, hnodup, hlines, hneg⟩
  · rintro ⟨hf, ho, p, level, hp, hnodup, hlines, hneg⟩
    exact ⟨p, hp, Compile.scope_layout_iff.2 ⟨hf, hnodup, level, hlines, ho, hneg⟩⟩

/-- An options file is accepted, and a text with a block in a block breaks, as twice the indent is a negative word.
Bare code gets past the blocks and reports the error behind them. -/
theorem read_indent_breaks :
    let o : Options := { Options.standard with indent := 4611686018427387904 }
    Config.read (ascii "indent: 4611686018427387904\n") = .ok o ∧ 0 ≤ o.indent ∧ 0 ≤ o.labelWidth ∧
      compileText o (ascii "stat { stat { clear } } add") = .error (.program (.layout .negativeCount)) ∧
      compileText .plain (ascii "stat { stat { clear } } add") =
        .error (.program (.refused [.instr 1 (ascii "add")] (.negativeDepth (ascii "add") 0 (-1)))) := by
  refine ⟨by decide +kernel, by decide, by decide, by decide +kernel, by decide +kernel⟩

end StackTape

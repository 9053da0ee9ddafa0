import StackTape.Compile.Text
import StackTape.Program.Render
import StackTape.Proofs.Parsing
import StackTape.Proofs.Spelling
import StackTape.Proofs.Typing

/-!
# Reading undoes writing

The programs that can be written are those with identifiers for names, constants from zero to the largest signed
word and real instructions only (`Program.writable`); a print may hold any bytes, and names may be words of the
grammar. The text of such a program is read as the program itself (`parse_render`), and nothing else is ever read
(`writable_of_parse`), so a compiled text is never refused for a fault that only a value made by hand can have.
-/

namespace StackTape

open StackTape.Source

/-! ## Programs that can be written -/

mutual

/-- The instruction can be written. -/
def Instr.writable : Instr → Bool
  | .basic _ | .print _ => true
  | .push n | .addc n | .subc n => 0 ≤ n && n < wordBound
  | .get x | .set x => isName x
  | .stat body => writableList body
  | .ifThen test body => writableList test && writableList body
  | .foreign _ => false

def writableList : List Instr → Bool
  | [] => true
  | x :: rest => x.writable && writableList rest

end

def Program.writable (p : Program) : Bool := p.vars.all isName && writableList p.body

/-! ## Writing and reading back -/

theorem isNumeral_decimal (n : Nat) : isNumeral (decimal n) = true :=
  isNumeral_iff.2 ⟨decimal_ne_nil n, isDigit_decimal n⟩

/-- A constant in range is written as a literal of its value. -/
theorem decimalInt_literal {n : Int} (h : (0 ≤ n && n < wordBound : Bool) = true) :
    isNumeral (decimalInt n) = true ∧ literalValue? (decimalInt n) = some n := by
  rw [Bool.and_eq_true_iff, decide_eq_true_eq, decide_eq_true_eq] at h
  cases n with
  | ofNat k => exact ⟨isNumeral_decimal k, literalValue?_decimal (Int.ofNat_lt.1 h.2)⟩
  | negSucc k => omega

/-- Every word that starts an instruction is an identifier. -/
theorem isName_word (w : Word) : isName w.text = true := by
  cases w with
  | operand w => cases w <;> rfl
  | block w => cases w <;> rfl
  | basic b => cases b <;> rfl

theorem spells_keyword {s : String} (h : isName (ascii s) = true) : Spells (ascii s) [keyword s] := spells_name h

/-- A word and its operand, with a space between them. -/
theorem spells_operand {w : OperandWord} {x : Bytes} (h : Spells x [⟨w.kind, x⟩]) :
    Spells ((Word.operand w).text ++ 0x20 :: x) (w.tree x).yield := by
  rw [OperandWord.yield_tree]
  exact (spells_name (isName_word _)).blank h

/-- The label of an instruction without blocks spells a derivation of it. -/
theorem spells_label {x : Instr} (hx : x.isSimple = true) (hw : x.writable = true) :
    ∃ t : Tree, Spells x.label t.yield ∧ t.instr? = some x := by
  cases x with
  | basic b =>
    refine ⟨.op b, ?_, by rw [Tree.instr?]⟩
    rw [Instr.label, Tree.yield]
    exact spells_name (isName_word (.basic b))
  | push n =>
    rw [Instr.writable] at hw
    obtain ⟨hn, hv⟩ := decimalInt_literal hw
    exact ⟨.push (decimalInt n), spells_operand (w := .push) (spells_numeral hn), by rw [Tree.instr?, hv]; rfl⟩
  | addc n =>
    rw [Instr.writable] at hw
    obtain ⟨hn, hv⟩ := decimalInt_literal hw
    exact ⟨.addc (decimalInt n), spells_operand (w := .addc) (spells_numeral hn), by rw [Tree.instr?, hv]; rfl⟩
  | subc n =>
    rw [Instr.writable] at hw
    obtain ⟨hn, hv⟩ := decimalInt_literal hw
    exact ⟨.subc (decimalInt n), spells_operand (w := .subc) (spells_numeral hn), by rw [Tree.instr?, hv]; rfl⟩
  | get x =>
    rw [Instr.writable] at hw
    exact ⟨.get x, spells_operand (w := .get) (spells_name hw), by rw [Tree.instr?]⟩
  | set x =>
    rw [Instr.writable] at hw
    exact ⟨.set x, spells_operand (w := .set) (spells_name hw), by rw [Tree.instr?]⟩
  | print t =>
    refine ⟨.print (Quoted.quote t), spells_operand (w := .print) (spells_quote t), ?_⟩
    rw [Tree.instr?, Quoted.unquote_quote]
    rfl
  | stat body => cases hx
  | ifThen test body => cases hx
  | foreign type =>
    rw [Instr.writable] at hw
    cases hw

theorem words_simple {x : Instr} (hx : x.isSimple = true) : x.words = [x.label] := by
  cases x with
  | stat body => cases hx
  | ifThen test body => cases hx
  | _ => rw [Instr.words] <;> exact nofun

/-- The words of a block around the words of its instructions. -/
theorem spells_block {ws : List Bytes} {ls : List Lexeme} (h : SpellsAll ws ls) :
    SpellsAll ([[0x7B]] ++ ws ++ [[0x7D]]) (block ls) := by
  have := ((SpellsAll.single (spells_mark (b := 0x7B) rfl)).append h).append (.single (spells_mark (b := 0x7D) rfl))
  rwa [List.append_assoc, List.singleton_append] at this

/-- The words of an instruction spell a derivation of it. -/
theorem spells_instr_list :
    (∀ x : Instr, x.writable = true → ∃ t : Tree, SpellsAll x.words t.yield ∧ t.instr? = some x) ∧
    ∀ xs : List Instr, writableList xs = true →
      ∃ ts : List Tree, SpellsAll (wordsList xs) (yieldList ts) ∧ instrs? ts = some xs := by
  apply Instr.induct
  case simple =>
    intro x hx hw
    obtain ⟨t, ht, hv⟩ := spells_label hx hw
    rw [words_simple hx]
    exact ⟨t, .single ht, hv⟩
  case stat =>
    intro body ih hw
    rw [Instr.writable] at hw
    obtain ⟨ts, hts, hv⟩ := ih hw
    refine ⟨.stat ts, ?_, by rw [Tree.instr?, hv]; rfl⟩
    rw [Instr.words, Tree.yield]
    exact .cons (spells_keyword rfl) (spells_block hts)
  case ifThen =>
    intro test body ihTest ihBody hw
    rw [Instr.writable, Bool.and_eq_true_iff] at hw
    obtain ⟨ts, hts, hv⟩ := ihTest hw.1
    obtain ⟨us, hus, hv'⟩ := ihBody hw.2
    refine ⟨.ifThen ts us, ?_, by rw [Tree.instr?, hv, hv']; rfl⟩
    have h := SpellsAll.cons (spells_keyword (s := "if") rfl)
      ((spells_block hts).append (.cons (spells_keyword (s := "then") rfl) (spells_block hus)))
    rw [Instr.words, Tree.yield]
    simpa using h
  case nil => exact fun _ => ⟨[], by rw [wordsList, yieldList]; exact .nil, by rw [instrs?]⟩
  case cons =>
    intro x rest ihx ih hw
    rw [writableList, Bool.and_eq_true_iff] at hw
    obtain ⟨t, ht, hx⟩ := ihx hw.1
    obtain ⟨ts, hts, hxs⟩ := ih hw.2
    refine ⟨t :: ts, ?_, by rw [instrs?, hx, hxs]; rfl⟩
    rw [wordsList, yieldList]
    exact ht.append hts

theorem spells_names {vars : List Bytes} (h : vars.all isName = true) :
    SpellsAll vars (vars.map (Lexeme.mk .ident)) := by
  induction vars with
  | nil => exact .nil
  | cons x vars ih =>
    rw [List.all_cons, Bool.and_eq_true_iff] at h
    exact .cons (spells_name h.1) (ih h.2)

theorem declarationWords_cons (x : Bytes) (rest : List Bytes) : declarationWords (x :: rest) =
    [ascii "let" ++ 0x20 :: (joinWith (ascii " ") (x :: rest) ++ [0x3B])] := by
  show [ascii "let " ++ joinWith (ascii " ") (x :: rest) ++ ascii ";"] = _
  rw [List.append_assoc]
  rfl

/-- **Reading the text of a program gives the program back.** -/
theorem parse_render {p : Program} (h : p.writable = true) : parse p.render = .ok p := by
  obtain ⟨vars, body⟩ := p
  obtain ⟨hvars, hbody⟩ := Bool.and_eq_true_iff.1 h
  obtain ⟨ts, hts, hv⟩ := spells_instr_list.2 body hbody
  -- without variables there is no declaration
  have file : ∃ t : FileTree, SpellsAll (declarationWords vars ++ wordsList body) t.yield ∧
      t.program? = some ⟨vars, body⟩ := by
    cases vars with
    | nil => exact ⟨⟨none, ts⟩, hts, by rw [FileTree.program?, hv]; rfl⟩
    | cons x rest =>
      refine ⟨⟨some (x :: rest), ts⟩, ?_, by rw [FileTree.program?, hv]; rfl⟩
      have hlet := (spells_keyword (s := "let") rfl).blank
        ((spells_names hvars).joined.mark (b := 0x3B) rfl)
      have hfile := SpellsAll.cons hlet hts
      rw [List.append_assoc, List.append_assoc] at hfile
      rw [declarationWords_cons]
      exact hfile
  obtain ⟨t, ht, hp⟩ := file
  obtain ⟨ls, hls, hyield⟩ := ht.joined.reads
  exact parse_eq_ok_iff.2 ⟨t, ⟨ls, hls, hyield.symm⟩, hp⟩

/-! ## Only programs that can be written are read -/

theorem literalValue?_range {s : Bytes} {n : Int} (h : literalValue? s = some n) :
    (0 ≤ n && n < wordBound : Bool) = true := by
  rw [literalValue?] at h
  split at h
  · rename_i hs
    cases h
    simpa using hs.2
  · cases h

theorem writable_tree_list :
    (∀ t : Tree, ∀ x, (∀ l ∈ t.yield, l.Proper) → t.instr? = some x → x.writable = true) ∧
    ∀ ts : List Tree, ∀ xs, (∀ l ∈ yieldList ts, l.Proper) → instrs? ts = some xs → writableList xs = true := by
  apply Tree.induct
  case leaf =>
    intro t ht x hp h
    cases t with
    | get name | set name =>
      rw [Tree.instr?] at h
      cases h
      rw [Instr.writable]
      exact (hp ⟨.ident, name⟩ (by simp [Tree.yield])).1 rfl
    | push n | addc n | subc n =>
      rw [Tree.instr?] at h
      obtain ⟨v, hv, rfl⟩ := Option.map_eq_some_iff.1 h
      rw [Instr.writable]
      exact literalValue?_range hv
    | print s =>
      rw [Tree.instr?] at h
      obtain ⟨v, hv, rfl⟩ := Option.map_eq_some_iff.1 h
      rw [Instr.writable]
    | op b =>
      rw [Tree.instr?] at h
      cases h
      rw [Instr.writable]
    | stat body => cases ht
    | ifThen test body => cases ht
  case stat =>
    intro body ih x hp h
    rw [Tree.instr?] at h
    obtain ⟨xs, hxs, rfl⟩ := Option.map_eq_some_iff.1 h
    rw [Tree.yield] at hp
    rw [Instr.writable]
    exact ih xs (fun l hl => hp l (by simp [block, hl])) hxs
  case ifThen =>
    intro test body ihTest ihBody x hp h
    rw [Tree.instr?] at h
    obtain ⟨xs, hxs, h⟩ := Option.bind_eq_some_iff.1 h
    obtain ⟨ys, hys, rfl⟩ := Option.map_eq_some_iff.1 h
    rw [Tree.yield] at hp
    rw [Instr.writable, Bool.and_eq_true_iff]
    exact ⟨ihTest xs (fun l hl => hp l (by simp [block, hl])) hxs,
      ihBody ys (fun l hl => hp l (by simp [block, hl])) hys⟩
  case nil =>
    intro xs _ h
    rw [instrs?] at h
    cases h
    rw [writableList]
  case cons =>
    intro t ts iht ih xs hp h
    rw [instrs?] at h
    obtain ⟨y, hy, h⟩ := Option.bind_eq_some_iff.1 h
    obtain ⟨ys, hys, rfl⟩ := Option.map_eq_some_iff.1 h
    rw [yieldList] at hp
    rw [writableList, Bool.and_eq_true_iff]
    exact ⟨iht y (fun l hl => hp l (List.mem_append_left _ hl)) hy,
      ih ys (fun l hl => hp l (List.mem_append_right _ hl)) hys⟩

/-- **Every program that is read can be written.** -/
theorem writable_of_parse {text : Bytes} {p : Program} (h : parse text = .ok p) : p.writable = true := by
  obtain ⟨t, ⟨ls, hlex, hyield⟩, hp⟩ := parse_eq_ok_iff.1 h
  have hproper : ∀ l ∈ t.yield, l.Proper := fun l hl => hlex.proper l (by
    rw [hyield] at hl
    exact (List.mem_filter.1 hl).1)
  obtain ⟨declared, ts⟩ := t
  obtain ⟨xs, hxs, rfl⟩ := Option.map_eq_some_iff.1 hp
  rw [Program.writable, Bool.and_eq_true_iff]
  cases declared with
  | none => exact ⟨rfl, writable_tree_list.2 ts xs hproper hxs⟩
  | some vars =>
    simp only [FileTree.yield, List.forall_mem_cons, List.forall_mem_append, List.forall_mem_map] at hproper
    obtain ⟨-, hvars, -, hbody⟩ := hproper
    exact ⟨List.all_eq_true.2 fun x hx => (hvars x hx).1 rfl, writable_tree_list.2 ts xs hbody hxs⟩

/-! ## Faults of programs that can be written -/

/-- A program that can be written may be refused for this cause. -/
def Cause.writable : Cause → Bool
  | .negativeConstant _ | .unsupported _ | .noProgram => false
  | _ => true

theorem ListFault.writable {vars : List Bytes} {d : Nat} {xs : List Instr} {path : List PathStep} {cause : Cause}
    (hxs : ∀ x ∈ xs, ∀ d path cause, x.Fault vars d path cause → cause.writable = true)
    (h : ListFault vars d xs path cause) : cause.writable = true := by
  cases h with
  | intro _ hx => exact hxs _ (by simp) _ _ _ hx

theorem fault_writable (vars : List Bytes) :
    (∀ x : Instr, x.writable = true → ∀ d path cause, x.Fault vars d path cause → cause.writable = true) ∧
    ∀ xs : List Instr, writableList xs = true → ∀ x ∈ xs, ∀ d path cause, x.Fault vars d path cause →
      cause.writable = true := by
  apply Instr.induct
  case simple =>
    intro x hx hw d path cause h
    cases h with
    | push hneg | addc hneg | subc hneg =>
      simp only [Instr.writable, Bool.and_eq_true, decide_eq_true_eq] at hw
      omega
    | foreign type => cases hw
    | inStat | inTest | inBody => cases hx
    | _ => rfl
  case stat =>
    intro body ih hw d path cause h
    rw [Instr.writable] at hw
    cases h with
    | inStat hbody => exact hbody.writable (ih hw)
    | imbalance => rfl
  case ifThen =>
    intro test body ihTest ihBody hw d path cause h
    rw [Instr.writable, Bool.and_eq_true_iff] at hw
    cases h with
    | inTest htest => exact htest.writable (ihTest hw.1)
    | inBody _ hbody => exact hbody.writable (ihBody hw.2)
    | testDepth | bodyDepth => rfl
  case nil => simp
  case cons =>
    intro x rest ihx ih hw
    rw [writableList, Bool.and_eq_true_iff] at hw
    exact List.forall_mem_cons.2 ⟨ihx hw.1, ih hw.2⟩

namespace Compile

/-- A declaration is refused only for a name that is already there. -/
theorem declare_explained {o : Options} {seen vars : List Bytes} {e : CompileError}
    (h : declare o seen vars = .error e) : Explains o (fun _ cause => cause.writable = true) e := by
  induction vars generalizing seen e with
  | nil => cases h
  | cons x rest ih =>
    rw [declare_cons] at h
    split at h
    · cases h
      exact rfl
    · split at h
      · rename_i e' hemit
        cases h
        exact Explains.of_emit hemit fun hneg => absurd hneg (by omega)
      · split at h
        · rename_i e' hrest
          cases h
          exact ih hrest
        · cases h

theorem scope_explained {o : Options} {vars : List Bytes} {body : List Instr} {e : CompileError}
    (hw : writableList body = true) (h : scope o vars body = .error e) :
    Explains o (fun _ cause => cause.writable = true) e := by
  rw [scope_eq] at h
  split at h
  · rename_i e' hdecl
    cases h
    exact declare_explained hdecl
  · split at h
    · rename_i e' hlist
      cases h
      refine ((fault_instr_list ⟨o, vars⟩).2 _ _ _ _ _ hlist).mono fun path cause hfault => ?_
      exact (listFault_iff.2 hfault).writable ((fault_writable vars).2 body hw)
    · cases h

end Compile

/-- A text is never refused for a cause that no written program can have. -/
theorem compileText_writable {o : Options} {text : Bytes} {path : List PathStep} {cause : Cause}
    (h : compileText o text = .error (.program (.refused path cause))) : cause.writable = true := by
  rw [compileText] at h
  cases hp : parse text with
  | error f => simp [hp] at h
  | ok p =>
    have hw := writable_of_parse hp
    rw [Program.writable, Bool.and_eq_true_iff] at hw
    simp only [hp, Compile.program] at h
    cases hs : Compile.scope o p.vars p.body with
    | ok r => simp [hs, Functor.map, Except.map] at h
    | error e =>
      simp only [hs, Functor.map, Except.map, Except.error.injEq, TextError.program.injEq] at h
      subst h
      exact Compile.scope_explained hw.2 hs

/-- **Reading undoes writing.** Every program that can be written is read back from its text; only such programs
are ever read, so a text may be replaced by the text of its program; and compiling a text never finds a negative
constant, a foreign instruction or no program. -/
theorem parse_undoes_render :
    (∀ p : Program, p.writable = true → parse p.render = .ok p) ∧
    (∀ text p, parse text = .ok p → p.writable = true ∧ parse p.render = parse text) ∧
    ∀ o text path cause, compileText o text = .error (.program (.refused path cause)) →
      (∀ label, cause ≠ .negativeConstant label) ∧ (∀ type, cause ≠ .unsupported type) ∧ cause ≠ .noProgram := by
  refine ⟨fun p => parse_render, fun text p h => ?_, fun o text path cause h => ?_⟩
  · have hw := writable_of_parse h
    exact ⟨hw, by rw [parse_render hw, h]⟩
  · have hw := compileText_writable h
    refine ⟨?_, ?_, ?_⟩
    · rintro label rfl
      cases hw
    · rintro type rfl
      cases hw
    · rintro rfl
      cases hw

/-- Words of the grammar as names, the largest constant, empty blocks and a print of bytes that are no text; a
text with other blanks and an octal literal; and a text that is refused for its name. -/
theorem parse_undoes_render_keywords :
    let p : Program := ⟨[ascii "let", ascii "then"], [.stat [], .push 9223372036854775807,
      .ifThen [.get (ascii "let")] [.set (ascii "then")], .print [0xFF, 0x22, 0x00, 0x0A, 0xC3, 0xA9]]⟩
    parse p.render = .ok p ∧
    parse (Program.render ⟨[], [.addc 8]⟩) = parse (ascii "addc\n010#") ∧
    ∃ cause, compileText .plain (ascii "get x") = .error (.program (.refused [.instr 0 (ascii "get x")] cause)) ∧
      cause = .undefinedVariable (ascii "x") ∧
      (∀ label, cause ≠ .negativeConstant label) ∧ (∀ type, cause ≠ .unsupported type) ∧ cause ≠ .noProgram := by
  refine ⟨parse_undoes_render.1 _ (by decide), ?_, ?_⟩
  · have ht : Derives (ascii "addc\n010#") ⟨none, [.addc (ascii "010")]⟩ := by decide
    have h : parse (ascii "addc\n010#") = .ok ⟨[], [.addc 8]⟩ := parse_eq_ok_iff.2 ⟨_, ht, rfl⟩
    exact (parse_undoes_render.2.1 _ _ h).2
  · have h : compileText .plain (ascii "get x") =
        .error (.program (.refused [.instr 0 (ascii "get x")] (.undefinedVariable (ascii "x")))) := by
      have ht : Derives (ascii "get x") ⟨none, [.get (ascii "x")]⟩ := by decide
      have hp : parse (ascii "get x") = .ok ⟨[], [.get (ascii "x")]⟩ := parse_eq_ok_iff.2 ⟨_, ht, rfl⟩
      rw [compileText, hp]
      rfl
    exact ⟨_, h, rfl, parse_undoes_render.2.2 _ _ _ _ h⟩

end StackTape

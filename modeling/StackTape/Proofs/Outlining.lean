import StackTape.Cli.Run
import StackTape.Proofs.Roundtrip

/-!
# Outlines lose nothing

An outline shows the tree of a program by tabs alone. It can be read back, because a label has no tab and no line
break in it, whatever bytes it quotes (`visible_label`), and because it says which instruction it is: the label of a
simple instruction is the text of a program of its own (`parse_label`), and those of blocks are not. A block ends
where the tabs become fewer, and so does the test of a conditional, whose `then` is no deeper than its `if`
(`Shallow`).

So the outline of a program that can be written is known by no other (`outline_inj`), and two files with the same
outline hold the same program (`outlineFile_eq_iff`).
-/

namespace StackTape

open StackTape.Source

/-! ## Labels without control characters -/

/-- No byte of the text is a control character. -/
def Visible (t : Bytes) : Prop := ∀ b ∈ t, 0x20 ≤ b

instance (t : Bytes) : Decidable (Visible t) := List.decidableBAll (0x20 ≤ ·) t

namespace Visible

theorem append {t u : Bytes} (ht : Visible t) (hu : Visible u) : Visible (t ++ u) := fun b hb =>
  (List.mem_append.1 hb).elim (ht b) (hu b)

theorem single {b : UInt8} (h : 0x20 ≤ b) : Visible [b] := fun c hc => by rwa [List.mem_singleton.1 hc]

theorem cons {b : UInt8} {t : Bytes} (h : 0x20 ≤ b) (ht : Visible t) : Visible (b :: t) :=
  (single h).append ht

theorem of_ge {t : Bytes} {n : UInt8} (hn : 0x20 ≤ n) (h : ∀ b ∈ t, n ≤ b) : Visible t := fun b hb =>
  UInt8.le_trans hn (h b hb)

theorem ne_newline {t : Bytes} (h : Visible t) : 0x0A ∉ t := fun hmem => absurd (h _ hmem) (by decide)

end Visible

theorem visible_digits {s : Bytes} (h : ∀ b ∈ s, isDigit b = true) : Visible s := by
  refine .of_ge (n := 0x30) (by decide) fun b hb => ?_
  exact UInt8.le_iff_toNat_le.2 (isDigit_iff.1 (h b hb)).1

theorem isNamePart_of_isName {x : Bytes} (h : isName x = true) : ∀ b ∈ x, isNamePart b = true := by
  cases x with
  | nil => cases h
  | cons b bs =>
    obtain ⟨hb, hbs⟩ := Bool.and_eq_true_iff.1 h
    exact List.forall_mem_cons.2 ⟨by rw [isNamePart, hb, Bool.true_or], List.all_eq_true.1 hbs⟩

theorem visible_name {x : Bytes} (h : isName x = true) : Visible x := by
  refine .of_ge (n := 0x30) (by decide) fun b hb => ?_
  have hpart := isNamePart_of_isName h b hb
  rw [isNamePart, Bool.or_eq_true, isNameStart_iff, isDigit_iff] at hpart
  rw [UInt8.le_iff_toNat_le]
  simp only [UInt8.reduceToNat]
  omega

theorem visible_hex (w n : Nat) : Visible (hex w n) := by
  have hdigit : ∀ k < 16, 0x20 ≤ hexDigit k := by decide
  intro b hb
  obtain ⟨k, hk, rfl⟩ := Quoted.mem_hex hb
  exact hdigit k hk

theorem visible_quoteChar (c : Char) : Visible (Quoted.quoteChar c) := by
  have he : ∀ l w n, 0x20 ≤ l → Visible ([0x5C, l] ++ hex w n) := fun l w n h =>
    (Visible.cons (by decide) (.single h)).append (visible_hex w n)
  apply Quoted.quoteChar_cases
  case special => rintro (rfl | rfl) <;> decide
  case plain =>
    intro _ hp
    by_cases h : c.toNat < 0x80
    · rw [isPrintable, if_pos h, Bool.and_eq_true_iff, decide_eq_true_eq] at hp
      rw [encodeChar_ascii h]
      have e : (UInt8.ofNat c.toNat).toNat = c.toNat := UInt8.toNat_ofNat_of_lt' (show c.toNat < 0x100 by omega)
      exact .single (UInt8.le_iff_toNat_le.2 (by rw [e]; exact hp.1))
    · exact .of_ge (n := 0x80) (by decide) (encodeChar_ge (by omega))
  case letter =>
    intro l hl
    refine .cons (by decide) (.single ?_)
    unfold Quoted.escapeLetter? at hl
    split at hl <;> cases hl <;> decide
  case two => exact fun _ => he 0x78 2 _ (by decide)
  case four => exact fun _ => he 0x75 4 _ (by decide)
  case eight => exact he 0x55 8 _ (by decide)

/-- **A quoted text has no control character**, whatever bytes it quotes. -/
theorem visible_quote (t : Bytes) : Visible (Quoted.quote t) := by
  have hglyph : ∀ g, Visible (Quoted.quoteGlyph g) := by
    intro g
    cases g with
    | char c => exact visible_quoteChar c
    | stray b => exact (show Visible (ascii "\\x") by decide).append (visible_hex 2 b.toNat)
  refine .cons (by decide) (.append (fun b hb => ?_) (by decide))
  obtain ⟨g, -, hb⟩ := List.mem_flatMap.1 hb
  exact hglyph g b hb

theorem visible_decimalInt {n : Int} (h : (0 ≤ n && n < wordBound : Bool) = true) : Visible (decimalInt n) :=
  visible_digits (isNumeral_iff.1 (decimalInt_literal h).1).2

/-- A label has no tab and no line break. -/
theorem visible_label {x : Instr} (hw : x.writable = true) : Visible x.label := by
  cases x with
  | basic b => cases b <;> decide
  | push n | addc n | subc n =>
    rw [Instr.writable] at hw
    exact .append (by decide) (visible_decimalInt hw)
  | get x | set x =>
    rw [Instr.writable] at hw
    exact .append (by decide) (visible_name hw)
  | print t => exact .append (by decide) (visible_quote t)
  | stat body => exact show Visible (ascii "stat") by decide
  | ifThen test body => exact show Visible (ascii "if") by decide
  | foreign type =>
    rw [Instr.writable] at hw
    cases hw

theorem label_ne_nil {x : Instr} (hw : x.writable = true) : x.label ≠ [] := by
  cases x with
  | basic b => cases b <;> decide
  | foreign type =>
    rw [Instr.writable] at hw
    cases hw
  | _ => simp [Instr.label, ascii]

/-! ## Labels tell instructions apart -/

/-- The label of a simple instruction is a program with this instruction. -/
theorem parse_label {x : Instr} (hx : x.isSimple = true) (hw : x.writable = true) :
    parse x.label = .ok ⟨[], [x]⟩ := by
  have hp : Program.writable ⟨[], [x]⟩ = true := by simp [Program.writable, writableList, hw]
  have h := parse_render hp
  rwa [Program.render, declarationWords, wordsList, wordsList, words_simple hx] at h

/-- The word of a block alone is no program, so it is no such label. -/
theorem label_ne_block {x : Instr} (hx : x.isSimple = true) (hw : x.writable = true) :
    x.label ≠ ascii "stat" ∧ x.label ≠ ascii "if" := by
  have hne : ∀ word, (parse word).isOk = false → x.label ≠ word := by
    rintro word hword rfl
    rw [parse_label hx hw] at hword
    cases hword
  exact ⟨hne _ (by decide +kernel), hne _ (by decide +kernel)⟩

theorem isSimple_of_label {x : Instr} (hstat : x.label ≠ ascii "stat") (hif : x.label ≠ ascii "if") :
    x.isSimple = true := by
  cases x with
  | stat body => exact absurd rfl hstat
  | ifThen test body => exact absurd rfl hif
  | _ => rfl

/-- **An instruction without blocks is known from its label.** -/
theorem eq_of_label {x y : Instr} (hs : x.isSimple = true) (hx : x.writable = true) (hy : y.writable = true)
    (h : x.label = y.label) : x = y := by
  obtain ⟨hstat, hif⟩ := label_ne_block hs hx
  have hparse := parse_label hs hx
  rw [h] at hstat hif hparse
  rw [parse_label (isSimple_of_label hstat hif) hy] at hparse
  cases hparse
  rfl

theorem eq_stat_of_label {x : Instr} (hw : x.writable = true) (h : x.label = ascii "stat") :
    ∃ body, x = .stat body := by
  cases x with
  | stat body => exact ⟨body, rfl⟩
  | ifThen test body => exact absurd h (show ascii "if" ≠ ascii "stat" by decide)
  | _ => exact absurd h (label_ne_block rfl hw).1

theorem eq_ifThen_of_label {x : Instr} (hw : x.writable = true) (h : x.label = ascii "if") :
    ∃ test body, x = .ifThen test body := by
  cases x with
  | stat body => exact absurd h (show ascii "stat" ≠ ascii "if" by decide)
  | ifThen test body => exact ⟨test, body, rfl⟩
  | _ => exact absurd h (label_ne_block rfl hw).2

/-! ## Lines -/

/-- Texts up to the first byte of a kind are known. -/
theorem append_cons_inj {a : UInt8} {t u r r' : Bytes} (ht : a ∉ t) (hu : a ∉ u)
    (h : t ++ a :: r = u ++ a :: r') : t = u ∧ r = r' := by
  induction t generalizing u with
  | nil =>
    cases u with
    | nil => exact ⟨rfl, (List.cons.inj h).2⟩
    | cons b u =>
      have hb := (List.cons.inj h).1
      exact absurd (hb ▸ List.mem_cons_self) hu
  | cons b t ih =>
    cases u with
    | nil =>
      have hb := (List.cons.inj h).1
      exact absurd (hb ▸ List.mem_cons_self) ht
    | cons c u =>
      rw [List.cons_append, List.cons_append, List.cons.injEq] at h
      obtain ⟨rfl, h⟩ := h
      obtain ⟨rfl, rfl⟩ := ih (fun hmem => ht (List.mem_cons_of_mem _ hmem))
        (fun hmem => hu (List.mem_cons_of_mem _ hmem)) h
      exact ⟨rfl, rfl⟩

/-- The lines of an instruction after its first one. -/
def Instr.inside (level : Nat) : Instr → Bytes
  | .stat body => outlineList (level + 1) body
  | .ifThen test body => outlineList (level + 1) test ++
      (List.replicate level 0x09 ++ (ascii "then\n" ++ outlineList (level + 1) body))
  | _ => []

theorem outline_eq (x : Instr) (level : Nat) :
    x.outline level = List.replicate level 0x09 ++ (x.label ++ 0x0A :: x.inside level) := by
  cases x with
  | stat body =>
    rw [Instr.outline, List.append_assoc]
    rfl
  | ifThen test body =>
    rw [Instr.outline]
    simp only [List.append_assoc]
    rfl
  | _ =>
    rw [Instr.outline, List.append_assoc]
    · rfl
    all_goals exact nofun

/-- The text is at its end, or its first line has fewer than `level` tabs. -/
def Shallow (level : Nat) (r : Bytes) : Prop := r ≠ [] → runLength (· == 0x09) r < level

theorem Shallow.nil (level : Nat) : Shallow level [] := fun h => absurd rfl h

theorem Shallow.mono {level level' : Nat} {r : Bytes} (h : Shallow level r) (hle : level ≤ level') :
    Shallow level' r := fun hr => Nat.lt_of_lt_of_le (h hr) hle

theorem tabs_line {b : UInt8} (hb : 0x20 ≤ b) (level : Nat) (r : Bytes) :
    runLength (· == 0x09) (List.replicate level 0x09 ++ b :: r) = level := by
  rw [runLength_append, List.length_replicate]
  · simp
  · intro c hc
    cases hc
    exact beq_eq_false_iff_ne.2 fun e => absurd hb (by rw [e]; decide)

/-- An instruction starts with exactly the tabs of its level. -/
theorem tabs_outline {x : Instr} (hw : x.writable = true) (level : Nat) (r : Bytes) :
    runLength (· == 0x09) (x.outline level ++ r) = level := by
  cases hl : x.label with
  | nil => exact absurd hl (label_ne_nil hw)
  | cons b bs =>
    have hb : 0x20 ≤ b := visible_label hw b (by rw [hl]; exact List.mem_cons_self)
    rw [outline_eq, hl, List.append_assoc]
    exact tabs_line hb level _

theorem not_shallow_outline {x : Instr} (hw : x.writable = true) (level : Nat) (r : Bytes) :
    ¬ Shallow level (x.outline level ++ r) := by
  intro h
  have hne : x.outline level ++ r ≠ [] := by simp [outline_eq]
  exact absurd (h hne) (by rw [tabs_outline hw]; exact Nat.lt_irrefl level)

/-- A list of instructions goes on at its own level, or it is over. -/
theorem Shallow.outlineList {xs : List Instr} (hw : writableList xs = true) {level : Nat} {r : Bytes}
    (hr : Shallow level r) : Shallow (level + 1) (outlineList level xs ++ r) := by
  cases xs with
  | nil => exact hr.mono (Nat.le_succ level)
  | cons x rest =>
    rw [writableList, Bool.and_eq_true_iff] at hw
    intro _
    rw [StackTape.outlineList, List.append_assoc, tabs_outline hw.1]
    exact Nat.lt_succ_self level

theorem shallow_then (level : Nat) (r : Bytes) :
    Shallow (level + 1) (List.replicate level 0x09 ++ (ascii "then\n" ++ r)) := by
  intro _
  have h := tabs_line (b := 0x74) (by decide) level (ascii "hen\n" ++ r)
  exact Nat.lt_succ_of_le (Nat.le_of_eq h)

/-! ## Reading an outline back -/

/-- The first line tells the label. -/
theorem line_inj {x y : Instr} (hx : x.writable = true) (hy : y.writable = true) {level : Nat} {r r' : Bytes}
    (h : x.outline level ++ r = y.outline level ++ r') :
    x.label = y.label ∧ x.inside level ++ r = y.inside level ++ r' := by
  simp only [outline_eq, List.append_assoc, List.append_cancel_left_eq] at h
  exact append_cons_inj (visible_label hx).ne_newline (visible_label hy).ne_newline h

/-- **An instruction is known from its lines**, and a list of them from what stands at its level. -/
theorem outline_append_inj :
    (∀ x : Instr, x.writable = true → ∀ y : Instr, y.writable = true → ∀ level r r', Shallow (level + 1) r →
      Shallow (level + 1) r' → x.outline level ++ r = y.outline level ++ r' → x = y ∧ r = r') ∧
    ∀ xs : List Instr, writableList xs = true → ∀ ys : List Instr, writableList ys = true → ∀ level r r',
      Shallow level r → Shallow level r' → outlineList level xs ++ r = outlineList level ys ++ r' →
        xs = ys ∧ r = r' := by
  apply Instr.induct
  case simple =>
    intro x hs hx y hy level r r' _ _ h
    obtain ⟨hlabel, hinside⟩ := line_inj hx hy h
    obtain rfl := eq_of_label hs hx hy hlabel
    exact ⟨rfl, List.append_cancel_left hinside⟩
  case stat =>
    intro body ih hx y hy level r r' hr hr' h
    obtain ⟨hlabel, hinside⟩ := line_inj hx hy h
    obtain ⟨body', rfl⟩ := eq_stat_of_label hy hlabel.symm
    rw [Instr.writable] at hx hy
    obtain ⟨rfl, hrest⟩ := ih hx body' hy (level + 1) r r' hr hr' hinside
    exact ⟨rfl, hrest⟩
  case ifThen =>
    intro test body ihTest ihBody hx y hy level r r' hr hr' h
    obtain ⟨hlabel, hinside⟩ := line_inj hx hy h
    obtain ⟨test', body', rfl⟩ := eq_ifThen_of_label hy hlabel.symm
    rw [Instr.writable, Bool.and_eq_true_iff] at hx hy
    simp only [Instr.inside, List.append_assoc] at hinside
    -- the test ends at the line `then`, which is one tab short of it
    obtain ⟨rfl, hthen⟩ := ihTest hx.1 test' hy.1 (level + 1) _ _ (shallow_then level _) (shallow_then level _) hinside
    have hbody := List.append_cancel_left (List.append_cancel_left hthen)
    obtain ⟨rfl, hrest⟩ := ihBody hx.2 body' hy.2 (level + 1) r r' hr hr' hbody
    exact ⟨rfl, hrest⟩
  case nil =>
    intro _ ys hy level r r' hr hr' h
    cases ys with
    | nil => exact ⟨rfl, h⟩
    | cons y ys =>
      rw [writableList, Bool.and_eq_true_iff] at hy
      rw [outlineList, outlineList, List.append_assoc, List.nil_append] at h
      rw [h] at hr
      exact absurd hr (not_shallow_outline hy.1 level _)
  case cons =>
    intro x rest ihx ih hx ys hy level r r' hr hr' h
    rw [writableList, Bool.and_eq_true_iff] at hx
    cases ys with
    | nil =>
      rw [outlineList, outlineList, List.append_assoc, List.nil_append] at h
      rw [← h] at hr'
      exact absurd hr' (not_shallow_outline hx.1 level _)
    | cons y ys =>
      rw [writableList, Bool.and_eq_true_iff] at hy
      rw [outlineList, outlineList, List.append_assoc, List.append_assoc] at h
      obtain ⟨rfl, hrest⟩ := ihx hx.1 y hy.1 level _ _ (hr.outlineList hx.2) (hr'.outlineList hy.2) h
      obtain ⟨rfl, rfl⟩ := ih hx.2 ys hy.2 level r r' hr hr' hrest
      exact ⟨rfl, rfl⟩

/-! ## Declarations -/

/-- Names with blanks between them are known from the text. -/
theorem joinWith_inj {xs ys : List Bytes} (hx : xs.all isName = true) (hy : ys.all isName = true)
    (h : joinWith (ascii " ") xs = joinWith (ascii " ") ys) : xs = ys := by
  have hxs := (spells_names hx).joined.reads
  rw [h] at hxs
  have hmap := hxs.unique (spells_names hy).joined.reads
  exact List.map_inj_right (fun _ _ e => (Lexeme.mk.inj e).2) |>.1 hmap

theorem mem_joinWith {sep : Bytes} {xs : List Bytes} {b : UInt8} (h : b ∈ joinWith sep xs) :
    b ∈ sep ∨ ∃ x ∈ xs, b ∈ x := by
  fun_induction joinWith sep xs with
  | case1 => cases h
  | case2 x => exact .inr ⟨x, List.mem_singleton_self x, h⟩
  | case3 x y rest ih =>
    rw [List.mem_append, List.mem_append] at h
    rcases h with (h | h) | h
    · exact .inr ⟨x, List.mem_cons_self, h⟩
    · exact .inl h
    · rcases ih h with h | ⟨z, hz, h⟩
      · exact .inl h
      · exact .inr ⟨z, List.mem_cons_of_mem x hz, h⟩

/-- No name holds the bracket behind the names. -/
theorem bracket_not_mem {xs : List Bytes} (h : xs.all isName = true) : 0x5D ∉ joinWith (ascii " ") xs := by
  intro hmem
  rcases mem_joinWith hmem with hsep | ⟨x, hx, hb⟩
  · exact absurd hsep (by decide)
  · exact absurd (isNamePart_of_isName (List.all_eq_true.1 h x hx) _ hb) (by decide)

/-! ## Programs -/

/-- **The outline of a program that can be written is known by no other such program.** -/
theorem outline_inj {p q : Program} (hp : p.writable = true) (hq : q.writable = true) (h : p.outline = q.outline) :
    p = q := by
  obtain ⟨vars, body⟩ := p
  obtain ⟨vars', body'⟩ := q
  obtain ⟨hvars, hbody⟩ := Bool.and_eq_true_iff.1 hp
  obtain ⟨hvars', hbody'⟩ := Bool.and_eq_true_iff.1 hq
  have hsplit : ∀ xs : List Bytes, ∀ is, Program.outline ⟨xs, is⟩ =
      ascii "vars: [" ++ (joinWith (ascii " ") xs ++ 0x5D :: (0x0A :: outlineList 0 is)) := by
    intro xs is
    rw [Program.outline, List.append_assoc, List.append_assoc]
    rfl
  rw [hsplit, hsplit] at h
  obtain ⟨hnames, hlines⟩ :=
    append_cons_inj (bracket_not_mem hvars) (bracket_not_mem hvars') (List.append_cancel_left h)
  obtain rfl := joinWith_inj hvars hvars' hnames
  have hlists := (List.cons.inj hlines).2
  rw [← List.append_nil (outlineList 0 body), ← List.append_nil (outlineList 0 body')] at hlists
  obtain ⟨rfl, -⟩ := outline_append_inj.2 body hbody body' hbody' 0 [] [] (.nil 0) (.nil 0) hlists
  rfl

/-- **The tree that is shown for a file is that of one program only.** Two texts that are read as programs have the
same outline, byte for byte, exactly when they are the same program. -/
theorem outlineFile_eq_iff {text text' : Bytes} {p q : Program} (hp : parse text = .ok p) (hq : parse text' = .ok q)
    (name name' : Bytes) :
    Cli.outlineFile name (.ok text) = Cli.outlineFile name' (.ok text') ↔ p = q := by
  have hshown : ∀ {text p}, parse text = .ok p → ∀ name, Cli.outlineFile name (.ok text) = .ok p.outline := by
    intro text p h name
    rw [Cli.outlineFile, load, h]
  rw [hshown hp, hshown hq, Except.ok.injEq]
  constructor
  · exact outline_inj (writable_of_parse hp) (writable_of_parse hq)
  · rintro rfl
    rfl

/-- A block after a conditional and one in it: the outlines differ by a tab. -/
theorem outlineFile_eq_iff_nested :
    Cli.outlineFile (ascii "a") (.ok (ascii "let stat;if\x7b\x7dthen\x7b\x7dstat\x7bget stat\x7d")) ≠
      Cli.outlineFile (ascii "b") (.ok (ascii "let stat;if\x7b\x7dthen\x7bstat\x7bget stat\x7d\x7d")) := by
  have hp : parse (ascii "let stat;if\x7b\x7dthen\x7b\x7dstat\x7bget stat\x7d") =
      .ok ⟨[ascii "stat"], [.ifThen [] [], .stat [.get (ascii "stat")]]⟩ :=
    parse_eq_ok_iff.2 ⟨⟨some [ascii "stat"], [.ifThen [] [], .stat [.get (ascii "stat")]]⟩, by decide +kernel, rfl⟩
  have hq : parse (ascii "let stat;if\x7b\x7dthen\x7bstat\x7bget stat\x7d\x7d") =
      .ok ⟨[ascii "stat"], [.ifThen [] [.stat [.get (ascii "stat")]]]⟩ :=
    parse_eq_ok_iff.2 ⟨⟨some [ascii "stat"], [.ifThen [] [.stat [.get (ascii "stat")]]]⟩, by decide +kernel, rfl⟩
  rw [ne_eq, outlineFile_eq_iff hp hq]
  exact nofun

end StackTape

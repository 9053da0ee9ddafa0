import StackTape.Proofs.Lowering

/-!
# Layout never changes the code

The layout of a listing is free: whatever the options are, stripping the listing of its comments gives
the bare code, and the same programs are refused for the same reasons. The only condition is that the
listing can be laid out at all, that is, that no indent is negative or too long (`Options.Fits`).

Listings nest: the listing of a block holds those of its parts, with a comment on either side. So the
statement is carried through an induction over the program (`bare_instr_list`), which rests on one fact
about single lines (`bare_emit`).
-/

namespace StackTape

mutual

/-- The number of nesting levels with lines inside an instruction. -/
def Instr.innerLevels : Instr → Nat
  | .stat body => listLevels body
  | .ifThen test body => max (listLevels test) (listLevels body)
  | _ => 0

/-- The number of nesting levels with lines in a list of instructions; an empty list has none. -/
def listLevels : List Instr → Nat
  | [] => 0
  | x :: rest => max (x.innerLevels + 1) (listLevels rest)

end

/-- The indent of every line of a listing of the body is a word that is not negative. -/
def Options.Fits (o : Options) (body : List Instr) : Prop :=
  o.comments = true → 0 ≤ o.indent ∧ ∀ level < listLevels body, level * o.indent < wordBound

instance (o : Options) (body : List Instr) : Decidable (o.Fits body) :=
  inferInstanceAs (Decidable (o.comments = true →
    0 ≤ o.indent ∧ ∀ level < listLevels body, level * o.indent < wordBound))

namespace Listing

/-- Every label can be laid out at the nesting level. -/
def Lays (o : Options) (level : Nat) : Prop := ∀ label, ∃ m, mark o level label = .ok m

theorem spaces_ok {n : Int} (h₀ : 0 ≤ n) (h₁ : n < wordBound) : ∃ t, spaces n = .ok t := by
  unfold spaces repeated
  rw [if_neg (by omega)]
  split
  · exact ⟨_, rfl⟩
  · rw [if_neg (by simp; omega)]
    exact ⟨_, rfl⟩

/-- The padding of a label never overflows, as it is a word that is cut off at zero. -/
theorem padding_lt (n : Int) : max 0 (wrap64 n) < wordBound := by
  have h := wrap64_lt n
  have hpos : 0 < wordBound := by decide
  omega

theorem lays_of_indent {o : Options} {level : Nat} (h₀ : 0 ≤ level * o.indent) (h₁ : level * o.indent < wordBound) :
    Lays o level := by
  intro label
  unfold mark comment
  split
  · rw [wrap64_eq_self (by simp only [wordBound]; omega) h₁]
    obtain ⟨before, hb⟩ := spaces_ok h₀ h₁
    obtain ⟨after, ha⟩ := spaces_ok (Int.le_max_left 0 _)
      (padding_lt (o.labelWidth - level * o.indent - (sanitize label).length))
    simp only [hb, ha, bind, Except.bind]
    exact ⟨_, rfl⟩
  · exact ⟨_, rfl⟩

/-- Outside all blocks every label can be laid out, whatever the options are. -/
theorem lays_zero (o : Options) : Lays o 0 := lays_of_indent (by simp) (by simp [wordBound])

variable {o : Options}

theorem mark_bare (ho : o.comments = false) (level : Int) (label : Bytes) : mark o level label = .ok [] := by
  simp [mark, ho, pure, Except.pure]

theorem lays_of_fits {body : List Instr} (h : o.Fits body) {level : Nat} (hl : level = 0 ∨ level < listLevels body) :
    Lays o level := by
  cases ho : o.comments with
  | false => exact fun label => ⟨[], mark_bare ho level label⟩
  | true =>
    obtain ⟨h₀, h₁⟩ := h ho
    rcases hl with rfl | hl
    · exact lays_zero o
    · exact lays_of_indent (Int.mul_nonneg (by omega) h₀) (h₁ level hl)

theorem lineBreak_bare (ho : o.comments = false) : lineBreak o = [] := by
  simp [lineBreak, ho]

theorem depthNote_bare (ho : o.comments = false) (depth : Nat) : depthNote o depth = [] := by
  simp [depthNote, ho]

end Listing

namespace Compile

open Listing

/-- The outcome of a compilation without the comments in its code. -/
def bare (r : Output) : Output := r.map fun p => (strip p.1, p.2)

theorem bare_ok (r : Bytes × Nat) : bare (.ok r) = .ok (strip r.1, r.2) := rfl

variable {o o' : Options} {vars : List Bytes} {level : Nat}

/-! ## Single lines -/

/-- A line with comments strips to the line without. -/
theorem bare_emit (ho : o'.comments = false) (hlay : Lays o level) (depth : Nat) (label code : Bytes)
    (δ : Int) : bare (emit o level depth label code δ) = emit o' level depth label (strip code) δ := by
  rw [emit_eq, emit_eq]
  split
  · rfl
  · obtain ⟨m, hm⟩ := hlay label
    simp only [hm, mark_bare ho, depthNote_bare ho, bare_ok, strip_append, (silent_mark hm).strip,
      (silent_depthNote o _).strip, List.nil_append, List.append_nil]

theorem bare_emit_block (ho : o'.comments = false) (hlay : Lays o level) (depth : Nat) (label : Bytes)
    (b : Block) (δ : Int) : bare (emit o level depth label b.text δ) = emit o' level depth label b.text δ := by
  rw [bare_emit ho hlay, Block.strip_text]

theorem bare_emitConstant (ho : o'.comments = false) (hlay : Lays o level) (depth : Nat) (label : Bytes)
    (n : Int) (b : Block) (δ : Int) :
    bare (emitConstant o level depth label n b δ) = emitConstant o' level depth label n b δ := by
  unfold emitConstant
  split
  · rfl
  · exact bare_emit_block ho hlay ..

theorem bare_emitAccess (ho : o'.comments = false) (hlay : Lays o level) (depth : Nat) (label name : Bytes)
    (least : Nat) (code : Nat → Block) (δ : Int) :
    bare (emitAccess ⟨o, vars⟩ level depth label name least code δ) =
      emitAccess ⟨o', vars⟩ level depth label name least code δ := by
  unfold emitAccess
  simp only
  split
  · rfl
  · split
    · rfl
    · exact bare_emit_block ho hlay ..

theorem bare_instr_simple (ho : o'.comments = false) (hlay : Lays o level) (depth : Nat) {x : Instr}
    (hx : x.isSimple = true) : bare (instr ⟨o, vars⟩ level depth x) = instr ⟨o', vars⟩ level depth x := by
  cases x with
  | basic b =>
    rw [instr, instr]
    exact bare_emit_block ho hlay ..
  | print t =>
    rw [instr, instr]
    exact bare_emit_block ho hlay ..
  | push n | addc n | subc n =>
    rw [instr, instr]
    exact bare_emitConstant ho hlay ..
  | get x | set x =>
    rw [instr, instr]
    exact bare_emitAccess ho hlay ..
  | foreign type =>
    rw [instr, instr]
    rfl
  | stat body => cases hx
  | ifThen test body => cases hx

/-! ## Blocks -/

/-- Compiling at all levels that the listing reaches gives the bare code after stripping. -/
theorem bare_instr_list (o : Options) (ho : o'.comments = false) (vars : List Bytes) :
    (∀ x : Instr, ∀ level depth, (∀ l, l ≤ level + x.innerLevels → Lays o l) →
      bare (instr ⟨o, vars⟩ level depth x) = instr ⟨o', vars⟩ level depth x) ∧
    ∀ xs : List Instr, ∀ level depth index, (∀ l, l < level + listLevels xs → Lays o l) →
      bare (list ⟨o, vars⟩ level depth index xs) = list ⟨o', vars⟩ level depth index xs := by
  apply Instr.induct
  case simple =>
    intro x hx level depth hlay
    exact bare_instr_simple ho (hlay level (by omega)) depth hx
  case stat =>
    intro body ih level depth hlay
    simp only [Instr.innerLevels] at hlay
    rw [instr_stat, instr_stat, ← ih (level + 1) depth 0 fun l hl => hlay l (by omega)]
    cases list ⟨o, vars⟩ (level + 1) depth 0 body with
    | error e => rfl
    | ok r =>
      simp only [bare_ok]
      split
      · rfl
      · obtain ⟨stop, hs⟩ := hlay level (by omega) (ascii "end stat")
        have h := bare_emit ho (hlay level (by omega)) depth (ascii "stat") (lineBreak o ++ r.1 ++ stop) 0
        simp only [strip_append, (silent_lineBreak o).strip, (silent_mark hs).strip] at h
        simpa only [hs, mark_bare ho, lineBreak_bare ho] using h
  case ifThen =>
    intro test body ihTest ihBody level depth hlay
    simp only [Instr.innerLevels] at hlay
    rw [instr_ifThen, instr_ifThen, ← ihTest (level + 1) depth 0 fun l hl => hlay l (by omega)]
    cases list ⟨o, vars⟩ (level + 1) depth 0 test with
    | error e => rfl
    | ok r =>
      simp only [bare_ok]
      split
      · rfl
      · rw [← ihBody (level + 1) r.2 0 fun l hl => hlay l (by omega)]
        cases list ⟨o, vars⟩ (level + 1) r.2 0 body with
        | error e => rfl
        | ok q =>
          simp only [bare_ok]
          split
          · rfl
          · obtain ⟨middle, hm⟩ := hlay level (by omega) (ascii "then")
            obtain ⟨stop, hs⟩ := hlay level (by omega) (ascii "end if")
            have h := bare_emit ho (hlay level (by omega)) depth (ascii "if")
              (lineBreak o ++ r.1 ++ middle ++ [Symbol.enter.byte] ++ lineBreak o ++ q.1 ++ stop ++
                Fragment.clear.text ++ [Symbol.leave.byte] ++ (Fragment.left 1).text) 0
            simp only [strip_append, (silent_lineBreak o).strip, (silent_mark hm).strip, (silent_mark hs).strip,
              strip_symbol, Block.strip_text] at h
            simpa only [hm, hs, mark_bare ho, lineBreak_bare ho] using h
  case nil =>
    intro level depth index _
    rw [list, list]
    rfl
  case cons =>
    intro x rest ihx ih level depth index hlay
    simp only [listLevels] at hlay
    rw [list_cons, list_cons, ← ihx level depth fun l hl => hlay l (by omega)]
    cases instr ⟨o, vars⟩ level depth x with
    | error e => rfl
    | ok r =>
      simp only [bare_ok]
      rw [← ih level r.2 (index + 1) fun l hl => hlay l (by omega)]
      cases list ⟨o, vars⟩ level r.2 (index + 1) rest with
      | error e => rfl
      | ok q => simp only [bare_ok, strip_append]

/-! ## Programs -/

theorem bare_declare (ho : o'.comments = false) (hlay : Lays o 0) (seen vars : List Bytes) :
    (declare o seen vars).map strip = declare o' seen vars := by
  induction vars generalizing seen with
  | nil => rfl
  | cons x rest ih =>
    rw [declare_cons, declare_cons, ← bare_emit_block ho hlay, ← ih]
    split
    · rfl
    · cases emit o 0 seen.length (ascii "let " ++ x) (Fragment.right 1).text 1 with
      | error e => rfl
      | ok r =>
        cases declare o (x :: seen) rest with
        | error e => rfl
        | ok more => simp only [bare_ok, Except.map, strip_append]

/-- **The listing of a scope strips to its bare code**, and errors are the same. -/
theorem bare_scope {body : List Instr} (ho : o'.comments = false) (hfit : o.Fits body) (vars : List Bytes) :
    bare (scope o vars body) = scope o' vars body := by
  rw [scope_eq, scope_eq, ← bare_declare ho (lays_of_fits hfit (.inl rfl)),
    ← (bare_instr_list o ho vars).2 body 0 vars.length 0 fun l hl => lays_of_fits hfit (.inr (by omega))]
  cases declare o [] vars with
  | error e => rfl
  | ok declared =>
    cases list ⟨o, vars⟩ 0 vars.length 0 body with
    | error e => rfl
    | ok r =>
      simp only [bare_ok, Except.map, strip_append, (silent_lineBreak o).strip, lineBreak_bare ho]

/-- **Options never change the code or the verdict.** With options that fit, exactly the programs compile
that compile bare, to the same code behind the comments; all others have the same error. Without
comments there is nothing but symbols in the code. Names and texts may hold any bytes. -/
theorem options_keep_code (o : Options) (vars : List Bytes) (body : List Instr) (hfit : o.Fits body) :
    (∀ code depth, scope .plain vars body = .ok (code, depth) ↔
      ∃ listing, scope o vars body = .ok (listing, depth) ∧ strip listing = code) ∧
    (∀ e, scope .plain vars body = .error e ↔ scope o vars body = .error e) ∧
    (o.comments = false → ∀ code depth, scope o vars body = .ok (code, depth) →
      ∀ b ∈ code, isPrimitive b = true) := by
  refine ⟨fun code depth => ?_, fun e => ?_, fun ho code depth hcode => ?_⟩
  · rw [← bare_scope rfl hfit]
    cases scope o vars body with
    | error e => simp [bare, Except.map]
    | ok r =>
      simp only [bare_ok, Except.ok.injEq, Prod.mk.injEq]
      constructor
      · rintro ⟨rfl, rfl⟩
        exact ⟨r.1, rfl, rfl⟩
      · rintro ⟨listing, rfl, rfl⟩
        exact ⟨rfl, rfl⟩
  · rw [← bare_scope rfl hfit]
    cases scope o vars body <;> simp [bare, Except.map]
  · -- such a listing is already what it strips to
    have h := bare_scope ho hfit vars
    rw [hcode, bare_ok] at h
    have hstrip : strip code = code := (Prod.mk.inj (Except.ok.inj h)).1
    exact List.filter_eq_self.1 hstrip

theorem options_keep_code_awkward_names :
    ∃ listing, scope .standard [ascii "+*/%\n", [0xFF, 0x5D]]
        [.ifThen [.get [0xFF, 0x5D]] [.stat [.basic .inc, .print [0x03]]]] = .ok (listing, 2) ∧
      strip listing = ascii ">>>[-]<<[>>+>+<<<-]>>>[<<<+>>>-]<[+>+++.[-]<[-]]<" :=
  ((options_keep_code .standard _ _ (by decide)).1 _ _).1 rfl

end Compile

end StackTape

import StackTape.Proofs.Grammar

/-!
# How written words are read

A word spells lexemes (`Spells`) when it is read as them in front of every text that does not continue it: the
end, a blank or a punctuation mark. Names, numbers, quoted texts and marks spell themselves; words that spell
something can be put side by side with a blank between them (`Spells.blank`, `SpellsAll.joined`).
-/

namespace StackTape.Source

/-- The text is cut into lexemes, those that count being `ls`. -/
def Reads (s : Bytes) (ls : List Lexeme) : Prop :=
  ∃ all, Lexes s all ∧ all.filter Lexeme.isSignificant = ls

/-- No word goes on at the front of the text. -/
def Apart (s : Bytes) : Prop := ∀ b ∈ s.head?, isNamePart b = false

/-- The word is read as the lexemes in front of every text apart from it. -/
def Spells (w : Bytes) (ls : List Lexeme) : Prop :=
  ∀ rest more, Apart rest → Reads rest more → Reads (w ++ rest) (ls ++ more)

theorem Reads.nil : Reads [] [] := ⟨[], .nil, rfl⟩

/-- One lexeme in front. -/
theorem Reads.cons {b : UInt8} {bs rest : Bytes} {kind : Kind} {ls : List Lexeme}
    (h : lexeme? b (bs ++ rest) = some (kind, bs.length)) (hk : Lexeme.isSignificant ⟨kind, b :: bs⟩ = true)
    (hrest : Reads rest ls) : Reads (b :: (bs ++ rest)) (⟨kind, b :: bs⟩ :: ls) := by
  obtain ⟨all, hall, rfl⟩ := hrest
  refine ⟨⟨kind, b :: bs⟩ :: all, ?_, ?_⟩
  · rw [lexes_cons_iff]
    exact ⟨kind, bs.length, all, h, by rw [List.take_left], by rwa [List.drop_left]⟩
  · rw [List.filter_cons_of_pos hk]

theorem filter_blank (text : Bytes) (ls : List Lexeme) :
    (⟨.blank, text⟩ :: ls).filter Lexeme.isSignificant = ls.filter Lexeme.isSignificant :=
  List.filter_cons_of_neg (by simp [Lexeme.isSignificant])

/-- A blank in front changes nothing: it joins the blanks after it, if there are any. -/
theorem Reads.blank {b : UInt8} {s : Bytes} {ls : List Lexeme} (hb : isBlank b = true) (h : Reads s ls) :
    Reads (b :: s) ls := by
  have hlex : ∀ {c}, isBlank c = true → ∀ t, lexeme? c t = some (.blank, runLength isBlank t) := by
    intro c hc t
    rw [lexeme?, if_pos hc]
  obtain ⟨all, hall, rfl⟩ := h
  by_cases hjoin : ∃ c cs, s = c :: cs ∧ isBlank c = true
  · obtain ⟨c, cs, rfl, hc⟩ := hjoin
    obtain ⟨kind, n, tail, hl, rfl, htail⟩ := lexes_cons_iff.1 hall
    rw [hlex hc] at hl
    cases hl
    refine ⟨_, lexes_cons_iff.2 ⟨.blank, runLength isBlank (c :: cs), tail, hlex hb _, rfl, ?_⟩, ?_⟩
    · rw [runLength, List.takeWhile_cons_of_pos hc]
      exact htail
    · rw [filter_blank, filter_blank]
  · have hzero : runLength isBlank s = 0 := by
      cases s with
      | nil => rfl
      | cons c cs =>
        have : isBlank c ≠ true := fun h => hjoin ⟨c, cs, rfl, h⟩
        rw [runLength, List.takeWhile_cons_of_neg this, List.length_nil]
    refine ⟨_, lexes_cons_iff.2 ⟨.blank, runLength isBlank s, all, hlex hb _, rfl, ?_⟩, ?_⟩
    · rw [hzero]
      exact hall
    · rw [filter_blank]

theorem Reads.unique {s : Bytes} {ls ls' : List Lexeme} (h : Reads s ls) (h' : Reads s ls') : ls = ls' := by
  obtain ⟨all, hall, rfl⟩ := h
  obtain ⟨all', hall', rfl⟩ := h'
  rw [hall.unique hall']

/-! ## Words of each kind -/

theorem runLength_append {q : UInt8 → Bool} {s rest : Bytes} (hs : s.all q = true)
    (hrest : ∀ b ∈ rest.head?, q b = false) : runLength q (s ++ rest) = s.length := by
  rw [runLength, List.takeWhile_append_of_pos (List.all_eq_true.1 hs)]
  cases rest with
  | nil => simp
  | cons b bs => simp [hrest b rfl]

theorem ne_of_toNat {b c : UInt8} (h : b.toNat ≠ c.toNat) : b ≠ c := fun e => h (by rw [e])

theorem nameStart_class {b : UInt8} (h : isNameStart b = true) :
    isBlank b = false ∧ b ≠ 0x23 ∧ isDigit b = false ∧ b ≠ 0x22 := by
  rw [isNameStart_iff] at h
  refine ⟨Bool.eq_false_iff.2 ?_, ne_of_toNat ?_, Bool.eq_false_iff.2 ?_, ne_of_toNat ?_⟩
  · rw [ne_eq, isBlank_iff]
    omega
  · simp only [UInt8.reduceToNat]
    omega
  · rw [ne_eq, isDigit_iff]
    omega
  · simp only [UInt8.reduceToNat]
    omega

theorem digit_class {b : UInt8} (h : isDigit b = true) : isBlank b = false ∧ b ≠ 0x23 := by
  rw [isDigit_iff] at h
  refine ⟨Bool.eq_false_iff.2 ?_, ne_of_toNat ?_⟩
  · rw [ne_eq, isBlank_iff]
    omega
  · simp only [UInt8.reduceToNat]
    omega

theorem punct_class {b : UInt8} (h : isPunct b = true) : isBlank b = false ∧ b ≠ 0x23 ∧ isDigit b = false ∧
    b ≠ 0x22 ∧ isNameStart b = false := by
  simp only [isPunct, Bool.or_eq_true, beq_iff_eq, or_assoc] at h
  rcases h with rfl | rfl | rfl <;> decide

theorem spells_name {x : Bytes} (h : isName x = true) : Spells x [⟨.ident, x⟩] := by
  intro rest more hrest hreads
  cases x with
  | nil => cases h
  | cons b bs =>
    obtain ⟨hb, hbs⟩ := Bool.and_eq_true_iff.1 h
    obtain ⟨h₁, h₂, h₃, h₄⟩ := nameStart_class hb
    refine hreads.cons ?_ rfl
    simp [lexeme?, h₁, h₂, h₃, h₄, hb, runLength_append hbs hrest]

theorem spells_numeral {x : Bytes} (h : isNumeral x = true) : Spells x [⟨.int, x⟩] := by
  intro rest more hrest hreads
  cases x with
  | nil => cases h
  | cons b bs =>
    obtain ⟨hb, hbs⟩ : isDigit b = true ∧ bs.all isDigit = true := by simpa [isNumeral] using h
    obtain ⟨h₁, h₂⟩ := digit_class hb
    have hstop : ∀ c ∈ rest.head?, isDigit c = false := fun c hc =>
      (Bool.or_eq_false_iff.1 (hrest c hc)).2
    refine hreads.cons ?_ rfl
    simp [lexeme?, h₁, h₂, hb, runLength_append hbs hstop]

theorem spells_mark {b : UInt8} (h : isPunct b = true) : Spells [b] [mark b] := by
  intro rest more _ hreads
  obtain ⟨h₁, h₂, h₃, h₄, h₅⟩ := punct_class h
  have hlex : lexeme? b ([] ++ rest) = some (.punct, 0) := by simp [lexeme?, h₁, h₂, h₃, h₄, h₅, h]
  exact hreads.cons hlex rfl

/-! ## Quoted texts -/

/-- No quoted text ends inside the bytes. -/
def Inner (u : Bytes) : Prop := ∀ s, stringLength? (u ++ s) = (stringLength? s).map (· + u.length)

namespace Inner

theorem append {u v : Bytes} (hu : Inner u) (hv : Inner v) : Inner (u ++ v) := by
  intro s
  rw [List.append_assoc, hu, hv, Option.map_map]
  congr 1
  funext n
  rw [Function.comp, List.length_append]
  omega

theorem plain {u : Bytes} (h : ∀ x ∈ u, x ≠ 0x22 ∧ x ≠ 0x5C) : Inner u := fun _ => stringLength?_append h

theorem escape {c : UInt8} (h : c ≠ 0x0A) : Inner [0x5C, c] := fun s => stringLength?_escape h s

theorem flatMap {α : Type} {f : α → Bytes} (h : ∀ a, Inner (f a)) (as : List α) : Inner (as.flatMap f) := by
  induction as with
  | nil => exact plain (by simp)
  | cons a as ih =>
    rw [List.flatMap_cons]
    exact (h a).append ih

end Inner

theorem inner_hex (w n : Nat) : Inner (hex w n) := by
  have hdigit : ∀ k < 16, hexDigit k ≠ 0x22 ∧ hexDigit k ≠ 0x5C := by decide
  refine .plain fun x hx => ?_
  obtain ⟨k, hk, rfl⟩ := Quoted.mem_hex hx
  exact hdigit k hk

theorem inner_quoteChar (c : Char) : Inner (Quoted.quoteChar c) := by
  have he : ∀ l w n, l ≠ 0x0A → Inner ([0x5C, l] ++ hex w n) := fun l w n h =>
    (Inner.escape h).append (inner_hex w n)
  apply Quoted.quoteChar_cases
  case special => rintro (rfl | rfl) <;> exact .escape (by decide)
  case plain =>
    intro hq hp
    obtain ⟨hq, hs⟩ := not_or.1 hq
    obtain ⟨b, bs, he⟩ := Utf8.exists_encodeChar c
    have hb := Quoted.encodeChar_plain he hq hs hp
    have hbs : ∀ x ∈ bs, 0x80 ≤ x := by
      have h := Utf8.take_head_ge b bs
      rw [← List.append_nil bs, Utf8.head_encodeChar he, List.append_nil, List.take_length] at h
      exact h
    rw [he]
    exact .plain (List.forall_mem_cons.2 ⟨⟨hb.1, hb.2.1⟩, fun x hx => plain_of_ge (hbs x hx)⟩)
  case letter =>
    intro l hl
    refine .escape fun e => ?_
    have h := Quoted.escape?_escapeLetter hl []
    rw [e] at h
    cases h
  case two => exact fun _ => he 0x78 2 _ (by decide)
  case four => exact fun _ => he 0x75 4 _ (by decide)
  case eight => exact he 0x55 8 _ (by decide)

theorem inner_quoteGlyph (g : Glyph) : Inner (Quoted.quoteGlyph g) := by
  cases g with
  | char c => exact inner_quoteChar c
  | stray b => exact (Inner.escape (c := 0x78) (by decide)).append (inner_hex 2 b.toNat)

theorem spells_quote (s : Bytes) : Spells (Quoted.quote s) [⟨.string, Quoted.quote s⟩] := by
  intro rest more _ hreads
  refine hreads.cons (b := 0x22) ?_ rfl
  have h := Inner.flatMap inner_quoteGlyph (Utf8.decode s) (0x22 :: rest)
  rw [stringLength?_quote] at h
  rw [List.append_assoc, List.singleton_append, List.length_append, List.length_singleton, Nat.add_comm]
  show (stringLength? _).map _ = _
  rw [h]
  rfl

/-! ## Words side by side -/

theorem apart_space (s : Bytes) : Apart (0x20 :: s) := by
  intro b hb
  cases hb
  rfl

theorem Spells.blank {w w' : Bytes} {ls ls' : List Lexeme} (h : Spells w ls) (h' : Spells w' ls') :
    Spells (w ++ 0x20 :: w') (ls ++ ls') := by
  intro rest more hrest hreads
  rw [List.append_assoc, List.append_assoc]
  exact h _ _ (apart_space _) ((h' rest more hrest hreads).blank rfl)

/-- A punctuation mark may follow at once. -/
theorem Spells.mark {w : Bytes} {ls : List Lexeme} {b : UInt8} (h : Spells w ls) (hb : isPunct b = true) :
    Spells (w ++ [b]) (ls ++ [mark b]) := by
  intro rest more hrest hreads
  rw [List.append_assoc, List.append_assoc]
  refine h _ _ ?_ (spells_mark hb rest more hrest hreads)
  intro c hc
  cases hc
  obtain ⟨_, _, hdigit, _, hstart⟩ := punct_class hb
  rw [isNamePart, hstart, hdigit, Bool.or_self]

/-- The words of a list spell the lexemes one after another. -/
inductive SpellsAll : List Bytes → List Lexeme → Prop
  | nil : SpellsAll [] []
  | cons {w : Bytes} {ws : List Bytes} {ls ls' : List Lexeme} : Spells w ls → SpellsAll ws ls' →
    SpellsAll (w :: ws) (ls ++ ls')

namespace SpellsAll

theorem single {w : Bytes} {ls : List Lexeme} (h : Spells w ls) : SpellsAll [w] ls := by
  have := SpellsAll.cons h .nil
  rwa [List.append_nil] at this

theorem append {ws ws' : List Bytes} {ls ls' : List Lexeme} (h : SpellsAll ws ls) (h' : SpellsAll ws' ls') :
    SpellsAll (ws ++ ws') (ls ++ ls') := by
  induction h with
  | nil => exact h'
  | cons hw _ ih =>
    rw [List.append_assoc]
    exact .cons hw ih

theorem joined {ws : List Bytes} {ls : List Lexeme} (h : SpellsAll ws ls) :
    Spells (joinWith (ascii " ") ws) ls := by
  induction h with
  | nil => exact fun _ _ _ hreads => hreads
  | @cons w ws ls ls' hw hws ih =>
    cases ws with
    | nil =>
      cases hws
      rw [List.append_nil]
      exact hw
    | cons w' ws =>
      rw [joinWith, List.append_assoc]
      exact hw.blank ih

end SpellsAll

/-- A word alone is a text. -/
theorem Spells.reads {w : Bytes} {ls : List Lexeme} (h : Spells w ls) : Reads w ls := by
  have := h [] [] (fun _ hb => by cases hb) .nil
  rwa [List.append_nil, List.append_nil] at this

end StackTape.Source

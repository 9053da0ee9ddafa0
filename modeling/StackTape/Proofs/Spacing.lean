import StackTape.Proofs.Parsing
import StackTape.Proofs.Spelling

/-!
# Blanks and comments between tokens

Where a lexeme ends is decided by the byte after it alone (`Kind.continues`), so it is read again in front of every
text that does not continue it (`Lexes.reads_cons`). Blanks or a comment line between two lexemes (`Filler`) start
with a byte that continues no lexeme that counts. A blank or a comment in front of them may take a part of them, or
all, but what it leaves of them are blanks and comments again (`Filler.reads_dropWhile`). So the lexemes that count
stay what they are, and the text is the same program (`parse_insert`).
-/

namespace StackTape.Source

/-! ## Where a lexeme ends -/

/-- A lexeme of the kind goes on over the byte. -/
def Kind.continues : Kind → UInt8 → Bool
  | .blank => isBlank
  | .comment => (· != 0x0A)
  | .int => isDigit
  | .ident => isNamePart
  | .string | .punct => fun _ => false

/-- A lexeme of the kind that has come up to the text ends there. -/
def Kind.Ends (k : Kind) (rest : Bytes) : Prop := ∀ b ∈ rest.head?, k.continues b = false

/-- A lexeme is its first byte with a run of those that continue it, or a quoted text. -/
theorem lexeme?_cases {b : UInt8} {s : Bytes} {kind : Kind} {n : Nat} (h : lexeme? b s = some (kind, n)) :
    (∀ t, lexeme? b t = some (kind, runLength kind.continues t)) ∨
      kind = .string ∧ ∀ t, lexeme? b t = (stringLength? t).map fun n => (.string, n) := by
  unfold lexeme? at h ⊢
  by_cases h₁ : isBlank b = true
  · rw [if_pos h₁] at h
    cases h
    exact .inl fun t => if_pos h₁
  by_cases h₂ : b = 0x23
  · simp only [h₁, if_pos h₂] at h ⊢
    cases h
    exact .inl fun t => rfl
  by_cases h₃ : isDigit b = true
  · simp only [h₁, h₂, h₃] at h ⊢
    cases h
    exact .inl fun t => rfl
  by_cases h₄ : b = 0x22
  · simp only [h₁, h₂, h₃, if_pos h₄] at h ⊢
    obtain ⟨m, -, hm⟩ := Option.map_eq_some_iff.1 h
    cases hm
    exact .inr ⟨rfl, fun t => rfl⟩
  by_cases h₅ : isNameStart b = true
  · simp only [h₁, h₂, h₃, h₄, h₅] at h ⊢
    cases h
    exact .inl fun t => rfl
  by_cases h₆ : isPunct b = true
  · simp only [h₁, h₂, h₃, h₄, h₅, h₆] at h ⊢
    cases h
    exact .inl fun t => by cases t <;> rfl
  · simp [h₁, h₂, h₃, h₄, h₅, h₆] at h

theorem stringLength?_take {s : Bytes} {n : Nat} (h : stringLength? s = some n) (rest : Bytes) :
    stringLength? (s.take n ++ rest) = some (s.take n).length := by
  fun_induction stringLength? s generalizing n with
  | case1 => cases h
  | case2 bs =>
    cases h
    exact stringLength?_quote rest
  | case3 => cases h
  | case4 => cases h
  | case5 c cs hc _ ih =>
    obtain ⟨m, hm, rfl⟩ := Option.map_eq_some_iff.1 h
    rw [List.take_succ_cons, List.take_succ_cons, List.cons_append, List.cons_append, stringLength?_escape hc, ih hm]
    rfl
  | case6 b bs hq hs ih =>
    obtain ⟨m, hm, rfl⟩ := Option.map_eq_some_iff.1 h
    rw [List.take_succ_cons, List.cons_append, stringLength?_plain hq hs, ih hm]
    rfl

/-- A lexeme is found again in front of every text where it ends. -/
theorem lexeme?_take {b : UInt8} {s rest : Bytes} {kind : Kind} {n : Nat} (h : lexeme? b s = some (kind, n))
    (hrest : kind.Ends rest) : lexeme? b (s.take n ++ rest) = some (kind, (s.take n).length) := by
  rcases lexeme?_cases h with hrun | ⟨rfl, hstring⟩
  · rw [hrun] at h
    cases h
    rw [hrun, runLength_append (all_take_runLength _ s) hrest]
  · rw [hstring] at h
    obtain ⟨m, hm, he⟩ := Option.map_eq_some_iff.1 h
    cases he
    rw [hstring, stringLength?_take hm]
    rfl

/-- A lexeme takes all that it can. -/
theorem lexeme?_ends {b : UInt8} {s : Bytes} {kind : Kind} {n : Nat} (h : lexeme? b s = some (kind, n)) :
    kind.Ends (s.drop n) := by
  intro c hc
  rcases lexeme?_cases h with hrun | ⟨rfl, -⟩
  · rw [hrun] at h
    cases h
    rw [← dropWhile_eq_drop] at hc
    have := List.head?_dropWhile_not kind.continues s
    rw [hc] at this
    simpa using this
  · rfl

/-- A lexeme that counts ends where no word goes on. -/
theorem Kind.ends_of_apart {l : Lexeme} {r : Bytes} (hl : l.isSignificant = true) (h : Apart r) : l.kind.Ends r := by
  obtain ⟨kind, text⟩ := l
  intro b hb
  cases kind with
  | blank => cases hl
  | comment => cases hl
  | int => exact (Bool.or_eq_false_iff.1 (h b hb)).2
  | string => rfl
  | ident => exact h b hb
  | punct => rfl

/-! ## One lexeme in front of another text -/

/-- The first lexeme of a text comes from its first byte and ends in front of the rest. -/
theorem Lexes.first {s : Bytes} {l : Lexeme} {ls : List Lexeme} (h : Lexes s (l :: ls)) :
    ∃ b t n, lexeme? b t = some (l.kind, n) ∧ l.text = b :: t.take n ∧ s = l.text ++ t.drop n ∧
      Lexes (t.drop n) ls := by
  cases s with
  | nil => cases lexes_nil_iff.1 h
  | cons b t =>
    obtain ⟨kind, n, ls', hl, he, hrest⟩ := lexes_cons_iff.1 h
    cases he
    exact ⟨b, t, n, hl, rfl, by rw [List.cons_append, List.take_append_drop], hrest⟩

section

variable {s rest r : Bytes} {l : Lexeme} {ls ms : List Lexeme}

theorem Lexes.tail (h : Lexes (l.text ++ rest) (l :: ls)) : Lexes rest ls ∧ l.kind.Ends rest := by
  obtain ⟨b, t, n, hl, -, hs, hrest⟩ := h.first
  rw [List.append_cancel_left hs]
  exact ⟨hrest, lexeme?_ends hl⟩

/-- A lexeme of one text in front of another one. -/
theorem Lexes.reads_cons (h : Lexes s (l :: ls)) (hr : l.kind.Ends r) (hreads : Reads r ms) :
    Reads (l.text ++ r) ([l].filter Lexeme.isSignificant ++ ms) := by
  obtain ⟨b, t, n, hl, htext, -⟩ := h.first
  obtain ⟨all, hall, rfl⟩ := hreads
  obtain ⟨kind, text⟩ := l
  obtain rfl : text = b :: t.take n := htext
  refine ⟨⟨kind, b :: t.take n⟩ :: all, ?_, List.filter_append [_] all⟩
  rw [List.cons_append, lexes_cons_iff]
  exact ⟨kind, _, all, lexeme?_take hl hr, by rw [List.take_left], by rwa [List.drop_left]⟩

/-- A blank or a comment takes what continues it. -/
theorem Reads.run {b : UInt8} {kind : Kind} (hrun : ∀ t, lexeme? b t = some (kind, runLength kind.continues t))
    (hk : ∀ text, Lexeme.isSignificant ⟨kind, text⟩ = false) (hreads : Reads (r.dropWhile kind.continues) ms) :
    Reads (b :: r) ms := by
  obtain ⟨all, hall, rfl⟩ := hreads
  rw [dropWhile_eq_drop] at hall
  refine ⟨_, lexes_cons_iff.2 ⟨kind, _, all, hrun r, rfl, hall⟩, ?_⟩
  rw [List.filter_cons_of_neg (by rw [hk]; exact Bool.false_ne_true)]

/-- A blank or a comment of one text in front of another one. -/
theorem Lexes.reads_run (h : Lexes s (l :: ls)) (hk : l.isSignificant = false)
    (hreads : Reads (r.dropWhile l.kind.continues) ms) : Reads (l.text ++ r) ms := by
  obtain ⟨b, t, n, hl, htext, -⟩ := h.first
  rcases lexeme?_cases hl with hrun | ⟨hstring, -⟩
  · have hn : n = runLength l.kind.continues t := by
      rw [hrun] at hl
      cases hl
      rfl
    have hall : ∀ x ∈ t.take n, l.kind.continues x = true := by
      rw [hn]
      exact List.all_eq_true.1 (all_take_runLength _ t)
    rw [htext, List.cons_append]
    refine Reads.run hrun (fun _ => hk) ?_
    rwa [List.dropWhile_append_of_pos hall]
  · simp [Lexeme.isSignificant, hstring] at hk

end

/-! ## Blanks and comment lines -/

/-- What may stand between two tokens: one blank or more, or a comment with the end of its line. -/
inductive Filler : Bytes → Prop
  | blanks {s : Bytes} : s ≠ [] → (∀ b ∈ s, isBlank b = true) → Filler s
  | comment {s : Bytes} : 0x0A ∉ s → Filler (0x23 :: (s ++ [0x0A]))

theorem Reads.blanks {s r : Bytes} {ls : List Lexeme} (hs : ∀ b ∈ s, isBlank b = true) (h : Reads r ls) :
    Reads (s ++ r) ls := by
  induction s with
  | nil => exact h
  | cons b s ih =>
    obtain ⟨hb, hs⟩ := List.forall_mem_cons.1 hs
    exact (ih hs).blank hb

/-- A comment goes up to the end of its line. -/
theorem dropWhile_comment {s : Bytes} (hs : 0x0A ∉ s) (r : Bytes) :
    (s ++ 0x0A :: r).dropWhile (Kind.continues .comment) = 0x0A :: r := by
  have hall : ∀ b ∈ s, Kind.continues .comment b = true := fun b hb => bne_iff_ne.2 fun e => hs (e ▸ hb)
  rw [List.dropWhile_append_of_pos hall]
  rfl

theorem dropWhile_of_ends {k : Kind} {r : Bytes} (h : k.Ends r) : r.dropWhile k.continues = r := by
  cases r with
  | nil => rfl
  | cons b r => rw [List.dropWhile_cons_of_neg (by rw [h b rfl]; exact Bool.false_ne_true)]

theorem dropWhile_append_of_ends {k : Kind} {r : Bytes} (s : Bytes) (h : k.Ends r) :
    (s ++ r).dropWhile k.continues = s.dropWhile k.continues ++ r := by
  rw [List.dropWhile_append, dropWhile_of_ends h]
  split
  · rename_i hnil
    rw [List.isEmpty_iff.1 hnil, List.nil_append]
  · rfl

namespace Filler

variable {piece r : Bytes} {ls : List Lexeme} (hp : Filler piece)
include hp

/-- In front of a text a filler changes nothing. -/
theorem reads (h : Reads r ls) : Reads (piece ++ r) ls := by
  cases hp with
  | blanks _ hs => exact .blanks hs h
  | @comment s hs =>
    rw [List.cons_append, List.append_assoc, List.singleton_append]
    have hrun : ∀ t, lexeme? 0x23 t = some (.comment, runLength (Kind.continues .comment) t) := fun _ => rfl
    refine .run hrun (fun _ => rfl) ?_
    rw [dropWhile_comment hs]
    exact h.blank rfl

/-- What a lexeme in front leaves of a filler changes nothing either. -/
theorem reads_dropWhile (k : Kind) (h : Reads r ls) : Reads (piece.dropWhile k.continues ++ r) ls := by
  cases hp with
  | blanks _ hs => exact .blanks (fun b hb => hs b ((List.dropWhile_sublist _).subset hb)) h
  | @comment s hs =>
    by_cases hk : k.continues 0x23 = true
    · obtain rfl : k = .comment := by
        cases k <;> first | rfl | cases hk
      rw [List.dropWhile_cons_of_pos hk, dropWhile_comment hs]
      exact h.blank rfl
    · rw [List.dropWhile_cons_of_neg hk]
      exact (Filler.comment hs).reads h

/-- No word goes on over a blank or a hash sign. -/
theorem apart (r : Bytes) : Apart (piece ++ r) := by
  intro b hb
  have hfirst : isBlank b = true ∨ b = 0x23 := by
    cases hp with
    | blanks hne hs =>
      cases piece with
      | nil => exact absurd rfl hne
      | cons c s =>
        cases hb
        exact .inl (hs b List.mem_cons_self)
    | comment =>
      cases hb
      exact .inr rfl
  simp only [isBlank, Bool.or_eq_true, beq_iff_eq, or_assoc] at hfirst
  rcases hfirst with rfl | rfl | rfl | rfl | rfl | rfl <;> rfl

/-- A filler behind the first lexeme of a text. -/
theorem reads_after {l : Lexeme} {back : Bytes} (h : Lexes (l.text ++ back) (l :: ls)) :
    Reads (l.text ++ (piece ++ back)) ((l :: ls).filter Lexeme.isSignificant) := by
  obtain ⟨hback, hends⟩ := h.tail
  have hreads : Reads back (ls.filter Lexeme.isSignificant) := ⟨ls, hback, rfl⟩
  by_cases hl : l.isSignificant = true
  · have := h.reads_cons (Kind.ends_of_apart hl (hp.apart back)) (hp.reads hreads)
    rwa [← List.filter_append] at this
  · rw [List.filter_cons_of_neg hl]
    refine h.reads_run (Bool.eq_false_iff.2 hl) ?_
    rw [dropWhile_append_of_ends piece hends]
    exact hp.reads_dropWhile l.kind hreads

/-- **A filler between two lexemes of a text leaves the lexemes that count as they are.** -/
theorem reads_between {before after : List Lexeme} {back : Bytes}
    (h : Lexes (before.flatMap Lexeme.text ++ back) (before ++ after)) :
    Reads (before.flatMap Lexeme.text ++ (piece ++ back)) ((before ++ after).filter Lexeme.isSignificant) := by
  induction before with
  | nil => exact hp.reads ⟨after, h, rfl⟩
  | cons l before ih =>
    rw [List.flatMap_cons, List.append_assoc] at h ⊢
    obtain ⟨hrest, hends⟩ := h.tail
    cases before with
    | nil => exact hp.reads_after h
    | cons l' before =>
      -- the byte after `l` is the first one of `l'`, with the filler and without it
      obtain ⟨b, t, n, -, htext, -⟩ := hrest.first
      have hhead : ∀ s, ((l' :: before).flatMap Lexeme.text ++ s).head? = some b := by
        intro s
        rw [List.flatMap_cons, htext]
        rfl
      have hends' : l.kind.Ends ((l' :: before).flatMap Lexeme.text ++ (piece ++ back)) := by
        intro c hc
        rw [hhead, ← hhead back] at hc
        exact hends c hc
      have := h.reads_cons hends' (ih hrest)
      rwa [← List.filter_append] at this

end Filler

/-! ## Programs -/

/-- A text is known by its lexemes that count. -/
theorem parse_congr {s s' : Bytes} {ls : List Lexeme} (h : Reads s ls) (h' : Reads s' ls) (p : Program) :
    parse s = .ok p ↔ parse s' = .ok p := by
  have hderives : ∀ {s}, Reads s ls → ∀ t, Derives s t ↔ t.yield = ls := by
    intro s h t
    constructor
    · rintro ⟨all, hall, hy⟩
      exact Reads.unique ⟨all, hall, hy.symm⟩ h
    · rintro rfl
      obtain ⟨all, hall, hy⟩ := h
      exact ⟨all, hall, hy.symm⟩
  simp only [parse_eq_ok_iff, hderives h, hderives h']

theorem Lexes.flatMap_text {s : Bytes} {ls : List Lexeme} (h : Lexes s ls) : ls.flatMap Lexeme.text = s := by
  induction h with
  | nil => rfl
  | cons first more ih => rw [List.flatMap_cons, ih]

/-- **Layout does not matter.** Blanks or a comment line may be put between any two tokens of a text, and in front of
its first and behind its last one: the text with them is a program if and only if the text without them is, and it is
the same program. -/
theorem parse_insert {text piece : Bytes} {before after : List Token} (h : tokens text = .ok (before ++ after))
    (hp : Filler piece) :
    before.flatMap Token.text ++ after.flatMap Token.text = text ∧
      ∀ p, parse (before.flatMap Token.text ++ piece ++ after.flatMap Token.text) = .ok p ↔ parse text = .ok p := by
  have htexts : ∀ ts : List Token, (ts.map Token.lexeme).flatMap Lexeme.text = ts.flatMap Token.text :=
    fun ts => List.flatMap_map ..
  have hlex := tokens_lexes.1 ⟨_, h, rfl⟩
  have htext := hlex.flatMap_text
  rw [List.map_append] at hlex htext
  rw [List.flatMap_append, htexts, htexts] at htext
  refine ⟨htext, parse_congr ?_ ⟨_, hlex, rfl⟩⟩
  rw [← htext, ← htexts before] at hlex
  rw [← htexts before, List.append_assoc]
  exact hp.reads_between hlex

/-- A comment between two tokens that touch. -/
theorem parse_insert_touching : parse (ascii "push 1#;\nwrite") = .ok ⟨[], [.push 1, .basic .write]⟩ := by
  have h : tokens (ascii "push 1write") = .ok (
      [⟨.ident, ascii "push", ⟨1, 1⟩, ⟨1, 5⟩⟩, ⟨.blank, ascii " ", ⟨1, 5⟩, ⟨1, 6⟩⟩,
        ⟨.int, ascii "1", ⟨1, 6⟩, ⟨1, 7⟩⟩] ++ [⟨.ident, ascii "write", ⟨1, 7⟩, ⟨1, 12⟩⟩]) := rfl
  have hp : Filler (0x23 :: (ascii ";" ++ [0x0A])) := .comment (by decide)
  refine ((parse_insert h hp).2 _).2 (parse_eq_ok_iff.2 ?_)
  exact ⟨⟨none, [.push (ascii "1"), .op .write]⟩, by decide +kernel, rfl⟩

end StackTape.Source

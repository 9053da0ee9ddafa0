import StackTape.Proofs.Lexing
import StackTape.Proofs.Literals
import StackTape.Source.Tree

/-!
# Derivation trees

    file  = ("let" ident* ";")? instr*
    instr = "get" ident | "set" ident | "push" int | "addc" int | "subc" int | "print" string
          | "stat" block | "if" block "then" block | word
    block = "{" instr* "}"

A derivation is a tree with one constructor for each production (`Tree`, `FileTree`); its yield is the list of
lexemes that it derives, and its value is the program that it stands for, if all its literals have one. No word
is reserved, yet no list of lexemes has two derivations (`FileTree.yield_inj`): the first word of an instruction
tells its production, and a closing brace starts no instruction.
-/

namespace StackTape.Source

/-! ## Yields -/

/-- The derivation of an instruction. -/
inductive Tree
  | get (name : Bytes)
  | set (name : Bytes)
  | push (literal : Bytes)
  | addc (literal : Bytes)
  | subc (literal : Bytes)
  | print (literal : Bytes)
  | stat (body : List Tree)
  | ifThen (test body : List Tree)
  | op (b : Basic)

/-- The lexeme of a word. -/
def keyword (s : String) : Lexeme := ⟨.ident, ascii s⟩

/-- The lexeme of a punctuation mark. -/
def mark (b : UInt8) : Lexeme := ⟨.punct, [b]⟩

/-- The lexemes of a block around a list of instructions. -/
def block (ls : List Lexeme) : List Lexeme := mark 0x7B :: (ls ++ [mark 0x7D])

mutual

/-- The lexemes that the tree derives. -/
def Tree.yield : Tree → List Lexeme
  | .get x => [keyword "get", ⟨.ident, x⟩]
  | .set x => [keyword "set", ⟨.ident, x⟩]
  | .push n => [keyword "push", ⟨.int, n⟩]
  | .addc n => [keyword "addc", ⟨.int, n⟩]
  | .subc n => [keyword "subc", ⟨.int, n⟩]
  | .print s => [keyword "print", ⟨.string, s⟩]
  | .stat body => keyword "stat" :: block (yieldList body)
  | .ifThen test body =>
    keyword "if" :: (block (yieldList test) ++ keyword "then" :: block (yieldList body))
  | .op b => [⟨.ident, b.name⟩]

def yieldList : List Tree → List Lexeme
  | [] => []
  | t :: ts => t.yield ++ yieldList ts

end

structure FileTree where
  /-- The declared names, if there is a declaration. -/
  declared : Option (List Bytes)
  body : List Tree

def FileTree.yield (t : FileTree) : List Lexeme :=
  match t.declared with
  | none => yieldList t.body
  | some vars => keyword "let" :: (vars.map (⟨.ident, ·⟩) ++ mark 0x3B :: yieldList t.body)

/-- The text splits into lexemes by the lexical rules, and those that count are what the tree derives. -/
def Derives (text : Bytes) (t : FileTree) : Prop :=
  ∃ ls, Lexes text ls ∧ t.yield = ls.filter Lexeme.isSignificant

/-! ## Values -/

mutual

/-- The instruction that a tree stands for, if its literals have values. -/
def Tree.instr? : Tree → Option Instr
  | .get x => some (.get x)
  | .set x => some (.set x)
  | .push n => (literalValue? n).map .push
  | .addc n => (literalValue? n).map .addc
  | .subc n => (literalValue? n).map .subc
  | .print s => (Quoted.unquote s).map .print
  | .stat body => (instrs? body).map .stat
  | .ifThen test body => (instrs? test).bind fun test => (instrs? body).map (.ifThen test ·)
  | .op b => some (.basic b)

def instrs? : List Tree → Option (List Instr)
  | [] => some []
  | t :: ts => t.instr?.bind fun x => (instrs? ts).map (x :: ·)

end

def FileTree.program? (t : FileTree) : Option Program :=
  (instrs? t.body).map fun body => { vars := t.declared.getD [], body }

namespace Tree

/-- The tree holds no other trees. -/
def isLeaf : Tree → Bool
  | .stat _ | .ifThen _ _ => false
  | _ => true

/-- Induction over a tree and over a list of them at once. -/
theorem induct {P : Tree → Prop} {Q : List Tree → Prop} (leaf : ∀ t : Tree, t.isLeaf = true → P t)
    (stat : ∀ body, Q body → P (.stat body)) (ifThen : ∀ test body, Q test → Q body → P (.ifThen test body))
    (nil : Q []) (cons : ∀ t rest, P t → Q rest → Q (t :: rest)) : (∀ t, P t) ∧ ∀ ts, Q ts := by
  have hP : ∀ t, P t := fun t =>
    @Tree.rec P Q (fun _ => leaf _ rfl) (fun _ => leaf _ rfl) (fun _ => leaf _ rfl) (fun _ => leaf _ rfl)
      (fun _ => leaf _ rfl) (fun _ => leaf _ rfl) stat ifThen (fun _ => leaf _ rfl) nil cons t
  refine ⟨hP, fun ts => ?_⟩
  induction ts with
  | nil => exact nil
  | cons t rest ih => exact cons t rest (hP t) ih

end Tree

/-! ## First words -/

/-- The word that a spelling stands for is found again. -/
theorem Word.find?_text (w : Word) : Word.all.find? (fun v => v.text = w.text) = some w := by
  cases w with
  | operand w => cases w <;> rfl
  | block w => cases w <;> rfl
  | basic b => cases b <;> rfl

theorem Word.text_inj {v w : Word} (h : v.text = w.text) : v = w := by
  have hv := Word.find?_text v
  rw [h, Word.find?_text w] at hv
  exact (Option.some.inj hv).symm

/-- The word that starts an instruction. -/
def Tree.word : Tree → Word
  | .get _ => .operand .get
  | .set _ => .operand .set
  | .push _ => .operand .push
  | .addc _ => .operand .addc
  | .subc _ => .operand .subc
  | .print _ => .operand .print
  | .stat _ => .block .stat
  | .ifThen _ _ => .block .ifWord
  | .op b => .basic b

/-- The derivation of a word with its operand. -/
def OperandWord.tree (x : Bytes) : OperandWord → Tree
  | .get => .get x
  | .set => .set x
  | .push => .push x
  | .addc => .addc x
  | .subc => .subc x
  | .print => .print x

theorem OperandWord.yield_tree (w : OperandWord) (x : Bytes) :
    (w.tree x).yield = [⟨.ident, (Word.operand w).text⟩, ⟨w.kind, x⟩] := by
  cases w <;> rw [tree, Tree.yield] <;> rfl

theorem Tree.yield_eq_cons (t : Tree) : ∃ ls, t.yield = ⟨.ident, t.word.text⟩ :: ls := by
  cases t <;> exact ⟨_, by rw [Tree.yield]; rfl⟩

/-- A leaf is a word with an operand or a word alone. -/
theorem Tree.leaf_cases {t : Tree} (h : t.isLeaf = true) :
    (∃ w x, t = OperandWord.tree x w) ∨ ∃ b, t = .op b := by
  cases t with
  | get x => exact .inl ⟨.get, x, rfl⟩
  | set x => exact .inl ⟨.set, x, rfl⟩
  | push x => exact .inl ⟨.push, x, rfl⟩
  | addc x => exact .inl ⟨.addc, x, rfl⟩
  | subc x => exact .inl ⟨.subc, x, rfl⟩
  | print x => exact .inl ⟨.print, x, rfl⟩
  | stat body => cases h
  | ifThen test body => cases h
  | op b => exact .inr ⟨b, rfl⟩

theorem OperandWord.word_tree (w : OperandWord) (x : Bytes) : (w.tree x).word = .operand w := by
  cases w <;> rfl

/-- The production is known from the first word. -/
theorem Tree.eq_of_word (t : Tree) : match t.word with
    | .operand w => ∃ x, t = w.tree x
    | .block .stat => ∃ body, t = .stat body
    | .block .ifWord => ∃ test body, t = .ifThen test body
    | .basic b => t = .op b := by
  cases t with
  | stat body => exact ⟨body, rfl⟩
  | ifThen test body => exact ⟨test, body, rfl⟩
  | op b => rfl
  | _ x => exact ⟨x, rfl⟩

/-- No instruction starts with the first of the lexemes. -/
def Stops (ls : List Lexeme) : Prop := ∀ l ∈ ls.head?, ∀ w : Word, l ≠ ⟨.ident, w.text⟩

theorem stops_nil : Stops [] := fun _ h => by cases h

theorem stops_mark (b : UInt8) (ls : List Lexeme) : Stops (mark b :: ls) := by
  intro l hl w e
  cases hl
  cases e

theorem Tree.not_stops (t : Tree) (ls : List Lexeme) : ¬ Stops (t.yield ++ ls) := by
  obtain ⟨more, hy⟩ := t.yield_eq_cons
  intro h
  exact h ⟨.ident, t.word.text⟩ (by rw [hy]; rfl) t.word rfl

/-! ## Only one derivation -/

theorem Tree.word_eq_of_append {t t' : Tree} {r r' : List Lexeme} (h : t.yield ++ r = t'.yield ++ r') :
    t.word = t'.word := by
  obtain ⟨ls, hy⟩ := t.yield_eq_cons
  obtain ⟨ls', hy'⟩ := t'.yield_eq_cons
  rw [hy, hy', List.cons_append, List.cons_append, List.cons.injEq, Lexeme.mk.injEq] at h
  exact Word.text_inj h.1.2

theorem block_append (ls r : List Lexeme) : block ls ++ r = mark 0x7B :: (ls ++ mark 0x7D :: r) := by
  simp [block]

/-- A tree and a list of trees are known from the front of what follows from them. -/
theorem yield_append_inj :
    (∀ t t' : Tree, ∀ r r', t.yield ++ r = t'.yield ++ r' → t = t' ∧ r = r') ∧
    ∀ ts ts' : List Tree, ∀ r r', Stops r → Stops r' → yieldList ts ++ r = yieldList ts' ++ r' →
      ts = ts' ∧ r = r' := by
  apply Tree.induct
  case leaf =>
    intro t ht t' r r' h
    have ht' := t'.eq_of_word
    rw [← Tree.word_eq_of_append h] at ht'
    rcases Tree.leaf_cases ht with ⟨w, x, rfl⟩ | ⟨b, rfl⟩
    · rw [w.word_tree] at ht'
      obtain ⟨x', rfl⟩ := ht'
      simp only [OperandWord.yield_tree, List.cons_append, List.nil_append, List.cons.injEq, Lexeme.mk.injEq,
        true_and] at h
      exact ⟨by rw [h.1], h.2⟩
    · obtain rfl : t' = .op b := ht'
      exact ⟨rfl, List.append_cancel_left h⟩
  case stat =>
    intro body ih t' r r' h
    have ht' := t'.eq_of_word
    rw [← Tree.word_eq_of_append h] at ht'
    obtain ⟨body', rfl⟩ := ht'
    simp only [Tree.yield, List.cons_append, block_append, List.cons.injEq, true_and] at h
    obtain ⟨rfl, hr⟩ := ih body' _ _ (stops_mark _ _) (stops_mark _ _) h
    exact ⟨rfl, (List.cons.inj hr).2⟩
  case ifThen =>
    intro test body ihTest ihBody t' r r' h
    have ht' := t'.eq_of_word
    rw [← Tree.word_eq_of_append h] at ht'
    obtain ⟨test', body', rfl⟩ := ht'
    simp only [Tree.yield, List.cons_append, List.append_assoc, block_append, List.cons.injEq, true_and] at h
    obtain ⟨rfl, hthen⟩ := ihTest test' _ _ (stops_mark _ _) (stops_mark _ _) h
    simp only [List.cons.injEq, true_and] at hthen
    obtain ⟨rfl, hr⟩ := ihBody body' _ _ (stops_mark _ _) (stops_mark _ _) hthen
    exact ⟨rfl, (List.cons.inj hr).2⟩
  case nil =>
    intro ts' r r' hr hr' h
    cases ts' with
    | nil => exact ⟨rfl, h⟩
    | cons t' ts' =>
      simp only [yieldList, List.nil_append, List.append_assoc] at h
      rw [h] at hr
      exact absurd hr (t'.not_stops _)
  case cons =>
    intro t rest iht ihrest ts' r r' hr hr' h
    cases ts' with
    | nil =>
      simp only [yieldList, List.nil_append, List.append_assoc] at h
      rw [← h] at hr'
      exact absurd hr' (t.not_stops _)
    | cons t' rest' =>
      simp only [yieldList, List.append_assoc] at h
      obtain ⟨rfl, hrest⟩ := iht t' _ _ h
      obtain ⟨rfl, rfl⟩ := ihrest rest' r r' hr hr' hrest
      exact ⟨rfl, rfl⟩

theorem yieldList_inj {ts ts' : List Tree} (h : yieldList ts = yieldList ts') : ts = ts' := by
  refine (yield_append_inj.2 ts ts' [] [] stops_nil stops_nil ?_).1
  rw [h]

/-- Declared names are known from the lexemes up to the semicolon. -/
theorem names_append_inj {xs ys : List Bytes} {r r' : List Lexeme}
    (h : xs.map (Lexeme.mk .ident) ++ mark 0x3B :: r = ys.map (Lexeme.mk .ident) ++ mark 0x3B :: r') :
    xs = ys ∧ r = r' := by
  induction xs generalizing ys with
  | nil =>
    cases ys with
    | nil => exact ⟨rfl, (List.cons.inj h).2⟩
    | cons y ys => simp [mark] at h
  | cons x xs ih =>
    cases ys with
    | nil => simp [mark] at h
    | cons y ys =>
      simp only [List.map_cons, List.cons_append, List.cons.injEq, Lexeme.mk.injEq, true_and] at h
      obtain ⟨rfl, rfl⟩ := ih h.2
      exact ⟨by rw [h.1], rfl⟩

theorem stops_keyword_let (ls : List Lexeme) : Stops (keyword "let" :: ls) := by
  intro l hl w e
  cases hl
  have hw := Word.find?_text w
  rw [← (Lexeme.mk.inj e).2] at hw
  cases hw

/-- What a list of trees derives does not start with the word of a declaration. -/
theorem yieldList_ne_let (ts : List Tree) (ls : List Lexeme) : yieldList ts ≠ keyword "let" :: ls := by
  intro h
  cases ts with
  | nil => simp [yieldList] at h
  | cons t ts =>
    rw [yieldList] at h
    exact t.not_stops _ (h ▸ stops_keyword_let ls)

/-- **No list of lexemes has two derivations.** -/
theorem FileTree.yield_inj {t t' : FileTree} (h : t.yield = t'.yield) : t = t' := by
  obtain ⟨d, body⟩ := t
  obtain ⟨d', body'⟩ := t'
  cases d with
  | none =>
    cases d' with
    | none =>
      simp only [yield] at h
      rw [yieldList_inj h]
    | some vars' => exact absurd h (yieldList_ne_let body _)
  | some vars =>
    cases d' with
    | none => exact absurd h.symm (yieldList_ne_let body' _)
    | some vars' =>
      simp only [yield, List.cons.injEq, true_and] at h
      obtain ⟨rfl, hbody⟩ := names_append_inj h
      rw [yieldList_inj hbody]

/-- Whether a tree derives a text is found out by reading its tokens. -/
theorem derives_iff {text : Bytes} {t : FileTree} : Derives text t ↔
    (tokens text).toOption.map (fun ts => (ts.map Token.lexeme).filter Lexeme.isSignificant) = some t.yield := by
  constructor
  · rintro ⟨ls, hlex, hyield⟩
    obtain ⟨ts, hts, rfl⟩ := tokens_lexes.2 hlex
    rw [hts, hyield]
    rfl
  · intro h
    cases hts : tokens text with
    | error u => simp [hts, Except.toOption] at h
    | ok ts =>
      rw [hts] at h
      exact ⟨ts.map Token.lexeme, tokens_lexes.1 ⟨ts, hts, rfl⟩, (Option.some.inj h).symm⟩

instance (text : Bytes) (t : FileTree) : Decidable (Derives text t) := decidable_of_iff _ derives_iff.symm

theorem Derives.unique {text : Bytes} {t t' : FileTree} (h : Derives text t) (h' : Derives text t') : t = t' := by
  obtain ⟨ls, hl, hy⟩ := h
  obtain ⟨ls', hl', hy'⟩ := h'
  obtain rfl := hl.unique hl'
  exact FileTree.yield_inj (hy.trans hy'.symm)

end StackTape.Source

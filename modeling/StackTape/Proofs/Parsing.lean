import StackTape.Proofs.Grammar
import StackTape.Source.Parse

/-!
# The reader accepts exactly its grammar

The reader keeps the open blocks on a stack and never goes back. Completeness follows the derivation: the reader
takes the tokens of a tree for one item, whatever is open and whatever follows (`takes_tree_list`). Soundness
follows the run: from every state that ends well, the tokens left close what is open and spell whole instructions
in between (`completes_of_items`). Faults play no part in either; a literal without a value is the only reason
why a text with a derivation is no program.
-/

namespace StackTape.Source

/-! ## First tokens -/

theorem Token.word?_eq_some_iff {t : Token} {w : Word} : t.word? = some w ↔ t.lexeme = ⟨.ident, w.text⟩ := by
  unfold word? lexeme
  rw [Lexeme.mk.injEq]
  constructor
  · intro h
    split at h
    · rename_i hk
      have ht := List.find?_some h
      exact ⟨hk, (of_decide_eq_true ht).symm⟩
    · cases h
  · rintro ⟨hk, ht⟩
    rw [if_pos hk, ht]
    exact Word.find?_text w

theorem Token.isMark_iff {t : Token} {b : UInt8} : t.isMark b = true ↔ t.lexeme = mark b := by
  simp [isMark, lexeme, mark]

theorem Token.isWord_iff {t : Token} {s : String} : t.isWord (ascii s) = true ↔ t.lexeme = keyword s := by
  simp [isWord, lexeme, keyword]

/-- A punctuation mark starts no instruction. -/
theorem Token.word?_of_mark {t : Token} {b : UInt8} (h : t.lexeme = mark b) : t.word? = none := by
  rw [Option.eq_none_iff_forall_ne_some]
  intro w hw
  rw [Token.word?_eq_some_iff.1 hw] at h
  cases h

/-! ## Steps of the reader -/

section

variable {eof : Position} {stack : List Opened} {done : List Item} {t u v : Token} {rest : List Token}

theorem items_basic {b : Basic} (h : t.word? = some (.basic b)) :
    items eof stack done (t :: rest) = items eof stack (.leaf t.start (.basic b) :: done) rest := by
  cases stack <;> rw [items.eq_def] <;> simp only [h]

theorem items_operand {w : OperandWord} {x : Item} (h : t.word? = some (.operand w)) (hk : u.kind = w.kind)
    (hx : w.item t u = .ok x) : items eof stack done (t :: u :: rest) = items eof stack (x :: done) rest := by
  cases stack <;> rw [items.eq_def] <;> simp only [h, hk, hx, if_true]

theorem items_open {w : BlockWord} (h : t.word? = some (.block w)) (hu : u.isMark openingBrace = true) :
    items eof stack done (t :: u :: rest) = items eof (⟨t.start, w.part, done⟩ :: stack) [] rest := by
  cases stack <;> rw [items.eq_def] <;> simp only [h, hu, if_true]

theorem items_close_stat {pos : Position} {before : List Item} (ht : t.lexeme = mark closingBrace) :
    items eof (⟨pos, .stat, before⟩ :: stack) done (t :: rest) =
      items eof stack (.stat pos done.reverse :: before) rest := by
  rw [items.eq_def]
  simp only [Token.word?_of_mark ht, Token.isMark_iff.2 ht, if_true]

theorem items_close_body {pos : Position} {before test : List Item} (ht : t.lexeme = mark closingBrace) :
    items eof (⟨pos, .body test, before⟩ :: stack) done (t :: rest) =
      items eof stack (.ifThen pos test done.reverse :: before) rest := by
  rw [items.eq_def]
  simp only [Token.word?_of_mark ht, Token.isMark_iff.2 ht, if_true]

theorem items_close_test {pos : Position} {before : List Item} (ht : t.lexeme = mark closingBrace)
    (hu : u.isWord (ascii "then") = true) (hv : v.isMark openingBrace = true) :
    items eof (⟨pos, .test, before⟩ :: stack) done (t :: u :: v :: rest) =
      items eof (⟨pos, .body done.reverse, before⟩ :: stack) [] rest := by
  rw [items.eq_def]
  simp only [Token.word?_of_mark ht, Token.isMark_iff.2 ht, hu, hv, if_true]

end

/-! ## Items and trees -/

theorem instr_stat_toOption {pos : Position} {is : List Item} {ts : List Tree}
    (h : (instrs is).toOption = instrs? ts) : (Item.stat pos is).instr.toOption = (Tree.stat ts).instr? := by
  rw [Item.instr, Tree.instr?, ← h]
  cases instrs is <;> rfl

theorem instr_ifThen_toOption {pos : Position} {is js : List Item} {ts us : List Tree}
    (h : (instrs is).toOption = instrs? ts) (h' : (instrs js).toOption = instrs? us) :
    (Item.ifThen pos is js).instr.toOption = (Tree.ifThen ts us).instr? := by
  rw [Item.instr, Tree.instr?, ← h, ← h']
  cases instrs is <;> cases instrs js <;> rfl

theorem instrs_cons_toOption {i : Item} {is : List Item} {t : Tree} {ts : List Tree}
    (h : i.instr.toOption = t.instr?) (h' : (instrs is).toOption = instrs? ts) :
    (instrs (i :: is)).toOption = instrs? (t :: ts) := by
  rw [instrs, instrs?, ← h, ← h']
  cases i.instr <;> cases instrs is <;> rfl

theorem isNumeral_iff {s : Bytes} : isNumeral s = true ↔ s ≠ [] ∧ ∀ b ∈ s, isDigit b = true := by
  simp [isNumeral]

theorem integer_toOption {t u : Token} (h : isNumeral u.text = true) :
    (OperandWord.integer t u).toOption = literalValue? u.text := by
  obtain ⟨hne, hs⟩ := isNumeral_iff.1 h
  rw [OperandWord.integer]
  apply Option.ext
  intro n
  rw [← Integer.readAnnouncedInt_iff hne hs]
  cases Integer.readAnnouncedInt u.text <;> simp [Except.toOption]

/-- An operand is accepted when its literal has a value; of a string that is found out later. -/
theorem item_toOption {w : OperandWord} {t u : Token} (hu : u.lexeme.Proper) (hk : u.kind = w.kind) :
    ((w.item t u).toOption.bind fun i => i.instr.toOption) = (w.tree u.text).instr? := by
  have number : ∀ f : Int → Instr, isNumeral u.text = true →
      ((((fun n => Item.leaf t.start (f n)) <$> OperandWord.integer t u).toOption.bind fun i => i.instr.toOption) =
        (literalValue? u.text).map f) := by
    intro f hn
    rw [← integer_toOption (t := t) hn]
    cases OperandWord.integer t u with
    | error e => rfl
    | ok n => simp only [Functor.map, Except.map, Except.toOption, Option.bind_some, Item.instr, Option.map_some]
  cases w with
  | get => simp only [OperandWord.item, OperandWord.tree, Tree.instr?, Except.toOption, Option.bind_some, Item.instr]
  | set => simp only [OperandWord.item, OperandWord.tree, Tree.instr?, Except.toOption, Option.bind_some, Item.instr]
  | push => exact number .push (hu.2 hk)
  | addc => exact number .addc (hu.2 hk)
  | subc => exact number .subc (hu.2 hk)
  | print =>
    rw [OperandWord.item, OperandWord.tree, Tree.instr?]
    simp only [Except.toOption, Option.bind_some, Item.instr]
    cases Quoted.unquote u.text <;> rfl

/-! ## Every derivation is read -/

/-- The reader takes the tokens in front of `ts'` for the items, whatever is open. -/
def Takes (ts ts' : List Token) (is : List Item) : Prop :=
  ∀ eof stack done, items eof stack done ts = items eof stack (is.reverse ++ done) ts'

theorem Takes.append {ts ts' ts'' : List Token} {is js : List Item} (h : Takes ts ts' is) (h' : Takes ts' ts'' js) :
    Takes ts ts'' (is ++ js) := by
  intro eof stack done
  rw [h, h', List.reverse_append, List.append_assoc]

theorem takes_operand {w : OperandWord} {text : Bytes} {x : Instr} {t u : Token} (rest : List Token)
    (ht : t.lexeme = ⟨.ident, (Word.operand w).text⟩) (hu : u.lexeme = ⟨w.kind, text⟩)
    (hp : Lexeme.Proper ⟨w.kind, text⟩) (hx : (w.tree text).instr? = some x) :
    ∃ i, Takes (t :: u :: rest) rest [i] ∧ i.instr = .ok x := by
  obtain ⟨hk, rfl⟩ := Lexeme.mk.inj hu
  rw [← item_toOption (t := t) (u := u) (hu ▸ hp) hk] at hx
  cases hi : w.item t u with
  | error e => simp [hi, Except.toOption] at hx
  | ok i =>
    refine ⟨i, fun eof stack done => ?_, ?_⟩
    · rw [items_operand (Token.word?_eq_some_iff.2 ht) hk hi]
      rfl
    · rw [hi] at hx
      cases hv : i.instr with
      | error e => simp [hv, Except.toOption] at hx
      | ok y => simpa [hv, Except.toOption] using hx

/-- The tokens in front of `rest` are those of the block, and the reader takes what is in it. -/
theorem takes_block {ts : List Token} {ls rest : List Lexeme} (h : ts.map Token.lexeme = block ls ++ rest) :
    ∃ u inner, ts = u :: inner ∧ u.isMark openingBrace = true ∧
      inner.map Token.lexeme = ls ++ mark closingBrace :: rest := by
  rw [block_append] at h
  obtain ⟨u, inner, rfl, hu, hinner⟩ := List.map_eq_cons_iff.1 h
  exact ⟨u, inner, rfl, Token.isMark_iff.2 hu, hinner⟩

theorem takes_tree_list :
    (∀ t : Tree, ∀ x, t.instr? = some x → (∀ l ∈ t.yield, l.Proper) → ∀ ts rest,
      ts.map Token.lexeme = t.yield ++ rest →
        ∃ i ts', Takes ts ts' [i] ∧ i.instr = .ok x ∧ ts'.map Token.lexeme = rest) ∧
    ∀ trees : List Tree, ∀ xs, instrs? trees = some xs → (∀ l ∈ yieldList trees, l.Proper) → ∀ ts rest,
      ts.map Token.lexeme = yieldList trees ++ rest →
        ∃ is ts', Takes ts ts' is ∧ instrs is = .ok xs ∧ ts'.map Token.lexeme = rest := by
  apply Tree.induct
  case leaf =>
    intro t ht x hx hp ts rest hts
    rcases Tree.leaf_cases ht with ⟨w, text, rfl⟩ | ⟨b, rfl⟩
    · rw [OperandWord.yield_tree] at hp hts
      obtain ⟨t, ts, rfl, ht, hts⟩ := List.map_eq_cons_iff.1 hts
      obtain ⟨u, ts, rfl, hu, hts⟩ := List.map_eq_cons_iff.1 hts
      obtain ⟨i, htakes, hi⟩ := takes_operand ts ht hu (hp _ (by simp)) hx
      exact ⟨i, ts, htakes, hi, hts⟩
    · rw [Tree.yield] at hts
      obtain ⟨t, ts, rfl, ht, hts⟩ := List.map_eq_cons_iff.1 hts
      refine ⟨.leaf t.start (.basic b), ts, fun eof stack done => ?_, ?_, hts⟩
      · rw [items_basic (Token.word?_eq_some_iff.2 ht)]
        rfl
      · rw [Tree.instr?] at hx
        rw [Item.instr, ← Option.some.inj hx]
  case stat =>
    intro body ih x hx hp ts rest hts
    rw [Tree.instr?] at hx
    obtain ⟨xs, hxs, rfl⟩ := Option.map_eq_some_iff.1 hx
    rw [Tree.yield] at hp hts
    obtain ⟨t, ts, rfl, ht, hts⟩ := List.map_eq_cons_iff.1 hts
    obtain ⟨u, inner, rfl, hu, hinner⟩ := takes_block hts
    obtain ⟨is, ts', htakes, his, hts'⟩ := ih xs hxs (fun l hl => hp l (by simp [block, hl])) inner _ hinner
    obtain ⟨v, ts'', rfl, hv, hrest⟩ := List.map_eq_cons_iff.1 hts'
    refine ⟨.stat t.start is, ts'', fun eof stack done => ?_, ?_, hrest⟩
    · have hopen : t.word? = some (.block .stat) := Token.word?_eq_some_iff.2 ht
      rw [items_open hopen hu, htakes, BlockWord.part, items_close_stat hv, List.append_nil, List.reverse_reverse]
      rfl
    · rw [Item.instr, his]
      rfl
  case ifThen =>
    intro test body ihTest ihBody x hx hp ts rest hts
    rw [Tree.instr?] at hx
    obtain ⟨xs, hxs, hx⟩ := Option.bind_eq_some_iff.1 hx
    obtain ⟨ys, hys, rfl⟩ := Option.map_eq_some_iff.1 hx
    rw [Tree.yield] at hp hts
    rw [List.cons_append, List.append_assoc, List.cons_append] at hts
    obtain ⟨t, ts, rfl, ht, hts⟩ := List.map_eq_cons_iff.1 hts
    obtain ⟨u, inner, rfl, hu, hinner⟩ := takes_block hts
    obtain ⟨is, ts₁, htest, his, hts₁⟩ := ihTest xs hxs (fun l hl => hp l (by simp [block, hl])) inner _ hinner
    obtain ⟨v, ts₂, rfl, hv, hts₂⟩ := List.map_eq_cons_iff.1 hts₁
    obtain ⟨w, ts₃, rfl, hw, hts₃⟩ := List.map_eq_cons_iff.1 hts₂
    obtain ⟨u', inner', rfl, hu', hinner'⟩ := takes_block hts₃
    obtain ⟨js, ts₄, hbody, hjs, hts₄⟩ := ihBody ys hys (fun l hl => hp l (by simp [block, hl])) inner' _ hinner'
    obtain ⟨v', ts₅, rfl, hv', hrest⟩ := List.map_eq_cons_iff.1 hts₄
    refine ⟨.ifThen t.start is js, ts₅, fun eof stack done => ?_, ?_, hrest⟩
    · have hopen : t.word? = some (.block .ifWord) := Token.word?_eq_some_iff.2 ht
      rw [items_open hopen hu, htest, BlockWord.part, items_close_test hv (Token.isWord_iff.2 hw) hu', hbody,
        items_close_body hv', List.append_nil, List.append_nil, List.reverse_reverse, List.reverse_reverse]
      rfl
    · rw [Item.instr, his, hjs]
      rfl
  case nil =>
    intro xs hxs _ ts rest hts
    rw [instrs?] at hxs
    refine ⟨[], ts, fun _ _ _ => rfl, ?_, hts⟩
    rw [instrs, Option.some.inj hxs]
  case cons =>
    intro t trees iht ihtrees xs hxs hp ts rest hts
    rw [instrs?] at hxs
    obtain ⟨x, hx, hxs⟩ := Option.bind_eq_some_iff.1 hxs
    obtain ⟨ys, hys, rfl⟩ := Option.map_eq_some_iff.1 hxs
    rw [yieldList] at hp hts
    rw [List.append_assoc] at hts
    obtain ⟨i, ts', htakes, hi, hts'⟩ := iht x hx (fun l hl => hp l (List.mem_append_left _ hl)) ts _ hts
    obtain ⟨is, ts'', htakes', his, hrest⟩ :=
      ihtrees ys hys (fun l hl => hp l (List.mem_append_right _ hl)) ts' rest hts'
    refine ⟨i :: is, ts'', htakes.append htakes', ?_, hrest⟩
    rw [instrs, hi, his]
    rfl

/-! ## Everything that is read has a derivation -/

/-- The lexemes `ls` close the open blocks of `stack` one by one and spell whole instructions in between, and
`out` holds all items of the outermost level; `done` holds those already read in the innermost block. -/
def Completes : List Opened → List Item → List Lexeme → List Item → Prop
  | [], done, ls, out =>
    ∃ is trees, (instrs is).toOption = instrs? trees ∧ ls = yieldList trees ∧ out = done.reverse ++ is
  | ⟨pos, part, before⟩ :: stack, done, ls, out =>
    ∃ is trees rest, (instrs is).toOption = instrs? trees ∧ ls = yieldList trees ++ mark closingBrace :: rest ∧
      match part with
      | .stat => Completes stack (.stat pos (done.reverse ++ is) :: before) rest out
      | .body test => Completes stack (.ifThen pos test (done.reverse ++ is) :: before) rest out
      | .test => ∃ js trees' rest', (instrs js).toOption = instrs? trees' ∧
          rest = keyword "then" :: (block (yieldList trees') ++ rest') ∧
          Completes stack (.ifThen pos (done.reverse ++ is) js :: before) rest' out

/-- One instruction in front. -/
theorem Completes.cons {stack : List Opened} {done : List Item} {ls : List Lexeme} {out : List Item} {i : Item}
    {t : Tree} (hi : i.instr.toOption = t.instr?) (h : Completes stack (i :: done) ls out) :
    Completes stack done (t.yield ++ ls) out := by
  cases stack with
  | nil =>
    obtain ⟨is, trees, his, rfl, rfl⟩ := h
    exact ⟨i :: is, t :: trees, instrs_cons_toOption hi his, by rw [yieldList], by simp⟩
  | cons o stack =>
    obtain ⟨pos, part, before⟩ := o
    obtain ⟨is, trees, rest, his, rfl, hpart⟩ := h
    refine ⟨i :: is, t :: trees, rest, instrs_cons_toOption hi his, by rw [yieldList, List.append_assoc], ?_⟩
    rw [List.reverse_cons, List.append_assoc] at hpart
    exact hpart

theorem Completes.open_stat {stack : List Opened} {done : List Item} {ls : List Lexeme} {out : List Item}
    {pos : Position} (h : Completes (⟨pos, .stat, done⟩ :: stack) [] ls out) :
    Completes stack done (keyword "stat" :: mark openingBrace :: ls) out := by
  obtain ⟨is, trees, rest, his, rfl, h⟩ := h
  have := Completes.cons (instr_stat_toOption his) h
  rwa [Tree.yield, List.cons_append, block_append] at this

theorem Completes.open_ifThen {stack : List Opened} {done : List Item} {ls : List Lexeme} {out : List Item}
    {pos : Position} (h : Completes (⟨pos, .test, done⟩ :: stack) [] ls out) :
    Completes stack done (keyword "if" :: mark openingBrace :: ls) out := by
  obtain ⟨is, trees, rest, his, rfl, js, trees', rest', hjs, rfl, h⟩ := h
  have := Completes.cons (instr_ifThen_toOption his hjs) h
  rwa [Tree.yield, List.cons_append, List.append_assoc, block_append, List.cons_append] at this

theorem Completes.close_test {stack : List Opened} {done before : List Item} {ls : List Lexeme} {out : List Item}
    {pos : Position} (h : Completes (⟨pos, .body done.reverse, before⟩ :: stack) [] ls out) :
    Completes (⟨pos, .test, before⟩ :: stack) done
      (mark closingBrace :: keyword "then" :: mark openingBrace :: ls) out := by
  obtain ⟨js, trees', rest', hjs, rfl, h⟩ := h
  refine ⟨[], [], _, rfl, rfl, js, trees', rest', hjs, ?_, ?_⟩
  · rw [block_append]
    rfl
  · rw [List.append_nil]
    exact h

theorem Completes.close_stat {stack : List Opened} {done before : List Item} {ls : List Lexeme} {out : List Item}
    {pos : Position} (h : Completes stack (.stat pos done.reverse :: before) ls out) :
    Completes (⟨pos, .stat, before⟩ :: stack) done (mark closingBrace :: ls) out :=
  ⟨[], [], ls, rfl, rfl, by rwa [List.append_nil]⟩

theorem Completes.close_body {stack : List Opened} {done before test : List Item} {ls : List Lexeme}
    {out : List Item} {pos : Position} (h : Completes stack (.ifThen pos test done.reverse :: before) ls out) :
    Completes (⟨pos, .body test, before⟩ :: stack) done (mark closingBrace :: ls) out :=
  ⟨[], [], ls, rfl, rfl, by rwa [List.append_nil]⟩

/-- A run of the reader that succeeds goes over whole instructions and closes what is open. -/
theorem completes_of_items {eof : Position} {stack : List Opened} {done out : List Item} {ts : List Token}
    (hp : ∀ t ∈ ts, t.lexeme.Proper) (h : items eof stack done ts = .ok out) :
    Completes stack done (ts.map Token.lexeme) out := by
  -- the branches that end in a fault are closed at once; one case is left for each kind of step
  fun_induction items eof stack done ts <;> try (cases h; done)
  case case1 done =>
    cases h
    exact ⟨[], [], rfl, rfl, by rw [List.append_nil]⟩
  case case3 stack done t rest b hw ih =>
    have hrest := ih (fun x hx => hp x (List.mem_cons_of_mem t hx)) h
    have ht := Token.word?_eq_some_iff.1 hw
    rw [List.map_cons, ht]
    exact Completes.cons (t := .op b) rfl hrest
  case case4 stack done t w hw u rest hk i hi ih =>
    have hrest := ih (fun x hx => hp x (by simp [hx])) h
    have hu := item_toOption (t := t) (hp u (by simp)) hk
    rw [hi] at hu
    have hyield := Completes.cons (t := w.tree u.text) hu hrest
    rw [List.map_cons, List.map_cons, Token.word?_eq_some_iff.1 hw, Token.lexeme, hk]
    rwa [OperandWord.yield_tree] at hyield
  case case8 stack done t w hw u rest hu ih =>
    have hrest := ih (fun x hx => hp x (by simp [hx])) h
    rw [List.map_cons, List.map_cons, Token.word?_eq_some_iff.1 hw, Token.isMark_iff.1 hu]
    cases w with
    | stat => exact hrest.open_stat
    | ifWord => exact hrest.open_ifThen
  case case12 done t rest _ o stack ht ho ih =>
    have hrest := ih (fun x hx => hp x (List.mem_cons_of_mem t hx)) h
    obtain ⟨pos, part, before⟩ := o
    subst ho
    rw [List.map_cons, Token.isMark_iff.1 ht]
    exact hrest.close_stat
  case case13 done t rest _ o stack ht test ho ih =>
    have hrest := ih (fun x hx => hp x (List.mem_cons_of_mem t hx)) h
    obtain ⟨pos, part, before⟩ := o
    subst ho
    rw [List.map_cons, Token.isMark_iff.1 ht]
    exact hrest.close_body
  case case14 done t _ o stack ht ho u v rest hu hv ih =>
    have hrest := ih (fun x hx => hp x (by simp [hx])) h
    obtain ⟨pos, part, before⟩ := o
    subst ho
    rw [List.map_cons, List.map_cons, List.map_cons, Token.isMark_iff.1 ht, Token.isWord_iff.1 hu,
      Token.isMark_iff.1 hv]
    exact hrest.close_test

/-! ## Files -/

theorem names_sound {eof : Position} {ts rest : List Token} {vars : List Bytes}
    (h : names eof ts = .ok (vars, rest)) :
    ts.map Token.lexeme = vars.map (⟨.ident, ·⟩) ++ mark 0x3B :: rest.map Token.lexeme := by
  induction ts generalizing vars with
  | nil => cases h
  | cons t ts ih =>
    rw [names] at h
    split at h
    · rename_i hk
      cases hn : names eof ts with
      | error f => simp [hn, Functor.map, Except.map] at h
      | ok r =>
        obtain ⟨vars', rest'⟩ := r
        simp only [hn, Functor.map, Except.map, Except.ok.injEq, Prod.mk.injEq] at h
        obtain ⟨rfl, rfl⟩ := h
        rw [List.map_cons, ih hn, Token.lexeme, hk]
        rfl
    · split at h
      · rename_i hm
        cases h
        rw [List.map_cons, Token.isMark_iff.1 hm]
        rfl
      · cases h

theorem names_complete (eof : Position) {ts : List Token} {vars : List Bytes} {ls : List Lexeme}
    (h : ts.map Token.lexeme = vars.map (⟨.ident, ·⟩) ++ mark 0x3B :: ls) :
    ∃ rest, names eof ts = .ok (vars, rest) ∧ rest.map Token.lexeme = ls := by
  induction vars generalizing ts with
  | nil =>
    obtain ⟨t, rest, rfl, ht, hrest⟩ := List.map_eq_cons_iff.1 h
    refine ⟨rest, ?_, hrest⟩
    have hk : t.kind ≠ .ident := by
      rw [(Lexeme.mk.inj ht).1]
      decide
    rw [names, if_neg hk, if_pos (Token.isMark_iff.2 ht)]
  | cons x vars ih =>
    obtain ⟨t, ts, rfl, ht, hts⟩ := List.map_eq_cons_iff.1 h
    obtain ⟨rest, hn, hrest⟩ := ih hts
    obtain ⟨hk, rfl⟩ := Lexeme.mk.inj ht
    refine ⟨rest, ?_, hrest⟩
    rw [names, if_pos hk, hn]
    rfl

theorem items_sound {eof : Position} {ts : List Token} {body : List Item}
    (hp : ∀ l ∈ ts.map Token.lexeme, l.Proper) (h : items eof [] [] ts = .ok body) :
    ∃ trees, ts.map Token.lexeme = yieldList trees ∧ (instrs body).toOption = instrs? trees := by
  obtain ⟨is, trees, his, hts, rfl⟩ := completes_of_items (List.forall_mem_map.1 hp) h
  exact ⟨trees, hts, his⟩

theorem items_complete (eof : Position) {ts : List Token} {trees : List Tree} {xs : List Instr}
    (hp : ∀ l ∈ yieldList trees, l.Proper) (hts : ts.map Token.lexeme = yieldList trees)
    (hxs : instrs? trees = some xs) : ∃ body, items eof [] [] ts = .ok body ∧ instrs body = .ok xs := by
  rw [← List.append_nil (yieldList trees)] at hts
  obtain ⟨is, ts', htakes, his, hnil⟩ := takes_tree_list.2 trees xs hxs hp ts [] hts
  rw [List.map_eq_nil_iff.1 hnil] at htakes
  refine ⟨is, ?_, his⟩
  rw [htakes, items, List.append_nil, List.reverse_reverse]

/-- A file that is read has a derivation with the same declarations and instructions. -/
theorem file_sound {eof : Position} {ts : List Token} {vars : List Bytes} {body : List Item}
    (hp : ∀ l ∈ ts.map Token.lexeme, l.Proper) (h : file eof ts = .ok (vars, body)) :
    ∃ t : FileTree, t.yield = ts.map Token.lexeme ∧ t.declared.getD [] = vars ∧
      (instrs body).toOption = instrs? t.body := by
  cases ts with
  | nil =>
    cases h
    exact ⟨⟨none, []⟩, rfl, rfl, rfl⟩
  | cons t ts =>
    rw [file] at h
    split at h
    · rename_i hlet
      cases hn : names eof ts with
      | error f => simp [hn, bind, Except.bind] at h
      | ok r =>
        obtain ⟨vars', rest⟩ := r
        have hnames := names_sound hn
        have hrest : ∀ l ∈ rest.map Token.lexeme, l.Proper := fun l hl => hp l (by
          rw [List.map_cons, hnames]
          simp only [List.mem_cons, List.mem_append]
          exact .inr (.inr (.inr hl)))
        cases hi : items eof [] [] rest with
        | error f => simp [hn, hi, bind, Except.bind] at h
        | ok is =>
          simp only [hn, hi, bind, Except.bind, pure, Except.pure, Except.ok.injEq, Prod.mk.injEq] at h
          obtain ⟨rfl, rfl⟩ := h
          obtain ⟨trees, htrees, his⟩ := items_sound hrest hi
          refine ⟨⟨some vars', trees⟩, ?_, rfl, his⟩
          rw [FileTree.yield, List.map_cons, Token.isWord_iff.1 hlet, hnames, htrees]
    · cases hi : items eof [] [] (t :: ts) with
      | error f => simp [hi, Functor.map, Except.map] at h
      | ok is =>
        simp only [hi, Functor.map, Except.map, Except.ok.injEq, Prod.mk.injEq] at h
        obtain ⟨rfl, rfl⟩ := h
        obtain ⟨trees, htrees, his⟩ := items_sound hp hi
        exact ⟨⟨none, trees⟩, htrees.symm, rfl, his⟩

/-- A derivation whose literals have values is read as a file. -/
theorem file_complete (eof : Position) {ts : List Token} {t : FileTree} {p : Program}
    (hp : ∀ l ∈ ts.map Token.lexeme, l.Proper) (hts : t.yield = ts.map Token.lexeme) (h : t.program? = some p) :
    ∃ body, file eof ts = .ok (p.vars, body) ∧ instrs body = .ok p.body := by
  obtain ⟨xs, hxs, rfl⟩ := Option.map_eq_some_iff.1 h
  obtain ⟨declared, trees⟩ := t
  cases declared with
  | none =>
    replace hts : yieldList trees = ts.map Token.lexeme := hts
    rw [← hts] at hp
    obtain ⟨body, hbody, his⟩ := items_complete eof hp hts.symm hxs
    refine ⟨body, ?_, his⟩
    cases ts with
    | nil =>
      rw [items] at hbody
      rw [file, ← Except.ok.inj hbody]
      rfl
    | cons t ts =>
      have hlet : t.isWord (ascii "let") ≠ true := by
        intro e
        rw [List.map_cons, Token.isWord_iff.1 e] at hts
        exact yieldList_ne_let trees _ hts
      rw [file, if_neg hlet, hbody]
      rfl
  | some vars =>
    rw [FileTree.yield] at hts
    obtain ⟨t, ts, rfl, ht, hrest⟩ := List.map_eq_cons_iff.1 hts.symm
    obtain ⟨rest, hn, hrest⟩ := names_complete eof hrest
    have hbody : ∀ l ∈ yieldList trees, l.Proper := fun l hl => hp l (by
      rw [← hts]
      simp only [List.mem_cons, List.mem_append]
      exact .inr (.inr (.inr hl)))
    obtain ⟨body, hitems, his⟩ := items_complete eof hbody hrest hxs
    refine ⟨body, ?_, his⟩
    rw [file, if_pos (Token.isWord_iff.2 ht)]
    simp only [hn, hitems, bind, Except.bind]
    rfl

/-- The reader finds a program exactly for the texts with a derivation that has a value. -/
theorem parse_eq_ok_iff {text : Bytes} {p : Program} :
    parse text = .ok p ↔ ∃ t : FileTree, Derives text t ∧ t.program? = some p := by
  constructor
  · intro h
    rw [parse] at h
    cases hts : tokens text with
    | error u => simp [hts] at h
    | ok ts =>
      have hlex := tokens_lexes.1 ⟨ts, hts, rfl⟩
      have hproper : ∀ l ∈ (ts.filter Token.isSignificant).map Token.lexeme, l.Proper := by
        rw [map_lexeme_filter]
        exact fun l hl => hlex.proper l (List.mem_filter.1 hl).1
      simp only [hts] at h
      cases hfile : file (Position.advance {} text) (ts.filter Token.isSignificant) with
      | error f => simp [hfile, bind, Except.bind] at h
      | ok r =>
        obtain ⟨vars, is⟩ := r
        cases hbody : instrs is with
        | error f => simp [hfile, hbody, bind, Except.bind] at h
        | ok body =>
          simp only [hfile, hbody, bind, Except.bind, pure, Except.pure, Except.ok.injEq] at h
          subst h
          obtain ⟨t, hyield, rfl, hinstrs⟩ := file_sound hproper hfile
          rw [map_lexeme_filter] at hyield
          rw [hbody] at hinstrs
          exact ⟨t, ⟨_, hlex, hyield⟩, by rw [FileTree.program?, ← hinstrs]; rfl⟩
  · rintro ⟨t, ⟨ls, hlex, hyield⟩, hp⟩
    have hproper : ∀ l ∈ ls.filter Lexeme.isSignificant, l.Proper := fun l hl =>
      hlex.proper l (List.mem_filter.1 hl).1
    obtain ⟨ts, hts, rfl⟩ := tokens_lexes.2 hlex
    rw [← map_lexeme_filter] at hyield hproper
    obtain ⟨is, hfile, hbody⟩ := file_complete (Position.advance {} text) hproper hyield hp
    rw [parse, hts]
    simp only [hfile, hbody, bind, Except.bind]
    rfl

/-- **The reader accepts exactly its grammar.** A text is read as a program when it splits into lexemes by the
lexical rules and those that count have a derivation whose value is that program; every text has at most one
derivation, with or without a value. -/
theorem parse_exact (text : Bytes) :
    (∀ p, parse text = .ok p ↔ ∃ t : FileTree, Derives text t ∧ t.program? = some p) ∧
    ∀ t t' : FileTree, Derives text t → Derives text t' → t = t' :=
  ⟨fun _ => parse_eq_ok_iff, fun _ _ h h' => h.unique h'⟩

/-- Words of the grammar as names, no blanks around marks, a comment, an octal literal and an escape. -/
theorem parse_exact_keywords :
    let text := ascii "let get then;# x\nif\x7bpush 010\x7dthen\x7bset get print \"\\x41\"\x7d"
    let t : FileTree := ⟨some [ascii "get", ascii "then"],
      [.ifThen [.push (ascii "010")] [.set (ascii "get"), .print (ascii "\"\\x41\"")]]⟩
    parse text = .ok ⟨[ascii "get", ascii "then"], [.ifThen [.push 8] [.set (ascii "get"), .print [0x41]]]⟩ ∧
      Derives text t ∧ ∀ t', Derives text t' → t' = t := by
  intro text t
  have ht : Derives text t := by decide +kernel
  exact ⟨((parse_exact text).1 _).2 ⟨t, ht, rfl⟩, ht, fun t' ht' => (parse_exact text).2 t' t ht' ht⟩

end StackTape.Source

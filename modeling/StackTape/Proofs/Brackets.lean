import StackTape.Tape.Brackets

/-!
# Balanced code and its jump table

A text is `Balanced` when its brackets pair up; all other bytes are free. The matcher gets through a
balanced stretch with the open loops it had before (`matchFrom_balanced`), and it never touches an
entry again once both of its brackets are behind it (`matchFrom_keeps`). Together: the table joins
the two brackets around every balanced stretch (`partner?_around`), and every bracket of a balanced
text stands at such a stretch (`Balanced.around`). No other text is accepted (`ofCode_ok_iff`).
-/

namespace StackTape

/-- The byte is neither of the two brackets. -/
def Straight (b : UInt8) : Prop :=
  Symbol.ofByte? b ≠ some .enter ∧ Symbol.ofByte? b ≠ some .leave

/-- The brackets of the text pair up. -/
inductive Balanced : Bytes → Prop
  | nil : Balanced []
  | straight {b : UInt8} {t : Bytes} : Straight b → Balanced t → Balanced (b :: t)
  | loop {t u : Bytes} : Balanced t → Balanced u →
    Balanced (Symbol.enter.byte :: (t ++ Symbol.leave.byte :: u))

namespace Balanced

theorem append {t u : Bytes} (ht : Balanced t) (hu : Balanced u) : Balanced (t ++ u) := by
  induction ht with
  | nil => exact hu
  | straight hb _ ih => exact .straight hb ih
  | loop ht _ _ ih =>
    simp only [List.cons_append, List.append_assoc]
    exact .loop ht ih

theorem of_straight {t : Bytes} (h : ∀ b ∈ t, Straight b) : Balanced t := by
  induction t with
  | nil => exact .nil
  | cons b t ih => exact .straight (h b (by simp)) (ih fun c hc => h c (by simp [hc]))

/-- A balanced text in brackets. -/
theorem bracket {t : Bytes} (h : Balanced t) :
    Balanced (Symbol.enter.byte :: (t ++ [Symbol.leave.byte])) := .loop h .nil

end Balanced

theorem straight_act (a : Act) : Straight a.byte := by
  cases a <;> exact ⟨by decide, by decide⟩

theorem straight_of_not_primitive {b : UInt8} (h : isPrimitive b = false) : Straight b := by
  unfold isPrimitive at h
  cases hb : Symbol.ofByte? b with
  | none => simp [Straight, hb]
  | some s => simp [hb] at h

/-- A symbol that is no bracket is an action. -/
theorem Straight.eq_act {b : UInt8} (h : Straight b) (hprim : isPrimitive b = true) : ∃ a : Act, b = a.byte := by
  obtain ⟨symbol, hsymbol⟩ := Option.isSome_iff_exists.1 hprim
  obtain rfl := Symbol.ofByte?_eq_some_iff.1 hsymbol
  cases symbol with
  | act a => exact ⟨a, rfl⟩
  | enter => exact absurd hsymbol h.1
  | leave => exact absurd hsymbol h.2

theorem not_straight_iff {b : UInt8} : ¬ Straight b ↔ b = Symbol.enter.byte ∨ b = Symbol.leave.byte := by
  rw [Straight, ← Symbol.ofByte?_eq_some_iff, ← Symbol.ofByte?_eq_some_iff]
  by_cases h : Symbol.ofByte? b = some .enter <;> simp [h]

/-- Every bracket of a balanced text stands at one end of a balanced stretch. -/
theorem Balanced.around {code : Bytes} (h : Balanced code) {i : Nat} {b : UInt8} (hb : code[i]? = some b)
    (hbracket : ¬ Straight b) :
    ∃ pre t post, code = pre ++ Symbol.enter.byte :: (t ++ Symbol.leave.byte :: post) ∧ Balanced t ∧
      (i = pre.length ∨ i = pre.length + 1 + t.length) := by
  induction h generalizing i with
  | nil => simp at hb
  | @straight c t hc _ ih =>
    cases i with
    | zero =>
      obtain rfl : c = b := by simpa using hb
      exact absurd hc hbracket
    | succ i =>
      obtain ⟨pre, u, post, rfl, hu, hi⟩ := ih (by simpa using hb)
      exact ⟨c :: pre, u, post, rfl, hu, by simp only [List.length_cons]; omega⟩
  | @loop t u ht _ iht ihu =>
    rcases Nat.lt_trichotomy i (t.length + 1) with hlt | rfl | hgt
    · cases i with
      | zero => exact ⟨[], t, u, rfl, ht, .inl rfl⟩
      | succ i =>
        rw [List.getElem?_cons_succ, List.getElem?_append_left (by omega)] at hb
        obtain ⟨pre, v, post, rfl, hv, hi⟩ := iht hb
        exact ⟨Symbol.enter.byte :: pre, v, post ++ Symbol.leave.byte :: u, by simp, hv,
          by simp only [List.length_cons]; omega⟩
    · exact ⟨[], t, u, rfl, ht, .inr (by simp [Nat.add_comm])⟩
    · obtain ⟨j, rfl⟩ := Nat.exists_eq_add_of_lt hgt
      rw [show t.length + 1 + j + 1 = t.length + (j + 1) + 1 by omega, List.getElem?_cons_succ,
        List.getElem?_append_right (by omega), Nat.add_sub_cancel_left, List.getElem?_cons_succ] at hb
      obtain ⟨pre, v, post, rfl, hv, hi⟩ := ihu hb
      exact ⟨Symbol.enter.byte :: (t ++ Symbol.leave.byte :: pre), v, post, by simp, hv,
        by simp only [List.length_cons, List.length_append]; omega⟩

mutual

theorem Op.balanced_text : (op : Op) → Balanced op.text
  | .act a => by
    rw [Op.text]
    exact .straight (straight_act a) .nil
  | .loop body => by
    rw [Op.text]
    exact (Block.balanced_text body).bracket

/-- Structured code prints as balanced text. -/
theorem Block.balanced_text : (b : Block) → Balanced (Block.text b)
  | [] => by
    rw [Block.text]
    exact .nil
  | op :: rest => by
    rw [Block.text]
    exact (Op.balanced_text op).append (Block.balanced_text rest)

end

/-! ## Texts that end more loops than they start -/

/-- The text ends `n` loops that it does not start, and is balanced before, between and after their ends. -/
inductive Closes : Nat → Bytes → Prop
  | balanced {t : Bytes} : Balanced t → Closes 0 t
  | leave {n : Nat} {t u : Bytes} : Balanced t → Closes n u → Closes (n + 1) (t ++ Symbol.leave.byte :: u)

namespace Closes

theorem prepend {n : Nat} {t u : Bytes} (ht : Balanced t) (hu : Closes n u) : Closes n (t ++ u) := by
  cases hu with
  | balanced hu => exact .balanced (ht.append hu)
  | leave hu hv =>
    rw [← List.append_assoc]
    exact .leave (ht.append hu) hv

/-- A loop that is started here takes the first of the ends. -/
theorem enter {n : Nat} {u : Bytes} (h : Closes (n + 1) u) : Closes n (Symbol.enter.byte :: u) := by
  cases h with
  | leave ht hv =>
    rename_i t v
    have := prepend ht.bracket hv
    simpa using this

end Closes

namespace JumpTable

/-! ## Single bytes -/

theorem matchFrom_cons (pos : Nat) (opened : List Nat) (tb : JumpTable) (b : UInt8) (bs : Bytes) :
    matchFrom pos opened tb (b :: bs) =
      match Symbol.ofByte? b, opened with
      | some .enter, opened => matchFrom (pos + 1) (pos :: opened) tb bs
      | some .leave, [] => .error pos
      | some .leave, i :: rest => matchFrom (pos + 1) rest (tb.link i pos) bs
      | _, opened => matchFrom (pos + 1) opened tb bs := by
  cases opened <;> rw [matchFrom.eq_def] <;> simp only <;>
    rcases Symbol.ofByte? b with _ | (a | _ | _) <;> rfl

theorem matchFrom_straight {b : UInt8} (h : Straight b) (pos : Nat) (opened : List Nat)
    (tb : JumpTable) (bs : Bytes) :
    matchFrom pos opened tb (b :: bs) = matchFrom (pos + 1) opened tb bs := by
  rw [matchFrom_cons]
  obtain ⟨h₁, h₂⟩ := h
  rcases hs : Symbol.ofByte? b with _ | (a | _ | _)
  · rfl
  · rfl
  · exact absurd hs h₁
  · exact absurd hs h₂

theorem matchFrom_enter (pos : Nat) (opened : List Nat) (tb : JumpTable) (bs : Bytes) :
    matchFrom pos opened tb (Symbol.enter.byte :: bs) = matchFrom (pos + 1) (pos :: opened) tb bs := by
  rw [matchFrom_cons, Symbol.ofByte?_byte]

theorem matchFrom_leave (pos i : Nat) (opened : List Nat) (tb : JumpTable) (bs : Bytes) :
    matchFrom pos (i :: opened) tb (Symbol.leave.byte :: bs) =
      matchFrom (pos + 1) opened (tb.link i pos) bs := by
  rw [matchFrom_cons, Symbol.ofByte?_byte]

@[simp] theorem size_link (tb : JumpTable) (i j : Nat) : (tb.link i j).size = tb.size := by
  simp [link]

theorem getElem?_link_ne {tb : JumpTable} {i j k : Nat} (hi : k ≠ i) (hj : k ≠ j) :
    (tb.link i j)[k]? = tb[k]? := by
  rw [link, Array.getElem?_setIfInBounds_ne (Ne.symm hj), Array.getElem?_setIfInBounds_ne (Ne.symm hi)]

theorem partner?_link_left {tb : JumpTable} {i j : Nat} (hi : i < tb.size) (hij : i ≠ j) :
    (tb.link i j).partner? i = some j := by
  rw [partner?, link, Array.getElem?_setIfInBounds_ne (Ne.symm hij)]
  simp [Array.getElem?_setIfInBounds_self_of_lt hi]

theorem partner?_link_right {tb : JumpTable} {i j : Nat} (hj : j < tb.size) :
    (tb.link i j).partner? j = some i := by
  rw [partner?, link]
  simp [hj]

/-! ## Stretches of code -/

/-- The matcher leaves a balanced stretch with the loops open that were open before. -/
theorem matchFrom_balanced {t : Bytes} (h : Balanced t) (pos : Nat) (opened : List Nat)
    (tb : JumpTable) (rest : Bytes) :
    ∃ tb' : JumpTable, tb'.size = tb.size ∧
      matchFrom pos opened tb (t ++ rest) = matchFrom (pos + t.length) opened tb' rest := by
  induction h generalizing pos opened tb rest with
  | nil => exact ⟨tb, rfl, rfl⟩
  | @straight b t hb _ ih =>
    obtain ⟨tb', hsize, heq⟩ := ih (pos + 1) opened tb rest
    refine ⟨tb', hsize, ?_⟩
    rw [List.cons_append, matchFrom_straight hb, heq, List.length_cons]
    congr 1
    omega
  | @loop t u _ _ iht ihu =>
    obtain ⟨tb₁, hsize₁, heq₁⟩ := iht (pos + 1) (pos :: opened) tb (Symbol.leave.byte :: (u ++ rest))
    obtain ⟨tb₂, hsize₂, heq₂⟩ :=
      ihu (pos + 1 + t.length + 1) opened (tb₁.link pos (pos + 1 + t.length)) rest
    refine ⟨tb₂, by rw [hsize₂, size_link, hsize₁], ?_⟩
    simp only [List.cons_append, List.append_assoc, List.length_cons, List.length_append]
    rw [matchFrom_enter, heq₁, matchFrom_leave, heq₂]
    congr 1
    omega

/-- A balanced text is accepted. -/
theorem ofCode_of_balanced {code : Bytes} (h : Balanced code) : ∃ jumps, ofCode code = .ok jumps := by
  obtain ⟨tb, _, heq⟩ := matchFrom_balanced h 0 [] (Array.replicate code.length none) []
  refine ⟨tb, ?_⟩
  rw [ofCode]
  rw [List.append_nil] at heq
  rw [heq, matchFrom]

theorem closes_of_matchFrom {bs : Bytes} {pos : Nat} {opened : List Nat} {tb jumps : JumpTable}
    (h : matchFrom pos opened tb bs = .ok jumps) : Closes opened.length bs := by
  induction bs generalizing pos opened tb with
  | nil =>
    cases opened with
    | nil => exact .balanced .nil
    | cons => rw [matchFrom] at h; cases h
  | cons b bs ih =>
    by_cases hb : Straight b
    · rw [matchFrom_straight hb] at h
      exact .prepend (.straight hb .nil) (ih h)
    · rcases not_straight_iff.1 hb with rfl | rfl
      · rw [matchFrom_enter] at h
        exact (ih h).enter
      · cases opened with
        | nil => rw [matchFrom_cons, Symbol.ofByte?_byte] at h; cases h
        | cons i opened =>
          rw [matchFrom_leave] at h
          exact .leave .nil (ih h)

/-- **Exactly the balanced texts are accepted.** -/
theorem ofCode_ok_iff {code : Bytes} : (∃ jumps, ofCode code = .ok jumps) ↔ Balanced code := by
  constructor
  · rintro ⟨jumps, h⟩
    cases closes_of_matchFrom h with
    | balanced hcode => exact hcode
  · exact ofCode_of_balanced

/-- The open loops: the innermost first, all of them behind the position. -/
def Opened (pos : Nat) (opened : List Nat) : Prop :=
  opened.Pairwise (· > ·) ∧ ∀ i ∈ opened, i < pos

theorem Opened.push {pos : Nat} {opened : List Nat} (h : Opened pos opened) :
    Opened (pos + 1) (pos :: opened) := by
  refine ⟨List.pairwise_cons.2 ⟨h.2, h.1⟩, fun i hi => ?_⟩
  rcases List.mem_cons.1 hi with rfl | hi
  · omega
  · have := h.2 i hi; omega

theorem Opened.pop {pos i : Nat} {opened : List Nat} (h : Opened pos (i :: opened)) :
    Opened (pos + 1) opened := by
  refine ⟨(List.pairwise_cons.1 h.1).2, fun j hj => ?_⟩
  have := h.2 j (by simp [hj]); omega

theorem Opened.next {pos : Nat} {opened : List Nat} (h : Opened pos opened) :
    Opened (pos + 1) opened := ⟨h.1, fun i hi => by have := h.2 i hi; omega⟩

/-- What a stretch of accepted code hands to the code after it. -/
theorem matchFrom_split {pre : Bytes} {pos : Nat} {opened : List Nat} {tb jumps : JumpTable}
    {rest : Bytes} (h : matchFrom pos opened tb (pre ++ rest) = .ok jumps) (ho : Opened pos opened) :
    ∃ opened' tb', Opened (pos + pre.length) opened' ∧ tb'.size = tb.size ∧
      matchFrom (pos + pre.length) opened' tb' rest = .ok jumps := by
  induction pre generalizing pos opened tb with
  | nil => exact ⟨opened, tb, ho, rfl, h⟩
  | cons b pre ih =>
    rw [List.length_cons, show pos + (pre.length + 1) = pos + 1 + pre.length by omega]
    rw [List.cons_append, matchFrom_cons] at h
    split at h
    · exact ih h ho.push
    · cases h
    · obtain ⟨opened', tb', h₁, h₂, h₃⟩ := ih h ho.pop
      exact ⟨opened', tb', h₁, by rw [h₂, size_link], h₃⟩
    · exact ih h ho.next

/-- Only brackets get partners: an entry that is neither that of an open loop nor that of a bracket to come is final. -/
theorem matchFrom_untouched {bs : Bytes} {pos : Nat} {opened : List Nat} {tb jumps : JumpTable}
    (h : matchFrom pos opened tb bs = .ok jumps) {k : Nat} (hko : k ∉ opened)
    (hk : ∀ n b, bs[n]? = some b → k = pos + n → Straight b) : jumps[k]? = tb[k]? := by
  induction bs generalizing pos opened tb with
  | nil =>
    cases opened with
    | nil => rw [matchFrom] at h; cases h; rfl
    | cons => rw [matchFrom] at h; cases h
  | cons b bs ih =>
    have hrest : ∀ n c, bs[n]? = some c → k = pos + 1 + n → Straight c := by
      intro n c hc hn
      exact hk (n + 1) c (by simpa using hc) (by omega)
    by_cases hb : Straight b
    · rw [matchFrom_straight hb] at h
      exact ih h hko hrest
    · have hne : k ≠ pos := fun he => hb (hk 0 b (by simp) (by omega))
      rcases not_straight_iff.1 hb with rfl | rfl
      · rw [matchFrom_enter] at h
        exact ih h (by simp [hne, hko]) hrest
      · cases opened with
        | nil => rw [matchFrom_cons, Symbol.ofByte?_byte] at h; cases h
        | cons i opened =>
          rw [matchFrom_leave] at h
          rw [List.mem_cons, not_or] at hko
          rw [ih h hko.2 hrest, getElem?_link_ne hko.1 hne]

/-- An entry behind the matcher that belongs to no open loop is final. -/
theorem matchFrom_keeps {bs : Bytes} {pos : Nat} {opened : List Nat} {tb jumps : JumpTable}
    (h : matchFrom pos opened tb bs = .ok jumps) {k : Nat} (hk : k < pos) (hko : k ∉ opened) :
    jumps[k]? = tb[k]? :=
  matchFrom_untouched h hko fun n _ _ hn => absurd hn (by omega)

/-- **The table joins the two brackets around every balanced stretch.** -/
theorem partner?_around {pre t post : Bytes} {jumps : JumpTable}
    (h : ofCode (pre ++ Symbol.enter.byte :: (t ++ Symbol.leave.byte :: post)) = .ok jumps)
    (ht : Balanced t) :
    jumps.partner? pre.length = some (pre.length + 1 + t.length) ∧
      jumps.partner? (pre.length + 1 + t.length) = some pre.length := by
  rw [ofCode] at h
  obtain ⟨opened, tb, ho, hsize, h⟩ := matchFrom_split h ⟨.nil, by simp⟩
  rw [Nat.zero_add] at h ho
  obtain ⟨tb', hsize', heq⟩ := matchFrom_balanced ht (pre.length + 1) (pre.length :: opened) tb
    (Symbol.leave.byte :: post)
  rw [matchFrom_enter, heq, matchFrom_leave] at h
  have hlen : pre.length + 1 + t.length < tb'.size := by
    rw [hsize', hsize]; simp; omega
  -- no loop that is still open starts at either bracket
  have hout : ∀ k, pre.length ≤ k → k ∉ opened := fun k hk hmem => by
    have := ho.2 k hmem; omega
  constructor
  · rw [partner?, matchFrom_keeps h (by omega) (hout _ (by omega))]
    exact partner?_link_left (by omega) (by omega)
  · rw [partner?, matchFrom_keeps h (by omega) (hout _ (by omega))]
    exact partner?_link_right hlen

end JumpTable

end StackTape

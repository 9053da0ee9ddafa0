import StackTape.Proofs.Brackets

/-!
# The matching of brackets is exact

A jump table joins the brackets that enclose a balanced stretch, and no others (`partner?_eq_some_iff`). What a
refused text looks like is read off the loops that are open when the matcher stops. `Starts ps t` says that they are
those at `ps`: around them the text `t` is balanced. Every byte keeps it (`Starts.append`, `Starts.push`,
`Starts.pop`), so it holds wherever the matcher stops (`matchFrom_error`). The position that is reported is the first
bracket by which more loops are ended than started, or else the last bracket that starts a loop without an end.
-/

namespace StackTape

/-! ## Counting brackets -/

/-- How many loops the text starts. -/
def enters (t : Bytes) : Nat := t.count Symbol.enter.byte

/-- How many loops the text ends. -/
def leaves (t : Bytes) : Nat := t.count Symbol.leave.byte

@[simp] theorem enters_nil : enters [] = 0 := rfl
@[simp] theorem leaves_nil : leaves [] = 0 := rfl

@[simp] theorem enters_append (t u : Bytes) : enters (t ++ u) = enters t + enters u := List.count_append
@[simp] theorem leaves_append (t u : Bytes) : leaves (t ++ u) = leaves t + leaves u := List.count_append

@[simp] theorem enters_enter (t : Bytes) : enters (Symbol.enter.byte :: t) = enters t + 1 := by simp [enters]
@[simp] theorem leaves_enter (t : Bytes) : leaves (Symbol.enter.byte :: t) = leaves t := by
  rw [leaves, leaves, List.count_cons_of_ne (by decide)]

@[simp] theorem enters_leave (t : Bytes) : enters (Symbol.leave.byte :: t) = enters t := by
  rw [enters, enters, List.count_cons_of_ne (by decide)]
@[simp] theorem leaves_leave (t : Bytes) : leaves (Symbol.leave.byte :: t) = leaves t + 1 := by simp [leaves]

theorem Straight.counts {b : UInt8} (hb : Straight b) (t : Bytes) :
    enters (b :: t) = enters t ∧ leaves (b :: t) = leaves t := by
  have hne : b ≠ Symbol.enter.byte ∧ b ≠ Symbol.leave.byte := by
    rw [← not_or, ← not_straight_iff]
    exact not_not_intro hb
  exact ⟨List.count_cons_of_ne hne.1, List.count_cons_of_ne hne.2⟩

/-- No front of the text ends more loops than it starts. -/
def Ballot (t : Bytes) : Prop := ∀ n, leaves (t.take n) ≤ enters (t.take n)

/-- The second part may end the loops that the first one leaves open. -/
theorem Ballot.append {t u : Bytes} (ht : Ballot t)
    (hu : ∀ n, leaves t + leaves (u.take n) ≤ enters t + enters (u.take n)) : Ballot (t ++ u) := by
  intro n
  rw [List.take_append]
  by_cases hn : n ≤ t.length
  · simpa [Nat.sub_eq_zero_of_le hn] using ht n
  · rw [List.take_of_length_le (by omega), leaves_append, enters_append]
    exact hu _

namespace Balanced

variable {t u : Bytes}

theorem leaves_eq (h : Balanced t) : leaves t = enters t := by
  induction h with
  | nil => rfl
  | straight hb _ ih => rw [(hb.counts _).1, (hb.counts _).2, ih]
  | loop _ _ iht ihu => simp [iht, ihu]; omega

theorem ballot (h : Balanced t) : Ballot t := by
  induction h with
  | nil => intro n; simp
  | straight hb _ ih =>
    intro n
    cases n with
    | zero => simp
    | succ n =>
      rw [List.take_succ_cons, (hb.counts _).1, (hb.counts _).2]
      exact ih n
  | @loop t u ht _ iht ihu =>
    have hopen : Ballot (Symbol.enter.byte :: t) := by
      intro n
      cases n with
      | zero => simp
      | succ n => have := iht n; simp; omega
    refine hopen.append (u := Symbol.leave.byte :: u) fun n => ?_
    -- the loop that is open behind `t` is the one that ends here
    cases n with
    | zero => simp [ht.leaves_eq]
    | succ n => have := ihu n; simp [ht.leaves_eq]; omega

end Balanced

/-! ## Partners -/

/-- The brackets at `i` and `j` are partners: one starts a loop, the other ends one, and the stretch between them is
balanced. -/
def Encloses (code : Bytes) (i j : Nat) : Prop :=
  i < j ∧ code[i]? = some Symbol.enter.byte ∧ code[j]? = some Symbol.leave.byte ∧
    Balanced ((code.take j).drop (i + 1))

/-- A bracket that starts a loop and has no partner. -/
def Unended (code : Bytes) (i : Nat) : Prop := code[i]? = some Symbol.enter.byte ∧ ∀ j, ¬ Encloses code i j

/-- A bracket by which the text has ended more loops than it has started. -/
def Surplus (code : Bytes) (j : Nat) : Prop :=
  code[j]? = some Symbol.leave.byte ∧ enters (code.take (j + 1)) < leaves (code.take (j + 1))

theorem Ballot.not_surplus {code : Bytes} (h : Ballot code) (j : Nat) : ¬ Surplus code j := by
  intro ⟨_, hlt⟩
  exact absurd (h (j + 1)) (by omega)

theorem Balanced.surplus {t : Bytes} (h : Balanced t) (u : Bytes) :
    Surplus (t ++ Symbol.leave.byte :: u) t.length := by
  refine ⟨by simp, ?_⟩
  rw [List.take_length_add_append]
  simp [h.leaves_eq]

theorem split_getElem? {code : Bytes} {i : Nat} {b : UInt8} (h : code[i]? = some b) :
    code = code.take i ++ b :: code.drop (i + 1) := by
  obtain ⟨hi, rfl⟩ := List.getElem?_eq_some_iff.1 h
  rw [List.getElem_cons_drop, List.take_append_drop]

theorem encloses_iff {code : Bytes} {i j : Nat} :
    Encloses code i j ↔ ∃ pre t post, code = pre ++ Symbol.enter.byte :: (t ++ Symbol.leave.byte :: post) ∧
      Balanced t ∧ i = pre.length ∧ j = pre.length + 1 + t.length := by
  constructor
  · rintro ⟨hij, hi, hj, hbal⟩
    obtain ⟨hlt, _⟩ := List.getElem?_eq_some_iff.1 hj
    have hfront : (code.take j)[i]? = some Symbol.enter.byte := by rw [List.getElem?_take_of_lt hij, hi]
    have hsplit := split_getElem? hfront
    rw [List.take_take, Nat.min_eq_left (Nat.le_of_lt hij)] at hsplit
    refine ⟨code.take i, (code.take j).drop (i + 1), code.drop (j + 1), ?_, hbal, by simp; omega, by simp; omega⟩
    calc code = code.take j ++ Symbol.leave.byte :: code.drop (j + 1) := split_getElem? hj
      _ = code.take i ++ Symbol.enter.byte :: (code.take j).drop (i + 1) ++ Symbol.leave.byte :: code.drop (j + 1) := by
        rw [← hsplit]
      _ = _ := by simp
  · rintro ⟨pre, t, post, rfl, hbal, rfl, rfl⟩
    have hcode : pre ++ Symbol.enter.byte :: (t ++ Symbol.leave.byte :: post) =
        (pre ++ Symbol.enter.byte :: t) ++ Symbol.leave.byte :: post := by simp
    have hlen : pre.length + 1 + t.length = (pre ++ Symbol.enter.byte :: t).length := by simp; omega
    refine ⟨by omega, by simp, by rw [hcode, hlen]; simp, ?_⟩
    rw [hcode, hlen, List.take_left, List.drop_length_add_append]
    exact hbal

namespace Encloses

variable {code : Bytes} {i j : Nat}

/-- Partners are partners wherever their text stands. -/
theorem behind (h : Encloses code i j) (pre : Bytes) : Encloses (pre ++ code) (pre.length + i) (pre.length + j) := by
  obtain ⟨front, t, post, rfl, ht, rfl, rfl⟩ := encloses_iff.1 h
  exact encloses_iff.2 ⟨pre ++ front, t, post, by simp, ht, by simp, by simp; omega⟩

theorem not_start (h : Encloses code j i) : code[i]? ≠ some Symbol.enter.byte := by
  intro hi
  rw [h.2.2.1] at hi
  cases hi

end Encloses

/-- In a balanced text every bracket has a partner. -/
theorem Balanced.encloses {code : Bytes} (h : Balanced code) {i : Nat} {b : UInt8} (hb : code[i]? = some b)
    (hbracket : ¬ Straight b) : ∃ j, Encloses code i j ∨ Encloses code j i := by
  obtain ⟨pre, t, post, hcode, ht, hi⟩ := h.around hb hbracket
  have hpair : Encloses code pre.length (pre.length + 1 + t.length) := encloses_iff.2 ⟨pre, t, post, hcode, ht, rfl, rfl⟩
  rcases hi with rfl | rfl
  · exact ⟨_, .inl hpair⟩
  · exact ⟨_, .inr hpair⟩

theorem Balanced.exists_end {code : Bytes} (h : Balanced code) {i : Nat} (hi : code[i]? = some Symbol.enter.byte) :
    ∃ j, Encloses code i j := by
  obtain ⟨j, hij | hji⟩ := h.encloses hi (not_straight_iff.2 (.inl rfl))
  · exact ⟨j, hij⟩
  · exact absurd hi hji.not_start

/-! ## Loops that are open -/

/-- The text starts loops at `ps`, the last one first, that it does not end; it is balanced before, between and after
their starts. -/
inductive Starts : List Nat → Bytes → Prop
  | balanced {t : Bytes} : Balanced t → Starts [] t
  | enter {ps : List Nat} {t u : Bytes} : Starts ps t → Balanced u →
    Starts (t.length :: ps) (t ++ Symbol.enter.byte :: u)

namespace Starts

variable {ps : List Nat} {t u : Bytes}

theorem append (h : Starts ps t) (hu : Balanced u) : Starts ps (t ++ u) := by
  cases h with
  | balanced ht => exact .balanced (ht.append hu)
  | enter ht hv =>
    rw [List.append_assoc, List.cons_append]
    exact .enter ht (hv.append hu)

theorem push (h : Starts ps t) : Starts (t.length :: ps) (t ++ [Symbol.enter.byte]) := .enter h .nil

/-- The last of the open loops is ended. -/
theorem pop {i : Nat} (h : Starts (i :: ps) t) : Starts ps (t ++ [Symbol.leave.byte]) := by
  cases h with
  | @enter _ t u ht hu =>
    rw [List.append_assoc, List.cons_append]
    exact ht.append hu.bracket

theorem enters_eq (h : Starts ps t) : enters t = leaves t + ps.length := by
  induction h with
  | balanced ht => simp [ht.leaves_eq]
  | enter _ hu ih => simp [ih, hu.leaves_eq]; omega

theorem ballot (h : Starts ps t) : Ballot t := by
  induction h with
  | balanced ht => exact ht.ballot
  | @enter ps t u ht hu ih =>
    refine ih.append fun n => ?_
    have hle := ht.enters_eq
    cases n with
    | zero => simp; omega
    | succ n => have := hu.ballot n; simp; omega

end Starts

namespace JumpTable

/-- **Where the matcher stops.** It stops at an end of a loop behind a balanced text, or the whole text has loops
that stay open, and it reports the last of them. -/
theorem matchFrom_error {pre bs : Bytes} {opened : List Nat} {tb : JumpTable} {pos : Nat}
    (h : matchFrom pre.length opened tb bs = .error pos) (hopen : Starts opened pre) :
    (∃ t u, pre ++ bs = t ++ Symbol.leave.byte :: u ∧ Balanced t ∧ pos = t.length) ∨
      ∃ ps, Starts (pos :: ps) (pre ++ bs) := by
  induction bs generalizing pre opened tb with
  | nil =>
    cases opened with
    | nil => rw [matchFrom] at h; cases h
    | cons i opened =>
      rw [matchFrom] at h
      cases h
      exact .inr ⟨opened, by simpa using hopen⟩
  | cons b bs ih =>
    have hlen : pre.length + 1 = (pre ++ [b]).length := by simp
    by_cases hb : Straight b
    · rw [matchFrom_straight hb, hlen] at h
      simpa using ih h (hopen.append (.straight hb .nil))
    · rcases not_straight_iff.1 hb with rfl | rfl
      · rw [matchFrom_enter, hlen] at h
        simpa using ih h hopen.push
      · cases opened with
        | nil =>
          rw [matchFrom_cons, Symbol.ofByte?_byte] at h
          cases h
          cases hopen with
          | balanced hpre => exact .inl ⟨pre, bs, rfl, hpre, rfl⟩
        | cons i opened =>
          rw [matchFrom_leave, hlen] at h
          simpa using ih h hopen.pop

variable {code : Bytes} {jumps : JumpTable} {i j pos : Nat}

theorem ofCode_error (h : ofCode code = .error pos) :
    (∃ t u, code = t ++ Symbol.leave.byte :: u ∧ Balanced t ∧ pos = t.length) ∨ ∃ ps, Starts (pos :: ps) code := by
  have hrun : matchFrom ([] : Bytes).length [] (Array.replicate code.length none) code = .error pos := h
  exact matchFrom_error hrun (.balanced .nil)

/-- **A text is balanced when its brackets count up.** -/
theorem balanced_iff : Balanced code ↔ Ballot code ∧ leaves code = enters code := by
  constructor
  · intro h
    exact ⟨h.ballot, h.leaves_eq⟩
  · rintro ⟨hballot, heq⟩
    cases hmatch : ofCode code with
    | ok jumps => exact ofCode_ok_iff.1 ⟨jumps, hmatch⟩
    | error pos =>
      rcases ofCode_error hmatch with ⟨t, u, rfl, ht, _⟩ | ⟨ps, hstarts⟩
      · exact absurd (ht.surplus u) (hballot.not_surplus _)
      · have hcount := hstarts.enters_eq
        simp at hcount
        omega

/-- Only brackets have an entry in the table. -/
theorem partner?_straight (h : ofCode code = .ok jumps) (hi : ∀ b, code[i]? = some b → Straight b) :
    jumps.partner? i = none := by
  have hempty : jumps[i]? = (Array.replicate code.length (none : Option Nat))[i]? := by
    refine matchFrom_untouched h (by simp) fun n b hb hn => hi b ?_
    rwa [hn, Nat.zero_add]
  rw [partner?, hempty, Array.getElem?_replicate]
  split <;> rfl

/-- **The table joins partners and nothing else.** -/
theorem partner?_eq_some_iff (h : ofCode code = .ok jumps) :
    jumps.partner? i = some j ↔ Encloses code i j ∨ Encloses code j i := by
  have hjoin : ∀ {i j}, Encloses code i j → jumps.partner? i = some j ∧ jumps.partner? j = some i := by
    intro i j hij
    obtain ⟨pre, t, post, rfl, ht, rfl, rfl⟩ := encloses_iff.1 hij
    exact partner?_around h ht
  constructor
  · intro hij
    by_cases hstraight : ∀ b, code[i]? = some b → Straight b
    · rw [partner?_straight h hstraight] at hij
      cases hij
    obtain ⟨b, hb, hbracket⟩ : ∃ b, code[i]? = some b ∧ ¬ Straight b := by simpa using hstraight
    obtain ⟨k, hk | hk⟩ := (ofCode_ok_iff.1 ⟨jumps, h⟩).encloses hb hbracket
    · obtain rfl : k = j := Option.some.inj ((hjoin hk).1.symm.trans hij)
      exact .inl hk
    · obtain rfl : k = j := Option.some.inj ((hjoin hk).2.symm.trans hij)
      exact .inr hk
  · rintro (hij | hji)
    · exact (hjoin hij).1
    · exact (hjoin hji).2

/-- The brackets are what has a partner. -/
theorem exists_partner?_iff (h : ofCode code = .ok jumps) :
    (∃ j, jumps.partner? i = some j) ↔ code[i]? = some Symbol.enter.byte ∨ code[i]? = some Symbol.leave.byte := by
  constructor
  · rintro ⟨j, hj⟩
    rcases (partner?_eq_some_iff h).1 hj with ⟨_, hi, _⟩ | ⟨_, _, hi, _⟩
    · exact .inl hi
    · exact .inr hi
  · intro hi
    obtain ⟨b, hb, hbracket⟩ : ∃ b, code[i]? = some b ∧ ¬ Straight b := by
      rcases hi with hi | hi
      · exact ⟨_, hi, not_straight_iff.2 (.inl rfl)⟩
      · exact ⟨_, hi, not_straight_iff.2 (.inr rfl)⟩
    obtain ⟨j, hj⟩ := (ofCode_ok_iff.1 ⟨jumps, h⟩).encloses hb hbracket
    exact ⟨j, (partner?_eq_some_iff h).2 hj⟩

/-- The last of the loops that stay open is the last bracket that starts a loop without an end. -/
theorem unended_of_starts {ps : List Nat} (h : Starts (pos :: ps) code) :
    Unended code pos ∧ ∀ i, Unended code i → i ≤ pos := by
  cases h with
  | @enter _ t u ht hu =>
    refine ⟨⟨by simp, fun j hj => ?_⟩, fun i hi => ?_⟩
    · obtain ⟨pre, v, post, hcode, hv, hpre, _⟩ := encloses_iff.1 hj
      obtain ⟨rfl, hcons⟩ := List.append_inj hcode hpre
      obtain rfl : u = v ++ Symbol.leave.byte :: post := by simpa using hcons
      exact hu.ballot.not_surplus _ (hv.surplus post)
    · refine Nat.le_of_not_lt fun hlt => ?_
      obtain ⟨k, rfl⟩ : ∃ k, i = (t ++ [Symbol.enter.byte]).length + k := ⟨i - (t.length + 1), by simp; omega⟩
      have hsplit : t ++ Symbol.enter.byte :: u = (t ++ [Symbol.enter.byte]) ++ u := by simp
      rw [hsplit] at hi
      have hstart := hi.1
      rw [List.getElem?_append_right (by omega), Nat.add_sub_cancel_left] at hstart
      obtain ⟨j, hj⟩ := hu.exists_end hstart
      exact hi.2 _ (hj.behind _)

/-- **Matching brackets is exact.** A text is accepted just when it is balanced, which is to say that no front of it
ends more loops than it starts and that the whole text ends as many. The table of an accepted text has entries for
the brackets alone, it leads back from every partner, and it leads from the start of a loop to the end with a
balanced stretch in between. A refused text is refused at the first bracket by which it has ended more loops than it
has started, or if there is none, at the last bracket that starts a loop and has no partner. -/
theorem ofCode_exact (code : Bytes) :
    ((∃ jumps, ofCode code = .ok jumps) ↔ Balanced code) ∧
    (Balanced code ↔ (∀ n, leaves (code.take n) ≤ enters (code.take n)) ∧ leaves code = enters code) ∧
    (∀ jumps, ofCode code = .ok jumps →
      (∀ i, (∃ j, jumps.partner? i = some j) ↔
        code[i]? = some Symbol.enter.byte ∨ code[i]? = some Symbol.leave.byte) ∧
      (∀ i j, jumps.partner? i = some j → jumps.partner? j = some i) ∧
      ∀ i j, code[i]? = some Symbol.enter.byte → (jumps.partner? i = some j ↔ Encloses code i j)) ∧
    ∀ pos, ofCode code = .error pos →
      (Surplus code pos ∧ ∀ j < pos, ¬ Surplus code j) ∨
      ((∀ j, ¬ Surplus code j) ∧ Unended code pos ∧ ∀ i, Unended code i → i ≤ pos) := by
  refine ⟨ofCode_ok_iff, balanced_iff, fun jumps h => ⟨fun i => exists_partner?_iff h, ?_, ?_⟩, fun pos h => ?_⟩
  · intro i j hij
    exact (partner?_eq_some_iff h).2 ((partner?_eq_some_iff h).1 hij).symm
  · intro i j hi
    rw [partner?_eq_some_iff h]
    exact ⟨fun hpair => hpair.resolve_right fun hji => hji.not_start hi, .inl⟩
  · rcases ofCode_error h with ⟨t, u, rfl, ht, rfl⟩ | ⟨ps, hstarts⟩
    · refine .inl ⟨ht.surplus u, fun j hj hsurplus => ?_⟩
      have hlt := hsurplus.2
      rw [List.take_append_of_le_length (show j + 1 ≤ t.length from hj)] at hlt
      exact absurd (ht.ballot (j + 1)) (by omega)
    · exact .inr ⟨hstarts.ballot.not_surplus, unended_of_starts hstarts⟩

-- the end of a loop that was never started, and the last of two loops that are never ended
example : ofCode (ascii "+[.]][") = .error 4 ∧ ofCode (ascii "[[-]>[+") = .error 5 := ⟨rfl, rfl⟩

end JumpTable

end StackTape

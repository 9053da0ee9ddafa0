import StackTape.Proofs.Fragment
import StackTape.Proofs.Truncation

/-!
# How long a run takes

`CrossesIn hi t n s s'` is a crossing with a count: wherever the stretch `t` of code stands, the machine gets from the
cells of `s` to those of `s'` in `n` steps, neither more nor less. Comments cost a step for each byte, brackets one step
each time they are passed.

Time grows fast with nested loops. `nest inner k` holds `k` countdowns, one inside the other, around a comment. It
changes nothing, and its run takes 255 times longer with each of them (`nestTime`). The run is done under the limits
that reach its time (`runWithin_nest_done`) and under no others (`runWithin_nest_cut`). The time soon passes the greatest
limit that a machine can have (`run_nest_cut`).
-/

namespace StackTape

/-- The stretch `t` takes the cells of `s` to those of `s'` in `n` steps. -/
def CrossesIn (hi : Nat) (t : Bytes) (n : Nat) (s s' : Stack) : Prop :=
  ∀ size, hi < size → ∀ (p : Image) (pre post : Bytes), p.code = pre ++ (t ++ post) →
    Walk p.code.toArray p.jumps (fun _ => True) n ⟨pre.length, s.onTape size⟩
      ⟨pre.length + t.length, s'.onTape size⟩

namespace CrossesIn

variable {hi n n₁ n₂ : Nat} {t t₁ t₂ : Bytes} {s s₁ s₂ : Stack}

theorem append (h₁ : CrossesIn hi t₁ n₁ s s₁) (h₂ : CrossesIn hi t₂ n₂ s₁ s₂) :
    CrossesIn hi (t₁ ++ t₂) (n₁ + n₂) s s₂ := by
  intro size hsize p pre post hp
  rw [List.append_assoc] at hp
  have hw₁ := h₁ size hsize p pre (t₂ ++ post) hp
  have hw₂ := h₂ size hsize p (pre ++ t₁) post (by rw [hp, List.append_assoc])
  rw [List.length_append] at hw₂
  rw [List.length_append, ← Nat.add_assoc]
  exact hw₁.trans hw₂

theorem comment (ht : ∀ b ∈ t, isPrimitive b = false) : CrossesIn hi t t.length s s := by
  induction t with
  | nil => exact fun _ _ _ _ _ _ => .refl _
  | cons b t ih =>
    have hb : CrossesIn hi [b] 1 s s := fun _ _ _ _ _ hp =>
      .step trivial (Image.step_comment hp (ht b (by simp)) _) (.refl _)
    rw [List.length_cons, Nat.add_comm]
    exact hb.append (ih fun c hc => ht c (by simp [hc]))

theorem act {a : Act} (hl : a = .left → 0 < s.depth) (hs : s.depth ≤ hi) (hs' : (s.act a).depth ≤ hi) :
    CrossesIn hi [a.byte] 1 s (s.act a) := fun _ hsize _ _ _ hp =>
  .step trivial (Image.step_act hp (by omega) (by omega) hl) (.refl _)

theorem skip (h : s.top = 0) (ht : Balanced t) (hs : s.depth ≤ hi) :
    CrossesIn hi (Symbol.enter.byte :: (t ++ [Symbol.leave.byte])) 1 s s := by
  intro size hsize p pre post hp
  simp only [List.cons_append, List.append_assoc, List.nil_append] at hp
  have hstep := Image.step_enter hp ht (Nat.lt_of_le_of_lt hs hsize)
  rw [Image.target, if_pos h] at hstep
  simp only [List.length_cons, List.length_append, List.length_nil]
  exact .step trivial hstep (.refl _)

/-- A turn of a loop costs its body and a bracket. -/
theorem again (h : s.top ≠ 0) (ht : Balanced t) (hbody : CrossesIn hi t n₁ s s₁)
    (hloop : CrossesIn hi (Symbol.enter.byte :: (t ++ [Symbol.leave.byte])) n₂ s₁ s₂) (hs : s.depth ≤ hi)
    (hs₁ : s₁.depth ≤ hi) :
    CrossesIn hi (Symbol.enter.byte :: (t ++ [Symbol.leave.byte])) (n₁ + 1 + n₂) s s₂ := by
  intro size hsize p pre post hp
  have hw := hloop size hsize p pre post hp
  simp only [List.cons_append, List.append_assoc, List.nil_append] at hp
  have hinside := hbody size hsize p (pre ++ [Symbol.enter.byte]) (Symbol.leave.byte :: post) (by simp [hp])
  rw [List.length_append, List.length_singleton] at hinside
  have henter := Image.step_enter hp ht (Nat.lt_of_le_of_lt hs hsize)
  rw [Image.target, if_neg h] at henter
  -- both brackets send the machine to the same place, so the loop's own walk also goes on from the second one
  have hsame : step p.code.toArray p.jumps ⟨pre.length + 1 + t.length, s₁.onTape size⟩ =
      step p.code.toArray p.jumps ⟨pre.length, s₁.onTape size⟩ := by
    rw [Image.step_leave hp ht (Nat.lt_of_le_of_lt hs₁ hsize), Image.step_enter hp ht (Nat.lt_of_le_of_lt hs₁ hsize)]
  have hback := hw.of_step_eq (fun h => by simpa using congrArg Config.pc h) trivial hsame
  rw [Nat.add_comm n₁ 1, Nat.add_assoc, Nat.add_comm 1]
  exact .step trivial henter (hinside.trans hback)

end CrossesIn

/-! ## Countdowns -/

/-- A turn of a countdown runs a text one cell further on and then lowers the cell. -/
def turn (t : Bytes) : Bytes := [Act.right.byte] ++ t ++ [Act.left.byte] ++ [Act.dec.byte]

/-- Counts a zero cell down from 255 to zero again. -/
def countdown (t : Bytes) : Bytes := [Act.dec.byte] ++ Symbol.enter.byte :: (turn t ++ [Symbol.leave.byte])

/-- Countdowns inside each other, around a text. -/
def nest (inner : Bytes) : Nat → Bytes
  | 0 => inner
  | k + 1 => countdown (nest inner k)

/-- The number of steps that `k` countdowns around a comment of `n` bytes take. -/
def nestTime (n : Nat) : Nat → Nat
  | 0 => n
  | k + 1 => 255 * (nestTime n k + 4) + 2

theorem balanced_turn {t : Bytes} (ht : Balanced t) : Balanced (turn t) :=
  (((Balanced.of_straight (by simp [straight_act])).append ht).append (.of_straight (by simp [straight_act]))).append
    (.of_straight (by simp [straight_act]))

theorem balanced_nest {inner : Bytes} (hinner : ∀ b ∈ inner, isPrimitive b = false) (k : Nat) :
    Balanced (nest inner k) := by
  induction k with
  | zero => exact .of_straight fun b hb => straight_of_not_primitive (hinner b hb)
  | succ k ih => exact (Balanced.of_straight (by simp [straight_act])).append (balanced_turn ih).bracket

theorem Stack.top_setTop {s : Stack} {v : UInt8} : (s.setTop v).top = v := by simp [setTop, setCell, top]

theorem Stack.setTop_setTop {s : Stack} {v w : UInt8} : (s.setTop v).setTop w = s.setTop w := by
  ext i : 2 <;> simp only [setTop, setCell]
  split <;> rfl

namespace CrossesIn

variable {hi n : Nat} {t : Bytes} {s : Stack}

theorem turn (h : CrossesIn hi t n (s.moved (s.depth + 1)) (s.moved (s.depth + 1))) (hs : s.depth + 1 ≤ hi) :
    CrossesIn hi (turn t) (n + 3) s (s.setTop (s.top - 1)) := by
  have hright : CrossesIn hi [Act.right.byte] 1 s (s.moved (s.depth + 1)) := act (a := .right) (by simp) (by omega) hs
  have hleft : CrossesIn hi [Act.left.byte] 1 (s.moved (s.depth + 1)) s :=
    act (a := .left) (fun _ => Nat.succ_pos _) hs (show s.depth ≤ hi by omega)
  have hdec : CrossesIn hi [Act.dec.byte] 1 s (s.setTop (s.top - 1)) :=
    act (a := .dec) (by simp) (by omega) (show s.depth ≤ hi by omega)
  have hall := ((hright.append h).append hleft).append hdec
  rwa [show 1 + n + 1 + 1 = n + 3 by omega] at hall

/-- The loop of a countdown takes as many turns as its cell says. -/
theorem turns (ht : Balanced t)
    (h : ∀ v, CrossesIn hi t n ((s.setTop v).moved (s.depth + 1)) ((s.setTop v).moved (s.depth + 1)))
    (hs : s.depth + 1 ≤ hi) {k : Nat} (hk : k < 256) :
    CrossesIn hi (Symbol.enter.byte :: (StackTape.turn t ++ [Symbol.leave.byte])) (k * (n + 4) + 1)
      (s.setTop (UInt8.ofNat k)) (s.setTop 0) := by
  induction k with
  | zero =>
    rw [Nat.zero_mul]
    exact skip Stack.top_setTop (balanced_turn ht) (show s.depth ≤ hi by omega)
  | succ k ih =>
    have hne : (s.setTop (UInt8.ofNat (k + 1))).top ≠ 0 := by
      intro hzero
      have hnat := congrArg UInt8.toNat hzero
      rw [Stack.top_setTop, UInt8.toNat_ofNat_of_lt' hk] at hnat
      exact Nat.succ_ne_zero k hnat
    have hless : UInt8.ofNat (k + 1) - 1 = UInt8.ofNat k := by
      rw [UInt8.ofNat_add]
      exact UInt8.add_sub_cancel _ 1
    have hturn := turn (h (UInt8.ofNat (k + 1))) hs
    rw [Stack.top_setTop, Stack.setTop_setTop, hless] at hturn
    have hall := again hne (balanced_turn ht) hturn (ih (by omega)) (show s.depth ≤ hi by omega)
      (show s.depth ≤ hi by omega)
    rwa [show n + 3 + 1 + (k * (n + 4) + 1) = (k + 1) * (n + 4) + 1 by rw [Nat.succ_mul]; omega] at hall

theorem countdown (ht : Balanced t)
    (h : ∀ v, CrossesIn hi t n ((s.setTop v).moved (s.depth + 1)) ((s.setTop v).moved (s.depth + 1)))
    (hs : s.depth + 1 ≤ hi) (htop : s.top = 0) : CrossesIn hi (countdown t) (255 * (n + 4) + 2) s s := by
  have hdec : CrossesIn hi [Act.dec.byte] 1 s (s.setTop (s.top - 1)) :=
    act (a := .dec) (by simp) (by omega) (show s.depth ≤ hi by omega)
  have hloop := turns ht h hs (k := 255) (by decide)
  rw [show s.setTop 0 = s by rw [← htop, Stack.setTop_top]] at hloop
  rw [htop] at hdec
  have hall := hdec.append hloop
  rwa [show 1 + (255 * (n + 4) + 1) = 255 * (n + 4) + 2 by omega] at hall

/-- Nested countdowns leave cells that are zero as they are, and take their time. -/
theorem nest {inner : Bytes} (hinner : ∀ b ∈ inner, isPrimitive b = false) {k : Nat} (hclean : s.Clean)
    (htop : s.top = 0) (hs : s.depth + k ≤ hi) : CrossesIn hi (nest inner k) (nestTime inner.length k) s s := by
  induction k generalizing s with
  | zero => exact comment hinner
  | succ k ih =>
    refine countdown (balanced_nest hinner k) (fun v => ?_) (by omega) htop
    -- the cells above the one that counts are still zero
    have hzero : ∀ i, s.depth < i → (s.setTop v).cells i = 0 := by
      intro i hi
      simp only [Stack.setTop, Stack.setCell]
      rw [if_neg (by omega)]
      exact hclean i hi
    refine ih (fun i hi => hzero i ?_) (hzero _ (Nat.lt_succ_self _)) (show s.depth + 1 + k ≤ hi by omega)
    exact Nat.lt_of_succ_lt hi

end CrossesIn

/-! ## Machines -/

namespace Machine

variable {inner input : Bytes} {k size limit : Nat}

/-- A zero tape with a cell for each countdown and one for the comment is enough. -/
theorem nest_walk (hinner : ∀ b ∈ inner, isPrimitive b = false) (hsize : k < size) (steps : Int) (input : Bytes) :
    ∃ jumps, JumpTable.ofCode (nest inner k) = .ok jumps ∧
      Walk (nest inner k).toArray jumps (fun _ => True) (nestTime inner.length k) ((limited size steps).start input)
        ⟨(nest inner k).length, ((limited size steps).start input).store⟩ := by
  obtain ⟨jumps, hj⟩ := JumpTable.ofCode_of_balanced (balanced_nest hinner k)
  have hcrosses : CrossesIn k (nest inner k) (nestTime inner.length k) (.initial [] input) (.initial [] input) :=
    CrossesIn.nest hinner (fun _ _ => rfl) rfl (by simp [Stack.initial])
  have hwalk := hcrosses size hsize ⟨nest inner k, jumps, hj⟩ [] [] (by simp)
  rw [List.length_nil, Nat.zero_add] at hwalk
  rw [start_limited]
  exact ⟨jumps, hj, hwalk⟩

theorem runWithin_nest_done (hinner : ∀ b ∈ inner, isPrimitive b = false) (hsize : k < size) (steps : Int)
    (input : Bytes) (h : nestTime inner.length k ≤ limit) :
    (limited size steps).runWithin limit (nest inner k) input = ⟨.done, [], limited size steps⟩ := by
  obtain ⟨jumps, hj, hwalk⟩ := nest_walk hinner hsize steps input
  rw [runWithin_eq hj, hwalk.exec_done (by simp) h]
  rfl

theorem runWithin_nest_cut (hinner : ∀ b ∈ inner, isPrimitive b = false) (hsize : k < size) (steps : Int)
    (input : Bytes) (h : limit < nestTime inner.length k) :
    ∃ pos, ((limited size steps).runWithin limit (nest inner k) input).verdict = .tooLong pos := by
  obtain ⟨jumps, hj, hwalk⟩ := nest_walk hinner hsize steps input
  obtain ⟨e, hexec, _⟩ := hwalk.exec_cut h
  rw [runWithin_eq hj, hexec]
  exact ⟨e.pc, rfl⟩

/-- **Some runs that end are too long for every machine.** Countdowns that take more than `wordBound` steps come to
their end, but only under limits that no machine has. -/
theorem run_nest_cut (hinner : ∀ b ∈ inner, isPrimitive b = false) (hsize : k < size) (steps : Int)
    (input : Bytes) (h : wordBound < nestTime inner.length k) :
    ∃ pos, ((limited size steps).run (nest inner k) input).verdict = .tooLong pos := by
  rw [run_eq_runWithin]
  exact runWithin_nest_cut hinner hsize steps input (Nat.lt_of_le_of_lt (limit_le _) h)

end Machine

end StackTape

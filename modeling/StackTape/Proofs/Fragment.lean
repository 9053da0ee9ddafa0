import StackTape.Proofs.Cross
import StackTape.Tape.Fragment

/-!
# What the code fragments do

`Runs hi b s s'` is a crossing of the text of a block: on cells without end, `b` takes `s` to `s'`, and
its pointer never passes cell `hi`. Straight code is run action by action. Loops of the fragments
count their own cell down to zero and add something fixed to other cells in every turn, so one lemma
(`Runs.countdown`) gives the effect of all of them: the cell times what one turn adds.

Every fragment that stands for an instruction is shown to do what the instruction means.
-/

namespace StackTape

attribute [ext] Stack

namespace Stack

/-- The same cells with the pointer on cell `d`. -/
def moved (s : Stack) (d : Nat) : Stack := { s with depth := d }

/-- Adds a number to every cell. -/
def plus (s : Stack) (δ : Nat → UInt8) : Stack := { s with cells := fun i => s.cells i + δ i }

/-- Empties the current cell into each of the cells `qs`. -/
def poured (s : Stack) (qs : List Nat) : Stack :=
  { s with cells := fun i =>
      if i = s.depth then 0 else if i ∈ qs then s.cells i + s.top else s.cells i }

/-- The bytes of a text in the cells from the top on, all of them written; the top is behind them. -/
def laid (s : Stack) (t : Bytes) : Stack :=
  { s with
    cells := fun i => if i < s.depth then s.cells i else t[i - s.depth]?.getD (s.cells i)
    depth := s.depth + t.length
    output := s.output ++ t }

/-- All cells above the top are zero. -/
def Clean (s : Stack) : Prop := ∀ i, s.depth < i → s.cells i = 0

variable (s : Stack)

@[simp] theorem depth_moved (d : Nat) : (s.moved d).depth = d := rfl
@[simp] theorem depth_plus (δ : Nat → UInt8) : (s.plus δ).depth = s.depth := rfl
@[simp] theorem depth_poured (qs : List Nat) : (s.poured qs).depth = s.depth := rfl
@[simp] theorem depth_setCell (i : Nat) (v : UInt8) : (s.setCell i v).depth = s.depth := rfl
@[simp] theorem depth_setTop (v : UInt8) : (s.setTop v).depth = s.depth := rfl
@[simp] theorem depth_write (b : Bytes) : (s.write b).depth = s.depth := rfl

variable {s}

/-- A text is laid out byte by byte. -/
theorem laid_cons (b : UInt8) (t : Bytes) :
    s.laid (b :: t) = (((s.setTop b).write [b]).moved (s.depth + 1)).laid t := by
  ext i : 2
  · show (if i < s.depth then s.cells i else (b :: t)[i - s.depth]?.getD (s.cells i)) =
      if i < s.depth + 1 then if i = s.depth then b else s.cells i
      else t[i - (s.depth + 1)]?.getD (if i = s.depth then b else s.cells i)
    rcases Nat.lt_trichotomy i s.depth with hlt | rfl | hgt
    · rw [if_pos hlt, if_pos (by omega), if_neg (by omega)]
    · rw [if_neg (by omega), if_pos (by omega), if_pos rfl, Nat.sub_self]
      rfl
    · obtain ⟨k, rfl⟩ := Nat.exists_eq_add_of_lt hgt
      rw [if_neg (by omega), if_neg (by omega), if_neg (by omega), show s.depth + k + 1 - s.depth = k + 1 by omega,
        show s.depth + k + 1 - (s.depth + 1) = k by omega, List.getElem?_cons_succ]
  · simp only [laid, moved, List.length_cons]
    omega
  · rfl
  · simp [laid, moved, write, setTop, setCell]

theorem setTop_top : s.setTop s.top = s := by
  ext i : 2 <;> simp only [setTop, setCell, top]
  split
  · rename_i h
    rw [h]
  · rfl

end Stack

/-- The block takes `s` to `s'`, its pointer never past cell `hi`. -/
def Runs (hi : Nat) (b : Block) (s s' : Stack) : Prop := Crosses hi (fun _ _ => True) b.text s s'

namespace Runs

variable {hi : Nat} {a b : Block} {s s₁ s₂ : Stack}

theorem nil (hs : s.depth ≤ hi) : Runs hi [] s s := by
  rw [Runs, Block.text_nil]
  exact .nil trivial hs

/-- The same run with its end written differently. -/
theorem trans_eq (h : Runs hi b s s₁) (e : s₁ = s₂) : Runs hi b s s₂ := e ▸ h

theorem append (h₁ : Runs hi a s s₁) (h₂ : Runs hi b s₁ s₂) : Runs hi (a ++ b) s s₂ := by
  rw [Runs, Block.text_append]
  exact (Crosses.append h₁ h₂).mono fun _ _ _ _ => trivial

theorem act {x : Act} (hl : x = .left → 0 < s.depth) (hs : s.depth ≤ hi) (hs' : (s.act x).depth ≤ hi) :
    Runs hi [.act x] s (s.act x) := by
  have ht : Block.text [.act x] = [x.byte] := by simp [Op.text]
  rw [Runs, ht]
  exact .act hl trivial trivial hs hs'

theorem loop_text (b : Block) :
    (Fragment.loop b).text = Symbol.enter.byte :: (b.text ++ [Symbol.leave.byte]) := by
  simp [Fragment.loop, Op.text]

theorem skip (h : s.top = 0) (hs : s.depth ≤ hi) : Runs hi (Fragment.loop b) s s := by
  rw [Runs, loop_text]
  exact .skip h (Block.balanced_text b) trivial trivial hs

theorem again (h : s.top ≠ 0) (hb : Runs hi b s s₁) (hl : Runs hi (Fragment.loop b) s₁ s₂) :
    Runs hi (Fragment.loop b) s s₂ := by
  rw [Runs, loop_text] at hl ⊢
  exact .again h (Block.balanced_text b) hb hl trivial fun _ _ _ _ => trivial

/-! ## Straight code -/

theorem inc (hs : s.depth ≤ hi) : Runs hi Fragment.inc s (s.setTop (s.top + 1)) :=
  act (x := .inc) (by simp) hs hs

theorem dec (hs : s.depth ≤ hi) : Runs hi Fragment.dec s (s.setTop (s.top - 1)) :=
  act (x := .dec) (by simp) hs hs

theorem put (hs : s.depth ≤ hi) : Runs hi Fragment.put s (s.write [s.top]) :=
  act (x := .put) (by simp) hs hs

theorem take (hs : s.depth ≤ hi) :
    Runs hi Fragment.take s ({ s with input := s.input.tail }.setTop (s.input.headD 0)) :=
  act (x := .take) (by simp) hs hs

theorem left {n : Int} {k : Nat} (hn : n = k) (hk : k ≤ s.depth) (hs : s.depth ≤ hi) :
    Runs hi (Fragment.left n) s (s.moved (s.depth - k)) := by
  subst hn
  rw [Fragment.left, Fragment.times, Int.toNat_natCast]
  induction k generalizing s with
  | zero => exact nil hs
  | succ k ih =>
    rw [List.replicate_succ']
    refine (ih (by omega) hs).append ?_
    exact act (x := .left) (fun _ => by simp; omega)
      (by simp; omega) (by simp only [Stack.act, Stack.moved]; omega)

theorem right {n : Int} {k : Nat} (hn : n = k) (hs : s.depth + k ≤ hi) :
    Runs hi (Fragment.right n) s (s.moved (s.depth + k)) := by
  subst hn
  rw [Fragment.right, Fragment.times, Int.toNat_natCast]
  induction k generalizing s with
  | zero => exact nil hs
  | succ k ih =>
    rw [List.replicate_succ']
    refine (ih (by omega)).append ?_
    exact act (x := .right) (by simp) (by simp; omega)
      (by simp only [Stack.act, Stack.moved]; omega)

/-- An action that adds `δ` to the current cell, repeated. -/
theorem times {x : Act} {δ : UInt8} (hne : x ≠ .left)
    (hx : ∀ r : Stack, r.act x = r.setTop (r.top + δ)) (n : Int) (hs : s.depth ≤ hi) :
    Runs hi (Fragment.times n x) s (s.setTop (s.top + UInt8.ofNat n.toNat * δ)) := by
  rw [Fragment.times]
  induction n.toNat with
  | zero =>
    have h0 : s.top + UInt8.ofNat 0 * δ = s.top := by
      rw [show UInt8.ofNat 0 = 0 from rfl, UInt8.zero_mul, UInt8.add_zero]
    rw [h0, Stack.setTop_top]
    exact nil hs
  | succ k ih =>
    rw [List.replicate_succ']
    have h := ih.append (act (x := x) (absurd · hne) hs (by rw [hx]; exact hs))
    have e : (s.setTop (s.top + UInt8.ofNat k * δ)).act x = s.setTop (s.top + UInt8.ofNat (k + 1) * δ) := by
      rw [hx]
      ext i : 2 <;> simp only [Stack.setTop, Stack.setCell, Stack.top]
      split
      · rw [if_true, UInt8.ofNat_add]; grind
      · rfl
    rwa [e] at h

theorem number (n : Int) (hs : s.depth ≤ hi) :
    Runs hi (Fragment.number n) s (s.setTop (s.top + UInt8.ofNat n.toNat)) := by
  have h := times (x := .inc) (δ := 1) (by simp) (fun _ => rfl) n hs
  rwa [UInt8.mul_one] at h

theorem lessen (n : Int) (hs : s.depth ≤ hi) :
    Runs hi (Fragment.lessen n) s (s.setTop (s.top - UInt8.ofNat n.toNat)) := by
  have h := times (x := .dec) (δ := -1) (by simp) (fun r => by simp [Stack.act, UInt8.sub_eq_add_neg]) n hs
  rwa [show s.top + UInt8.ofNat n.toNat * -1 = s.top - UInt8.ofNat n.toNat by grind] at h

/-! ## Counting loops -/

/-- A loop that in every turn adds `δ` to the cells, `-1` to its own: in the end it has added `δ` as
often as its cell said. The turns may rely on whatever they preserve. -/
theorem countdown {δ : Nat → UInt8} (Inv : Stack → Prop) (hδ : δ s.depth = -1)
    (hturn : ∀ r, r.depth = s.depth → Inv r → Runs hi b r (r.plus δ) ∧ Inv (r.plus δ)) (hinv : Inv s)
    (hs : s.depth ≤ hi) : Runs hi (Fragment.loop b) s (s.plus fun i => s.top * δ i) := by
  generalize hn : s.top.toNat = n
  induction n using Nat.strongRecOn generalizing s with
  | _ n ih =>
    by_cases h0 : s.top = 0
    · have e : (s.plus fun i => s.top * δ i) = s := by
        ext i : 2 <;> simp [Stack.plus, h0]
      rw [e]
      exact skip h0 hs
    · obtain ⟨hb, hinv'⟩ := hturn s rfl hinv
      have htop : (s.plus δ).top = s.top - 1 := by
        simp only [Stack.plus, Stack.top, hδ]; grind
      have hlt : (s.plus δ).top.toNat < n := by
        have h1 : (1 : UInt8) ≤ s.top := by
          rw [UInt8.le_iff_toNat_le]
          have : s.top.toNat ≠ 0 := fun h => h0 (UInt8.toNat_inj.1 h)
          simp; omega
        rw [htop, UInt8.toNat_sub_of_le _ _ h1]
        have : s.top.toNat ≠ 0 := fun h => h0 (UInt8.toNat_inj.1 h)
        simp; omega
      have hrest := ih _ hlt (s := s.plus δ) hδ hturn hinv' hs rfl
      have e : ((s.plus δ).plus fun i => (s.plus δ).top * δ i) = s.plus fun i => s.top * δ i := by
        rw [htop]
        ext i : 2 <;> simp only [Stack.plus]
        grind
      rw [e] at hrest
      exact again h0 hb hrest

/-- A loop that in every turn takes one from its own cell and adds one to each of the cells `qs`. -/
theorem pour (qs : List Nat) (hs : s.depth ≤ hi)
    (hturn : ∀ r, r.depth = s.depth →
      Runs hi b r (r.plus fun i => if i = s.depth then -1 else if i ∈ qs then 1 else 0)) :
    Runs hi (Fragment.loop b) s (s.poured qs) := by
  refine (countdown (fun _ => True) (by simp) (fun r hr _ => ⟨hturn r hr, trivial⟩) trivial hs).trans_eq ?_
  ext i : 2 <;> simp only [Stack.plus, Stack.poured, Stack.top]
  grind

theorem clear (hs : s.depth ≤ hi) : Runs hi Fragment.clear s (s.setTop 0) := by
  refine (pour [] hs fun r hr => (dec (by omega)).trans_eq ?_).trans_eq ?_
  · ext i : 2 <;> simp only [Stack.plus, Stack.setTop, Stack.setCell, Stack.top]
    grind
  · ext i : 2 <;> simp only [Stack.poured, Stack.setTop, Stack.setCell]
    grind

/-- Moves the current cell into the cell `k` to the left. -/
theorem pourLeft {n : Int} {k : Nat} (hn : n = k) (hk : 0 < k) (hkd : k ≤ s.depth) (hs : s.depth ≤ hi) :
    Runs hi (Fragment.loop (Fragment.left n ++ Fragment.inc ++ Fragment.right n ++ Fragment.dec)) s
      (s.poured [s.depth - k]) := by
  refine pour _ hs fun r hr => ?_
  refine ((((left hn (by omega) (by omega)).append (inc ?_)).append (right hn ?_)).append (dec ?_)).trans_eq ?_
  any_goals (simp; omega)
  ext i : 2 <;> simp only [Stack.plus, Stack.setTop, Stack.setCell, Stack.top, Stack.moved]
  · grind
  · omega

/-- Moves the current cell into the cell `k` to the right. -/
theorem pourRight {n : Int} {k : Nat} (hn : n = k) (hk : 0 < k) (hs : s.depth + k ≤ hi) :
    Runs hi (Fragment.loop (Fragment.right n ++ Fragment.inc ++ Fragment.left n ++ Fragment.dec)) s
      (s.poured [s.depth + k]) := by
  refine pour _ (by omega) fun r hr => ?_
  refine ((((right hn (by omega)).append (inc ?_)).append (left hn ?_ ?_)).append (dec ?_)).trans_eq ?_
  any_goals (simp <;> omega)
  ext i : 2 <;> simp only [Stack.plus, Stack.setTop, Stack.setCell, Stack.top, Stack.moved]
  · grind
  · omega

/-! ## Instructions -/

theorem add (hd : 0 < s.depth) (hs : s.depth ≤ hi) : Runs hi Fragment.add s (s.combine (· + ·)) := by
  refine ((pourLeft (k := 1) rfl (by omega) hd hs).append (left (k := 1) rfl hd hs)).trans_eq ?_
  ext i : 2 <;> simp only [Stack.combine, Stack.drop, Stack.poured, Stack.setTop, Stack.setCell, Stack.top, Stack.moved]
  grind

theorem sub (hd : 0 < s.depth) (hs : s.depth ≤ hi) : Runs hi Fragment.sub s (s.combine (· - ·)) := by
  have hloop : Runs hi (Fragment.loop (Fragment.left 1 ++ Fragment.dec ++ Fragment.right 1 ++ Fragment.dec)) s
      (s.plus fun i => s.top * if i = s.depth then -1 else if i = s.depth - 1 then -1 else 0) := by
    refine countdown (fun _ => True) (by simp) (fun r hr _ => ⟨?_, trivial⟩) trivial hs
    refine ((((left (k := 1) rfl (by omega) (by omega)).append (dec ?_)).append (right (k := 1) rfl ?_)).append
      (dec ?_)).trans_eq ?_
    any_goals (simp; omega)
    ext i : 2 <;> simp only [Stack.plus, Stack.setTop, Stack.setCell, Stack.top, Stack.moved]
    · grind
    · omega
  refine (hloop.append (left (k := 1) rfl hd hs)).trans_eq ?_
  ext i : 2 <;> simp only [Stack.combine, Stack.drop, Stack.plus, Stack.setTop, Stack.setCell, Stack.top, Stack.moved]
  grind

theorem copy (hc : s.Clean) (hs : s.depth + 2 ≤ hi) : Runs hi Fragment.copy s (s.push s.top) := by
  have hspread : Runs hi (Fragment.loop (Fragment.right 1 ++ Fragment.inc ++ Fragment.right 1 ++ Fragment.inc ++
      Fragment.left 2 ++ Fragment.dec)) s (s.poured [s.depth + 1, s.depth + 2]) := by
    refine pour _ (by omega) fun r hr => ?_
    refine ((((((right (k := 1) rfl (by omega)).append (inc ?_)).append (right (k := 1) rfl ?_)).append
      (inc ?_)).append (left (k := 2) rfl ?_ ?_)).append (dec ?_)).trans_eq ?_
    any_goals (simp <;> omega)
    ext i : 2 <;> simp only [Stack.plus, Stack.setTop, Stack.setCell, Stack.top, Stack.moved]
    · grind
    · omega
  have h1 := hc (s.depth + 1) (by omega)
  have h2 := hc (s.depth + 2) (by omega)
  refine (((hspread.append (right (k := 2) rfl ?_)).append (pourLeft (k := 2) rfl (by omega) ?_ ?_)).append
    (left (k := 1) rfl ?_ ?_)).trans_eq ?_
  any_goals (simp <;> omega)
  ext i : 2 <;> simp only [Stack.push, Stack.poured, Stack.setCell, Stack.top, Stack.moved]
  · grind
  · omega

/-- The cell below is multiplied by repeated addition. It is first put aside two cells up; every turn
adds it in again, by way of a second scratch cell that gives it back. -/
theorem mul (hd : 0 < s.depth) (hc : s.Clean) (hs : s.depth + 2 ≤ hi) :
    Runs hi Fragment.mul s (s.combine (· * ·)) := by
  have h1 := hc (s.depth + 1) (by omega)
  have h2 := hc (s.depth + 2) (by omega)
  have hsave : Runs hi (Fragment.loop (Fragment.right 2 ++ Fragment.inc ++ Fragment.left 2 ++ Fragment.dec))
      (s.moved (s.depth - 1)) ((s.moved (s.depth - 1)).poured [s.depth + 1]) := by
    refine (pourRight (k := 2) rfl (by omega) (by simp; omega)).trans_eq ?_
    rw [Stack.depth_moved, show s.depth - 1 + 2 = s.depth + 1 by omega]
  have hinner : ∀ r : Stack, r.depth = s.depth + 1 →
      Runs hi (Fragment.loop (Fragment.left 2 ++ Fragment.inc ++ Fragment.right 3 ++ Fragment.inc ++
        Fragment.left 1 ++ Fragment.dec)) r (r.poured [s.depth - 1, s.depth + 2]) := by
    intro r hr
    refine pour _ (by omega) fun q hq => ?_
    refine ((((((left (k := 2) rfl (by omega) (by omega)).append (inc ?_)).append (right (k := 3) rfl ?_)).append
      (inc ?_)).append (left (k := 1) rfl ?_ ?_)).append (dec ?_)).trans_eq ?_
    any_goals (simp <;> omega)
    ext i : 2 <;> simp only [Stack.plus, Stack.setTop, Stack.setCell, Stack.top, Stack.moved]
    · grind
    · omega
  have hturns : ∀ r : Stack, r.depth = s.depth → r.cells (s.depth + 2) = 0 →
      Runs hi (Fragment.loop (Fragment.right 1 ++ Fragment.loop (Fragment.left 2 ++ Fragment.inc ++
        Fragment.right 3 ++ Fragment.inc ++ Fragment.left 1 ++ Fragment.dec) ++ Fragment.right 1 ++
        Fragment.loop (Fragment.left 1 ++ Fragment.inc ++ Fragment.right 1 ++ Fragment.dec) ++
        Fragment.left 2 ++ Fragment.dec)) r
        (r.plus fun i => r.top *
          if i = s.depth then -1 else if i = s.depth - 1 then r.cells (s.depth + 1) else 0) := by
    intro r hr hr2
    refine countdown (fun q => q.cells (s.depth + 1) = r.cells (s.depth + 1) ∧ q.cells (s.depth + 2) = 0)
      (by simp [hr]) (fun q hq hinv => ⟨?_, ?_⟩) ⟨rfl, hr2⟩ (by omega)
    · refine ((((((right (k := 1) rfl (by omega)).append (hinner _ (by simp; omega))).append
        (right (k := 1) rfl ?_)).append (pourLeft (k := 1) rfl (by omega) ?_ ?_)).append
        (left (k := 2) rfl ?_ ?_)).append (dec ?_)).trans_eq ?_
      any_goals (simp <;> omega)
      ext i : 2 <;> simp only [Stack.plus, Stack.poured, Stack.setTop, Stack.setCell, Stack.top, Stack.moved]
      · grind
      · omega
    · simp only [Stack.plus]
      grind
  refine (((((((left (k := 1) rfl hd (by omega)).append hsave).append (right (k := 1) rfl ?_)).append
    (hturns _ (by simp; omega) ?_)).append (right (k := 1) rfl ?_)).append (clear ?_)).append
    (left (k := 2) rfl ?_ ?_)).trans_eq ?_
  any_goals (simp <;> omega)
  · simp only [Stack.poured, Stack.moved]
    grind
  · ext i : 2 <;> simp only [Stack.combine, Stack.drop, Stack.plus, Stack.poured, Stack.setTop, Stack.setCell, Stack.top,
      Stack.moved]
    · grind
    · omega

/-- The first loop runs at most once: it leaves a one above in exchange for any value but zero. -/
theorem bool (hc : s.Clean) (hs : s.depth + 1 ≤ hi) :
    Runs hi Fragment.bool s (s.setTop (if s.top = 0 then 0 else 1)) := by
  have h1 := hc (s.depth + 1) (by omega)
  have hflag : Runs hi (Fragment.loop (Fragment.clear ++ Fragment.right 1 ++ Fragment.inc ++ Fragment.left 1)) s
      ((s.setTop 0).setCell (s.depth + 1) (if s.top = 0 then 0 else 1)) := by
    by_cases h0 : s.top = 0
    · refine (skip h0 (by omega)).trans_eq ?_
      ext i : 2 <;> simp only [Stack.setTop, Stack.setCell, h0]
      simp only [Stack.top] at h0
      grind
    · refine (again h0 ((((clear (by omega)).append (right (k := 1) rfl ?_)).append (inc ?_)).append
        (left (k := 1) rfl ?_ ?_)) (skip ?_ ?_)).trans_eq ?_
      any_goals (simp <;> omega)
      · simp [Stack.setTop, Stack.setCell, Stack.top, Stack.moved]
      · ext i : 2 <;> simp only [Stack.setTop, Stack.setCell, Stack.top, Stack.moved]
        · simp only [Stack.top] at h0
          grind
        · omega
  refine (((hflag.append (right (k := 1) rfl ?_)).append (pourLeft (k := 1) rfl (by omega) ?_ ?_)).append
    (left (k := 1) rfl ?_ ?_)).trans_eq ?_
  any_goals (simp <;> omega)
  ext i : 2 <;> simp only [Stack.poured, Stack.setTop, Stack.setCell, Stack.top, Stack.moved]
  · grind
  · omega

theorem read (hs : s.depth + 1 ≤ hi) :
    Runs hi Fragment.read s ({ s with input := s.input.tail }.push (s.input.headD 0)) :=
  (right (k := 1) rfl hs).append (take hs)

theorem write (hd : 0 < s.depth) (hs : s.depth ≤ hi) : Runs hi Fragment.write s ((s.write [s.top]).drop) :=
  ((put hs).append (clear hs)).append (left (k := 1) rfl hd hs)

theorem push (n : Int) (hc : s.Clean) (hs : s.depth + 1 ≤ hi) :
    Runs hi (Fragment.push n) s (s.push (UInt8.ofNat n.toNat)) := by
  have h1 := hc (s.depth + 1) (by omega)
  refine ((right (k := 1) rfl hs).append (number n hs)).trans_eq ?_
  ext i : 2 <;> simp only [Stack.push, Stack.setTop, Stack.setCell, Stack.top, Stack.moved]
  grind

/-! ## Moving values over a distance -/

/-- The cell `k` to the left is overwritten with the current cell, which is zero then. -/
theorem moveLeft {n : Int} {k : Nat} (hn : n = k) (hk : 0 < k) (hkd : k ≤ s.depth) (hs : s.depth ≤ hi) :
    Runs hi (Fragment.moveLeft n) s ((s.setCell (s.depth - k) s.top).setTop 0) := by
  refine ((((left hn hkd hs).append (clear ?_)).append (right hn ?_)).append (pourLeft hn hk ?_ ?_)).trans_eq ?_
  any_goals (simp <;> omega)
  ext i : 2 <;> simp only [Stack.poured, Stack.setTop, Stack.setCell, Stack.top, Stack.moved]
  · grind
  · omega

/-- The current cell is overwritten with the cell `k` to the left, which is zero then. -/
theorem moveRight {n : Int} {k : Nat} (hn : n = k) (hk : 0 < k) (hkd : k ≤ s.depth) (hs : s.depth ≤ hi) :
    Runs hi (Fragment.moveRight n) s ((s.setTop (s.cells (s.depth - k))).setCell (s.depth - k) 0) := by
  refine ((((clear hs).append (left hn hkd hs)).append (pourRight hn hk ?_)).append (right hn ?_)).trans_eq ?_
  any_goals (simp; omega)
  ext i : 2 <;> simp only [Stack.poured, Stack.setTop, Stack.setCell, Stack.top, Stack.moved]
  · grind
  · omega

/-- The current cell is overwritten with the cell `k` to the left. That one gets the scratch cell
above the current one added, which is zero then. -/
theorem copyRight {n : Int} {k : Nat} (hn : n = k) (hk : 0 < k) (hkd : k ≤ s.depth) (hs : s.depth + 1 ≤ hi) :
    Runs hi (Fragment.copyRight n) s
      (((s.setTop (s.cells (s.depth - k))).setCell (s.depth + 1) 0).setCell (s.depth - k)
        (s.cells (s.depth - k) + s.cells (s.depth + 1))) := by
  have hn' : n + 1 = (k + 1 : Nat) := by omega
  have hspread : ∀ r : Stack, r.depth = s.depth - k →
      Runs hi (Fragment.loop (Fragment.right n ++ Fragment.inc ++ Fragment.right 1 ++ Fragment.inc ++
        Fragment.left 1 ++ Fragment.left n ++ Fragment.dec)) r (r.poured [s.depth, s.depth + 1]) := by
    intro r hr
    refine pour _ (by omega) fun q hq => ?_
    refine (((((((right hn (by omega)).append (inc ?_)).append (right (k := 1) rfl ?_)).append (inc ?_)).append
      (left (k := 1) rfl ?_ ?_)).append (left hn ?_ ?_)).append (dec ?_)).trans_eq ?_
    any_goals (simp <;> omega)
    ext i : 2 <;> simp only [Stack.plus, Stack.setTop, Stack.setCell, Stack.top, Stack.moved]
    · grind
    · omega
  refine ((((((clear (by omega)).append (left hn hkd ?_)).append (hspread _ ?_)).append (right hn' ?_)).append
    (pourLeft hn' (by omega) ?_ ?_)).append (left (k := 1) rfl ?_ ?_)).trans_eq ?_
  any_goals (simp <;> omega)
  ext i : 2 <;> simp only [Stack.poured, Stack.setTop, Stack.setCell, Stack.top, Stack.moved]
  · grind
  · omega

/-- The value of the cell `k` below the top is pushed. -/
theorem get (k : Nat) (hc : s.Clean) (hk : k ≤ s.depth) (hs : s.depth + 2 ≤ hi) :
    Runs hi (Fragment.get k) s (s.push (s.cells (s.depth - k))) := by
  have h1 := hc (s.depth + 1) (by omega)
  have h2 := hc (s.depth + 2) (by omega)
  refine ((right (k := 1) rfl (by omega)).append
    (copyRight (k := k + 1) (by omega) (by omega) ?_ ?_)).trans_eq ?_
  any_goals (simp; omega)
  ext i : 2 <;> simp only [Stack.push, Stack.setTop, Stack.setCell, Stack.moved]
  grind

/-- The top is moved into the cell `k` below it. -/
theorem set (k : Nat) (hk : 0 < k) (hkd : k ≤ s.depth) (hs : s.depth ≤ hi) :
    Runs hi (Fragment.set k) s ((s.setCell (s.depth - k) s.top).drop) :=
  (moveLeft rfl hk hkd hs).append (left (k := 1) rfl (by simp; omega) hs)

/-! ## Writing texts -/

/-- A byte is built in a zero cell and written. -/
theorem putByte (b : UInt8) (h : s.top = 0) (hs : s.depth ≤ hi) :
    Runs hi (Fragment.number b.toNat ++ Fragment.put) s ((s.setTop b).write [b]) := by
  have hsum : s.top + UInt8.ofNat (b.toNat : Int).toNat = b := by simp [h]
  have hput := (number b.toNat hs).append (put (by simpa using hs))
  rw [hsum] at hput
  refine hput.trans_eq ?_
  simp [Stack.write, Stack.setTop, Stack.setCell, Stack.top]

theorem print (t : Bytes) (h : s.top = 0) (hs : s.depth ≤ hi) : Runs hi (Fragment.print t) s (s.write t) := by
  induction t generalizing s with
  | nil =>
    refine (nil hs).trans_eq ?_
    simp [Stack.write]
  | cons b t ih =>
    have hb : Runs hi (Fragment.number b.toNat ++ Fragment.put ++ Fragment.clear) s (s.write [b]) := by
      refine ((putByte b h hs).append (clear hs)).trans_eq ?_
      ext i : 2 <;> simp only [Stack.write, Stack.setTop, Stack.setCell, Stack.top] at h ⊢
      grind
    refine (hb.append (ih (s := s.write [b]) h hs)).trans_eq ?_
    simp [Stack.write]

/-- The text is laid out from the current cell on, where all cells that it takes are zero. -/
theorem encodeString (t : Bytes) (h : ∀ i < t.length, s.cells (s.depth + i) = 0) (hs : s.depth + t.length ≤ hi) :
    Runs hi (Fragment.encodeString t) s (s.laid t) := by
  induction t generalizing s with
  | nil =>
    refine (nil hs).trans_eq ?_
    simp [Stack.laid]
  | cons b t ih =>
    rw [List.length_cons] at h hs
    have hb : Runs hi (Fragment.number b.toNat ++ Fragment.put ++ Fragment.right 1) s
        (((s.setTop b).write [b]).moved (s.depth + 1)) :=
      (putByte b (h 0 (by omega)) (by omega)).append (right (k := 1) rfl (by simp; omega))
    have hrest := ih (s := ((s.setTop b).write [b]).moved (s.depth + 1)) (fun i hi => ?_) (by simp; omega)
    · refine (hb.append hrest).trans_eq ?_
      rw [Stack.laid_cons]
    · have hzero := h (i + 1) (by omega)
      simp only [Stack.moved, Stack.write, Stack.setTop, Stack.setCell]
      rw [if_neg (by omega), ← hzero]
      congr 1
      omega

theorem say (t : Bytes) (hc : s.Clean) (hs : s.depth + 1 ≤ hi) : Runs hi (Fragment.say t) s (s.write t) := by
  refine (((right (k := 1) rfl hs).append (print t ?_ hs)).append (left (k := 1) rfl (by simp) hs)).trans_eq ?_
  · exact hc (s.depth + 1) (by omega)
  · simp [Stack.write, Stack.moved]

end Runs

end StackTape

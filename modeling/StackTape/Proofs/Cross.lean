import StackTape.Proofs.Brackets
import StackTape.Proofs.Step
import StackTape.Semantics.Stack

/-!
# Crossing a stretch of code

`Crosses hi I t s s'` says what a stretch `t` of code text does, wherever in a program it stands: run
from its first byte on the cells of `s`, the machine comes to the byte after its last one with the
cells of `s'`. On the way it stays inside the stretch, its pointer never passes cell `hi`, and at
every offset `i` into the stretch that it comes to, the cells `r` satisfy `I i r`. The number of steps
depends neither on the size of the tape nor on the code around.

The rules below are those of a structured language: comments, actions, sequences and loops. They
are all that later modules use; none of them looks at positions or jump tables again.
-/

namespace StackTape

/-! ## Stacks on a tape -/

namespace Stack

/-- The store of a machine with `size` cells: the cells of the stack, the pointer on its top. -/
def onTape (size : Nat) (s : Stack) : Store :=
  { tape := Array.ofFn fun i : Fin size => s.cells i
    ptr := s.depth
    input := s.input
    output := s.output.toArray }

/-- The effect of a tape action on cells without end; the pointer is the top. -/
def act (s : Stack) : Act → Stack
  | .inc => s.setTop (s.top + 1)
  | .dec => s.setTop (s.top - 1)
  | .left => { s with depth := s.depth - 1 }
  | .right => { s with depth := s.depth + 1 }
  | .put => s.write [s.top]
  | .take => { s with input := s.input.tail }.setTop (s.input.headD 0)

variable {size : Nat} {s : Stack}

theorem getElem?_onTape {i : Nat} (hi : i < size) : (s.onTape size).tape[i]? = some (s.cells i) := by
  simp [onTape, hi]

theorem onTape_inRange (h : s.depth < size) : (s.onTape size).inRange = true := by
  simp [onTape, Store.inRange, h]

theorem onTape_cell? (h : s.depth < size) : (s.onTape size).cell? = some s.top := by
  simp [onTape, Store.cell?, top, h]

theorem setCell_onTape (i : Nat) (v : UInt8) : (s.setCell i v).onTape size =
    { s.onTape size with tape := (s.onTape size).tape.setIfInBounds i v } := by
  simp only [onTape, setCell, Store.mk.injEq, and_self, and_true]
  apply Array.ext
  · simp
  · intro j h₁ h₂
    by_cases hj : j = i
    · simp [hj]
    · rw [Array.getElem_setIfInBounds_ne (by simpa using h₂) (Ne.symm hj)]
      simp only [Array.getElem_ofFn, hj, if_false]

theorem onTape_setCell (v : UInt8) : (s.onTape size).setCell v = (s.setTop v).onTape size :=
  (setCell_onTape s.depth v).symm

theorem onTape_move {d : Int} {i : Nat} (h : s.depth < size) (hd : s.depth + d = i) :
    (s.onTape size).move d = ({ s with depth := i } : Stack).onTape size := by
  rw [Store.move, onTape_inRange h, if_pos rfl]
  simp [onTape, hd]

theorem onTape_act {a : Act} (h : s.depth < size) (hl : a = .left → 0 < s.depth) :
    (s.onTape size).act a = (s.act a).onTape size := by
  have hc : (s.onTape size).cell = s.top := by simp [Store.cell, onTape_cell? h]
  cases a with
  | inc => rw [Store.act, onTape_setCell, hc]; rfl
  | dec => rw [Store.act, onTape_setCell, hc]; rfl
  | left =>
    have := hl rfl
    exact onTape_move h (by omega)
  | right => exact onTape_move h (by omega)
  | put => simp only [Store.act, hc]; simp [act, write, onTape]
  | take =>
    exact onTape_setCell (s := { s with input := s.input.tail }) (s.input.headD 0)

end Stack

/-! ## Code in a machine -/

/-- A code text with its jump table. -/
structure Image where
  code : Bytes
  jumps : JumpTable
  matched : JumpTable.ofCode code = .ok jumps

namespace Image

variable {p : Image} {pre t post : Bytes} {size : Nat} {s : Stack}

theorem getElem?_code {b : UInt8} (h : p.code = pre ++ b :: post) :
    p.code.toArray[pre.length]? = some b := by
  rw [List.getElem?_toArray, h]; simp

theorem step_comment {b : UInt8} (h : p.code = pre ++ b :: post) (hb : isPrimitive b = false)
    (st : Store) : step p.code.toArray p.jumps ⟨pre.length, st⟩ = .ok ⟨pre.length + 1, st⟩ := by
  have hs : Symbol.ofByte? b = none := by simpa [isPrimitive] using hb
  simp only [step, getElem?_code h, hs]

theorem step_act {a : Act} (h : p.code = pre ++ a.byte :: post) (hs : s.depth < size)
    (hs' : (s.act a).depth < size) (hl : a = .left → 0 < s.depth) :
    step p.code.toArray p.jumps ⟨pre.length, s.onTape size⟩ =
      .ok ⟨pre.length + 1, (s.act a).onTape size⟩ := by
  have hb : Symbol.ofByte? a.byte = some (.act a) := Symbol.ofByte?_byte (.act a)
  simp only [step, getElem?_code h, hb, Stack.onTape_cell? hs, Option.isNone_some, Bool.and_false,
    Bool.false_eq_true, if_false, Stack.onTape_act hs hl, Stack.onTape_inRange hs', if_true]

/-- A bracket sends the machine into its loop or past it, and only the current cell decides which. -/
theorem step_enter_cell (h : p.code = pre ++ Symbol.enter.byte :: (t ++ Symbol.leave.byte :: post))
    (ht : Balanced t) {st : Store} {v : UInt8} (hv : st.cell? = some v) :
    step p.code.toArray p.jumps ⟨pre.length, st⟩ =
      .ok ⟨if v = 0 then pre.length + t.length + 2 else pre.length + 1, st⟩ := by
  have hm := (JumpTable.partner?_around (h ▸ p.matched) ht).1
  simp only [step, getElem?_code h, Symbol.ofByte?_byte, hv, hm]
  by_cases h0 : v = 0
  · simp only [h0, if_true, Option.getD_some]
    rw [show pre.length + 1 + t.length + 1 = pre.length + t.length + 2 by omega]
  · simp only [h0, if_false]

theorem step_leave_cell (h : p.code = pre ++ Symbol.enter.byte :: (t ++ Symbol.leave.byte :: post))
    (ht : Balanced t) {st : Store} {v : UInt8} (hv : st.cell? = some v) :
    step p.code.toArray p.jumps ⟨pre.length + 1 + t.length, st⟩ =
      .ok ⟨if v = 0 then pre.length + t.length + 2 else pre.length + 1, st⟩ := by
  have hm := (JumpTable.partner?_around (h ▸ p.matched) ht).2
  have hc : p.code = (pre ++ Symbol.enter.byte :: t) ++ Symbol.leave.byte :: post := by simp [h]
  have hg := getElem?_code hc
  rw [List.length_append, List.length_cons,
    show pre.length + (t.length + 1) = pre.length + 1 + t.length by omega] at hg
  simp only [step, hg, Symbol.ofByte?_byte, hv, hm]
  by_cases h0 : v = 0
  · simp only [h0, if_true]
    rw [show pre.length + 1 + t.length + 1 = pre.length + t.length + 2 by omega]
  · simp only [h0, if_false, Option.getD_some]

/-- Where a bracket of the loop over `t` sends the machine: into the loop, or past it. -/
def target (pre t : Bytes) (s : Stack) : Nat :=
  if s.top = 0 then pre.length + t.length + 2 else pre.length + 1

theorem step_enter (h : p.code = pre ++ Symbol.enter.byte :: (t ++ Symbol.leave.byte :: post))
    (ht : Balanced t) (hs : s.depth < size) :
    step p.code.toArray p.jumps ⟨pre.length, s.onTape size⟩ =
      .ok ⟨target pre t s, s.onTape size⟩ := step_enter_cell h ht (Stack.onTape_cell? hs)

theorem step_leave (h : p.code = pre ++ Symbol.enter.byte :: (t ++ Symbol.leave.byte :: post))
    (ht : Balanced t) (hs : s.depth < size) :
    step p.code.toArray p.jumps ⟨pre.length + 1 + t.length, s.onTape size⟩ =
      .ok ⟨target pre t s, s.onTape size⟩ := step_leave_cell h ht (Stack.onTape_cell? hs)

end Image

/-! ## Crossings -/

/-- A configuration strictly inside a stretch of `len` bytes from `start` on. -/
def Within (size hi start len : Nat) (I : Nat → Stack → Prop) (e : Config) : Prop :=
  ∃ r : Stack, e.store = r.onTape size ∧ r.depth ≤ hi ∧ start < e.pc ∧ e.pc < start + len ∧
    I (e.pc - start) r

/-- The stretch `t` takes the cells of `s` to those of `s'`. -/
structure Crosses (hi : Nat) (I : Nat → Stack → Prop) (t : Bytes) (s s' : Stack) : Prop where
  start : I 0 s
  finish : I t.length s'
  start_le : s.depth ≤ hi
  finish_le : s'.depth ≤ hi
  still : t = [] → s = s'
  walk : t ≠ [] → ∃ n, ∀ size, hi < size → ∀ (p : Image) (pre post : Bytes),
    p.code = pre ++ (t ++ post) →
    ∃ c, step p.code.toArray p.jumps ⟨pre.length, s.onTape size⟩ = .ok c ∧
      Walk p.code.toArray p.jumps (Within size hi pre.length t.length I) n c
        ⟨pre.length + t.length, s'.onTape size⟩

/-- What holds along a stretch of `n` bytes, then along the stretch after it. At the seam both do. -/
def joined (n : Nat) (I₁ I₂ : Nat → Stack → Prop) (i : Nat) (r : Stack) : Prop :=
  (i ≤ n → I₁ i r) ∧ (n ≤ i → I₂ (i - n) r)

namespace Crosses

variable {hi : Nat} {I J : Nat → Stack → Prop} {t : Bytes} {s s' : Stack}

/-- The same crossing with another promise, which is asked for only where the machine comes. -/
theorem refit (h : Crosses hi I t s s') (h₀ : J 0 s) (h₁ : J t.length s')
    (hIJ : ∀ i r, 0 < i → i < t.length → I i r → J i r) : Crosses hi J t s s' := by
  refine ⟨h₀, h₁, h.start_le, h.finish_le, h.still, fun hne => ?_⟩
  obtain ⟨n, hw⟩ := h.walk hne
  refine ⟨n, fun size hsize p pre post hp => ?_⟩
  obtain ⟨c, hc, hw⟩ := hw size hsize p pre post hp
  refine ⟨c, hc, hw.mono ?_⟩
  rintro e ⟨r, hr, hle, hlo, hhi, hI⟩
  exact ⟨r, hr, hle, hlo, hhi, hIJ _ _ (by omega) (by omega) hI⟩

theorem mono (h : Crosses hi I t s s') (hIJ : ∀ i r, i ≤ t.length → I i r → J i r) :
    Crosses hi J t s s' :=
  h.refit (hIJ _ _ (by omega) h.start) (hIJ _ _ (by omega) h.finish)
    fun i r _ hlt => hIJ i r (by omega)

theorem nil (h : I 0 s) (hs : s.depth ≤ hi) : Crosses hi I [] s s :=
  ⟨h, h, hs, hs, fun _ => rfl, fun hne => absurd rfl hne⟩

/-- One byte that leads straight to the next one. -/
theorem single {b : UInt8} (h₀ : I 0 s) (h₁ : I 1 s') (hs : s.depth ≤ hi) (hs' : s'.depth ≤ hi)
    (hstep : ∀ size, hi < size → ∀ (p : Image) (pre post : Bytes), p.code = pre ++ b :: post →
      step p.code.toArray p.jumps ⟨pre.length, s.onTape size⟩ =
        .ok ⟨pre.length + 1, s'.onTape size⟩) : Crosses hi I [b] s s' :=
  ⟨h₀, h₁, hs, hs', fun h => absurd h (by simp), fun _ => ⟨0, fun size hsize p pre post hp =>
    ⟨_, hstep size hsize p pre post hp, .refl _⟩⟩⟩

theorem act {a : Act} (hl : a = .left → 0 < s.depth) (h₀ : I 0 s) (h₁ : I 1 (s.act a))
    (hs : s.depth ≤ hi) (hs' : (s.act a).depth ≤ hi) : Crosses hi I [a.byte] s (s.act a) :=
  single h₀ h₁ hs hs' fun _ hsize _ _ _ hp =>
    Image.step_act hp (Nat.lt_of_le_of_lt hs hsize) (Nat.lt_of_le_of_lt hs' hsize) hl

/-- Two stretches in a row. -/
theorem append {t₁ t₂ : Bytes} {s₁ s₂ : Stack} (h₁ : Crosses hi I t₁ s s₁)
    (h₂ : Crosses hi J t₂ s₁ s₂) : Crosses hi (joined t₁.length I J) (t₁ ++ t₂) s s₂ := by
  by_cases hne₁ : t₁ = []
  · subst hne₁
    obtain rfl := h₁.still rfl
    refine h₂.refit ⟨fun _ => h₁.start, fun _ => h₂.start⟩ ⟨fun hle => ?_, fun _ => h₂.finish⟩
      fun i r hpos _ hJ => ⟨fun hle => absurd hle (by simp; omega), fun _ => hJ⟩
    -- the second stretch is empty as well
    obtain rfl := h₂.still (List.eq_nil_of_length_eq_zero (by simpa using hle))
    have := h₁.start
    rwa [Nat.le_zero.1 hle]
  have hlen₁ : 0 < t₁.length := List.length_pos_iff.2 hne₁
  by_cases hne₂ : t₂ = []
  · subst hne₂
    obtain rfl := h₂.still rfl
    rw [List.append_nil]
    exact h₁.refit ⟨fun _ => h₁.start, fun hle => absurd hle (by omega)⟩
      ⟨fun _ => h₁.finish, fun _ => by simpa using h₂.start⟩
      fun i r _ hlt hI => ⟨fun _ => hI, fun hle => absurd hle (by omega)⟩
  have hlen₂ : 0 < t₂.length := List.length_pos_iff.2 hne₂
  refine ⟨⟨fun _ => h₁.start, fun hle => absurd hle (by omega)⟩, ⟨fun hle => ?_, fun _ => ?_⟩, h₁.start_le,
    h₂.finish_le, fun h => absurd (List.append_eq_nil_iff.1 h).1 hne₁, fun _ => ?_⟩
  · rw [List.length_append] at hle; omega
  · rw [List.length_append, Nat.add_sub_cancel_left]; exact h₂.finish
  obtain ⟨n₁, hw₁⟩ := h₁.walk hne₁
  obtain ⟨n₂, hw₂⟩ := h₂.walk hne₂
  refine ⟨n₁ + (n₂ + 1), fun size hsize p pre post hp => ?_⟩
  rw [List.append_assoc] at hp
  obtain ⟨c₁, hc₁, hw₁⟩ := hw₁ size hsize p pre (t₂ ++ post) hp
  obtain ⟨c₂, hc₂, hw₂⟩ := hw₂ size hsize p (pre ++ t₁) post (by rw [hp, List.append_assoc])
  rw [List.length_append] at hc₂ hw₂
  refine ⟨c₁, hc₁, (hw₁.mono ?_).trans (.step ?_ hc₂ ?_)⟩
  · rintro e ⟨r, hr, hle, hlo, hhi, hI⟩
    refine ⟨r, hr, hle, hlo, by rw [List.length_append]; omega, fun _ => hI, fun hge => ?_⟩
    omega
  · -- the seam belongs to both stretches
    refine ⟨s₁, rfl, h₁.finish_le, by simp only; omega, by simp only [List.length_append]; omega, ?_⟩
    simp only [Nat.add_sub_cancel_left]
    exact ⟨fun _ => h₁.finish, fun _ => by simpa using h₂.start⟩
  · rw [List.length_append, ← Nat.add_assoc]
    refine hw₂.mono ?_
    rintro e ⟨r, hr, hle, hlo, hhi, hJ⟩
    refine ⟨r, hr, hle, by omega, by omega, fun hge => absurd hge (by omega), fun _ => ?_⟩
    rwa [Nat.sub_sub]

/-- Comments are passed over. -/
theorem comment (ht : ∀ b ∈ t, isPrimitive b = false) (hs : s.depth ≤ hi)
    (hI : ∀ i, i ≤ t.length → I i s) : Crosses hi I t s s := by
  induction t generalizing I with
  | nil => exact nil (hI 0 (by simp)) hs
  | cons b t ih =>
    have hb : Crosses hi I [b] s s :=
      single (hI 0 (by simp)) (hI 1 (by simp)) hs hs fun _ _ _ _ _ hp =>
        Image.step_comment hp (ht b (by simp)) _
    have hrest : Crosses hi (fun i r => I (i + 1) r) t s s :=
      ih (fun c hc => ht c (by simp [hc])) fun i hle => hI (i + 1) (by simpa using hle)
    refine (hb.append hrest).mono fun i r _ h => ?_
    rcases Nat.eq_zero_or_pos i with rfl | hpos
    · exact h.1 (by simp)
    · have := h.2 hpos
      rwa [List.length_singleton, Nat.sub_add_cancel hpos] at this

/-! ### Loops -/

/-- A loop whose cell is zero is passed over. -/
theorem skip (h : s.top = 0) (ht : Balanced t) (h₀ : I 0 s) (h₁ : I (t.length + 2) s)
    (hs : s.depth ≤ hi) :
    Crosses hi I (Symbol.enter.byte :: (t ++ [Symbol.leave.byte])) s s := by
  refine ⟨h₀, by simpa using h₁, hs, hs, fun _ => rfl, fun _ => ⟨0, fun size hsize p pre post hp => ?_⟩⟩
  simp only [List.cons_append, List.append_assoc, List.nil_append] at hp
  refine ⟨_, Image.step_enter hp ht (by omega), ?_⟩
  rw [Image.target, if_pos h, List.length_cons, List.length_append, List.length_singleton]
  exact .refl _

/-- A loop whose cell is not zero runs its body and is entered again. -/
theorem again {s₁ s₂ : Stack} (h : s.top ≠ 0) (ht : Balanced t) (hbody : Crosses hi I t s s₁)
    (hloop : Crosses hi J (Symbol.enter.byte :: (t ++ [Symbol.leave.byte])) s₁ s₂) (h₀ : J 0 s)
    (hIJ : ∀ i r, i ≤ t.length → I i r → J (i + 1) r) :
    Crosses hi J (Symbol.enter.byte :: (t ++ [Symbol.leave.byte])) s s₂ := by
  refine ⟨h₀, hloop.finish, hbody.start_le, hloop.finish_le, fun h => absurd h (by simp), fun hne => ?_⟩
  obtain ⟨m, hm⟩ := hloop.walk hne
  -- the body may be empty, so its walk is stated together with the first bracket
  have hbody' : ∃ n, ∀ size, hi < size → ∀ (p : Image) (pre post : Bytes),
      p.code = pre ++ Symbol.enter.byte :: (t ++ Symbol.leave.byte :: post) →
      Walk p.code.toArray p.jumps (Within size hi pre.length (t.length + 2) J) n
        ⟨pre.length + 1, s.onTape size⟩ ⟨pre.length + 1 + t.length, s₁.onTape size⟩ := by
    by_cases hnil : t = []
    · subst hnil
      obtain rfl := hbody.still rfl
      exact ⟨0, fun _ _ _ _ _ _ => .refl _⟩
    obtain ⟨n, hn⟩ := hbody.walk hnil
    refine ⟨n + 1, fun size hsize p pre post hp => ?_⟩
    obtain ⟨c, hc, hw⟩ := hn size hsize p (pre ++ [Symbol.enter.byte]) (Symbol.leave.byte :: post)
      (by simp [hp])
    rw [List.length_append, List.length_singleton] at hc hw
    refine .step ⟨s, rfl, hbody.start_le, by simp only; omega, by simp only; omega, ?_⟩ hc (hw.mono ?_)
    · simp only [Nat.add_sub_cancel_left]
      exact hIJ 0 s (by omega) hbody.start
    · rintro e ⟨r, hr, hle, hlo, hhi, hI⟩
      refine ⟨r, hr, hle, by omega, by omega, ?_⟩
      have := hIJ _ _ (by omega) hI
      rwa [show e.pc - (pre.length + 1) + 1 = e.pc - pre.length by omega] at this
  obtain ⟨n, hn⟩ := hbody'
  refine ⟨n + (m + 1), fun size hsize p pre post hp => ?_⟩
  obtain ⟨c, hc, hw⟩ := hm size hsize p pre post hp
  have hlen : (Symbol.enter.byte :: (t ++ [Symbol.leave.byte])).length = t.length + 2 := by simp
  rw [hlen] at hw ⊢
  simp only [List.cons_append, List.append_assoc, List.nil_append] at hp
  refine ⟨_, Image.step_enter hp ht (Nat.lt_of_le_of_lt hbody.start_le hsize), ?_⟩
  rw [Image.target, if_neg h]
  -- both brackets send the machine to the same place, so the rest of the loop's own walk fits
  have hs₁ : s₁.depth < size := Nat.lt_of_le_of_lt hloop.start_le hsize
  rw [Image.step_enter hp ht hs₁] at hc
  refine (hn size hsize p pre post hp).trans (.step ?_ (Image.step_leave hp ht hs₁) ?_)
  · refine ⟨s₁, rfl, hbody.finish_le, by simp only; omega, by simp only; omega, ?_⟩
    simp only [show pre.length + 1 + t.length - pre.length = t.length + 1 by omega]
    exact hIJ _ _ (by omega) hbody.finish
  · cases hc
    exact hw

/-! ### Whole programs -/

/-- A configuration whose store holds the cells of a stack that satisfies the promise. -/
def OnTrack (size hi : Nat) (I : Nat → Stack → Prop) (e : Config) : Prop :=
  ∃ r : Stack, e.store = r.onTape size ∧ r.depth ≤ hi ∧ I e.pc r

/-- A crossing of all the code of a machine. -/
theorem whole (h : Crosses hi I t s s') : ∃ n, ∀ size, hi < size → ∀ p : Image, p.code = t →
    Walk p.code.toArray p.jumps (OnTrack size hi I) n ⟨0, s.onTape size⟩ ⟨t.length, s'.onTape size⟩ := by
  by_cases hne : t = []
  · subst hne
    obtain rfl := h.still rfl
    exact ⟨0, fun _ _ _ _ => .refl _⟩
  · obtain ⟨n, hw⟩ := h.walk hne
    refine ⟨n + 1, fun size hsize p hp => ?_⟩
    obtain ⟨c, hc, hw⟩ := hw size hsize p [] [] (by simpa using hp)
    rw [List.length_nil, Nat.zero_add] at hw
    refine .step ⟨s, rfl, h.start_le, h.start⟩ hc (hw.mono ?_)
    rintro e ⟨r, hr, hle, _, _, hI⟩
    exact ⟨r, hr, hle, hI⟩

end Crosses

end StackTape

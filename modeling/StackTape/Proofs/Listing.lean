import StackTape.Listing.Options

/-!
# Listings hold no stray symbols

Everything that a listing adds to the bare code is `Silent`: no byte of it is a symbol of the tape
machine. For labels this rests on `sanitize`, whatever bytes the label has; for the depth after a
fragment it rests on depths being natural numbers, as a minus sign would be a symbol.
-/

namespace StackTape

/-- No byte of the text is a symbol of the tape machine. -/
def Silent (t : Bytes) : Prop := ∀ b ∈ t, isPrimitive b = false

instance (t : Bytes) : Decidable (Silent t) := List.decidableBAll (isPrimitive · = false) t

namespace Silent

theorem nil : Silent [] := fun _ h => absurd h List.not_mem_nil

theorem append {t u : Bytes} (ht : Silent t) (hu : Silent u) : Silent (t ++ u) := fun b hb =>
  (List.mem_append.1 hb).elim (ht b) (hu b)

theorem strip {t : Bytes} (h : Silent t) : strip t = [] := by
  rw [StackTape.strip, List.filter_eq_nil_iff]
  intro b hb
  simp [h b hb]

end Silent

/-! ## Stripping -/

@[simp] theorem strip_nil : strip [] = [] := rfl

theorem strip_cons (b : UInt8) (t : Bytes) :
    strip (b :: t) = if isPrimitive b = true then b :: strip t else strip t := by
  unfold strip
  rw [List.filter_cons]

@[simp] theorem strip_append (t u : Bytes) : strip (t ++ u) = strip t ++ strip u := List.filter_append ..

theorem isPrimitive_byte (s : Symbol) : isPrimitive s.byte = true := by
  simp [isPrimitive, Symbol.ofByte?_byte]

@[simp] theorem strip_symbol (s : Symbol) : strip [s.byte] = [s.byte] := by
  simp [strip, isPrimitive_byte]

mutual

theorem Op.strip_text : (op : Op) → strip op.text = op.text
  | .act a => by
    rw [Op.text]
    exact strip_symbol (.act a)
  | .loop body => by
    rw [Op.text, ← List.singleton_append, strip_append, strip_append, Block.strip_text body]
    simp only [strip_symbol]

/-- Structured code prints nothing but symbols. -/
theorem Block.strip_text : (b : Block) → strip b.text = b.text
  | [] => rfl
  | op :: rest => by rw [Block.text_cons, strip_append, Op.strip_text op, Block.strip_text rest]

end

/-! ## Labels -/

theorem isPrimitive_of_ge {b : UInt8} (h : 0x80 ≤ b) : isPrimitive b = false := by
  have hb : 128 ≤ b.toNat := UInt8.le_iff_toNat_le.1 h
  have hne : ∀ c : UInt8, c.toNat < 128 → b ≠ c := fun c hc e => by subst e; omega
  simp [isPrimitive, Symbol.ofByte?, hne]

/-- A character outside ASCII is encoded without ASCII bytes. -/
theorem encodeChar_ge {c : Char} (h : 0x80 ≤ c.toNat) : ∀ b ∈ Utf8.encodeChar c, 0x80 ≤ b := by
  have hv : ¬ c.val.toNat ≤ 0x7F := by
    have : c.toNat = c.val.toNat := rfl
    omega
  have hge : ∀ n : Nat, 0x80 ≤ n → n < 0x100 → (0x80 : UInt8) ≤ UInt8.ofNat n := fun n h₁ h₂ => by
    rw [UInt8.le_iff_toNat_le, UInt8.toNat_ofNat_of_lt' h₂]
    exact h₁
  intro b hb
  rw [Utf8.encodeChar, String.utf8EncodeChar] at hb
  simp only [hv, if_false] at hb
  split at hb
  · simp only [List.mem_cons, List.not_mem_nil, or_false] at hb
    rcases hb with rfl | rfl <;> exact hge _ (by omega) (by omega)
  · split at hb
    · simp only [List.mem_cons, List.not_mem_nil, or_false] at hb
      rcases hb with rfl | rfl | rfl <;> exact hge _ (by omega) (by omega)
    · simp only [List.mem_cons, List.not_mem_nil, or_false] at hb
      rcases hb with rfl | rfl | rfl | rfl <;> exact hge _ (by omega) (by omega)

theorem encodeChar_ascii {c : Char} (h : c.toNat < 0x80) : Utf8.encodeChar c = [UInt8.ofNat c.toNat] := by
  have hv : c.val.toNat ≤ 0x7F := by
    have : c.toNat = c.val.toNat := rfl
    omega
  rw [Utf8.encodeChar, String.utf8EncodeChar]
  simp only [hv, if_true]
  rfl

/-- A character that is no symbol is encoded silently. -/
theorem silent_encodeChar {c : Char} (h : c.toNat < 0x80 → isPrimitive (UInt8.ofNat c.toNat) = false) :
    Silent (Utf8.encodeChar c) := by
  by_cases hc : c.toNat < 0x80
  · rw [encodeChar_ascii hc]
    intro b hb
    rw [List.mem_singleton.1 hb]
    exact h hc
  · exact fun b hb => isPrimitive_of_ge (encodeChar_ge (by omega) b hb)

namespace Listing

theorem sanitizeChar_not_primitive (c : Char) (h : (sanitizeChar c).toNat < 0x80) :
    isPrimitive (UInt8.ofNat (sanitizeChar c).toNat) = false := by
  unfold sanitizeChar at h ⊢
  split
  · decide
  · split
    · decide
    · rename_i hnot hline
      simp only [hnot, hline, if_false] at h
      simpa [h] using hnot

/-- Sanitized text is silent, whatever bytes it is made from. -/
theorem silent_sanitize (s : Bytes) : Silent (sanitize s) := by
  intro b hb
  simp only [sanitize, Utf8.encode, List.mem_flatMap, List.mem_map] at hb
  obtain ⟨_, ⟨c, _, rfl⟩, hb⟩ := hb
  exact silent_encodeChar (sanitizeChar_not_primitive c) b hb

theorem silent_spaces {n : Int} {t : Bytes} (h : spaces n = .ok t) : Silent t := by
  have hsp : ∀ k, Silent (copies k [0x20]) := fun k b hb => by
    simp only [copies, List.mem_flatten, List.mem_replicate] at hb
    obtain ⟨l, ⟨_, rfl⟩, hb⟩ := hb
    rw [List.mem_singleton.1 hb]
    decide
  unfold spaces repeated at h
  split at h
  · cases h
  · split at h
    · cases h; exact .nil
    · split at h <;> cases h
      exact hsp _

theorem silent_comment {o : Options} {level : Int} {label t : Bytes} (h : comment o level label = .ok t) :
    Silent t := by
  simp only [comment, bind, Except.bind, pure, Except.pure] at h
  split at h
  · cases h
  · rename_i before hb
    split at h
    · cases h
    · rename_i after ha
      cases h
      have hopen : Silent (ascii "/* ") := by decide
      have hclose : Silent (ascii " */") := by decide
      exact (((hopen.append (silent_spaces hb)).append (silent_sanitize label)).append (silent_spaces ha)).append hclose

/-! ## Pieces of a listing -/

/-- What stands behind a fragment: the stack depth it leaves. -/
def depthNote (o : Options) (depth : Nat) : Bytes :=
  if o.comments then ascii " #" ++ decimal depth ++ ascii "\n" else []

/-- A line is a mark, the code, and the depth after it. -/
theorem line_eq (o : Options) (level : Int) (label code : Bytes) (depth : Nat) :
    line o level label code depth = (mark o level label).map fun m => m ++ code ++ depthNote o depth := by
  unfold line mark depthNote
  cases o.comments with
  | false => simp [pure, Except.pure, Except.map]
  | true =>
    cases comment o level label with
    | error => rfl
    | ok t => simp [bind, Except.bind, pure, Except.pure, Except.map, decimalInt]

theorem silent_mark {o : Options} {level : Int} {label t : Bytes} (h : mark o level label = .ok t) :
    Silent t := by
  unfold mark at h
  split at h
  · cases hc : comment o level label with
    | error => rw [hc] at h; cases h
    | ok c =>
      rw [hc] at h
      cases h
      exact (silent_comment hc).append (by decide)
  · cases h; exact .nil

theorem silent_lineBreak (o : Options) : Silent (lineBreak o) := by
  unfold lineBreak
  split <;> decide

theorem silent_decimal (n : Nat) : Silent (decimal n) := by
  intro b hb
  obtain ⟨c, hc, rfl⟩ := List.mem_map.1 hb
  have hdigit : ∀ n, n < 58 → 48 ≤ n → isPrimitive (UInt8.ofNat n) = false := by decide
  obtain ⟨hlo, hhi⟩ := Char.isDigit_iff_toNat.1 (Nat.isDigit_of_mem_toDigits (by omega) (by omega) hc)
  exact hdigit _ (Nat.lt_succ_of_le hhi) hlo

theorem silent_depthNote (o : Options) (depth : Nat) : Silent (depthNote o depth) := by
  unfold depthNote
  split
  · exact ((show Silent (ascii " #") by decide).append (silent_decimal depth)).append (by decide)
  · exact .nil

end Listing

end StackTape

import StackTape.Proofs.Stripping
import StackTape.Semantics.Tape

/-!
# Jumps and loops

The machine knows positions and a jump table; `Block.Runs` knows loops. They agree on every balanced text.

A block is placed anywhere in a text, `pre ++ (b.text ++ post)`. From the first byte of the place, a run that
comes to an end either leaves the tape inside the block, or gets to the byte behind the block and goes on
there (`passes_of_stops`, by induction on the number of steps). Conversely what the block does is done by the
machine, whatever the code behind it goes on to do (`leads_of_runs`, by induction on the rules). In both
directions a loop turns on one fact: its two brackets send the machine to the same place.
-/

namespace StackTape

/-! ## Reading code -/

namespace Block

theorem readFrom_cons (outer : List Block) (inner : Block) (b : UInt8) (bs : Bytes) :
    readFrom outer inner (b :: bs) =
      match Symbol.ofByte? b, outer with
      | none, outer => readFrom outer inner bs
      | some (.act a), outer => readFrom outer (inner ++ [.act a]) bs
      | some .enter, outer => readFrom (inner :: outer) [] bs
      | some .leave, [] => none
      | some .leave, around :: outer => readFrom outer (around ++ [.loop inner]) bs := by
  cases outer <;> rw [readFrom.eq_def] <;> simp only <;> rcases Symbol.ofByte? b with _ | (a | _ | _) <;> rfl

/-- Comments are not part of the block. -/
theorem readFrom_strip (code : Bytes) (outer : List Block) (inner : Block) :
    readFrom outer inner (strip code) = readFrom outer inner code := by
  induction code generalizing outer inner with
  | nil => rfl
  | cons b code ih =>
    rw [strip_cons, readFrom_cons outer inner b code]
    rcases hb : Symbol.ofByte? b with _ | (a | _ | _)
    · simp [isPrimitive, hb, ih]
    · simp [isPrimitive, hb, readFrom_cons, ih]
    · simp [isPrimitive, hb, readFrom_cons, ih]
    · cases outer <;> simp [isPrimitive, hb, readFrom_cons, ih]

mutual

theorem readFrom_op (outer : List Block) (inner : Block) (rest : Bytes) :
    (op : Op) → readFrom outer inner (op.text ++ rest) = readFrom outer (inner ++ [op]) rest
  | .act a => by
    have hs : Symbol.ofByte? a.byte = some (.act a) := Symbol.ofByte?_byte (.act a)
    rw [Op.text, List.singleton_append, readFrom_cons, hs]
  | .loop body => by
    rw [Op.text, List.cons_append, List.append_assoc, readFrom_cons, Symbol.ofByte?_byte]
    simp only
    rw [readFrom_text (inner :: outer) [] _ body, List.singleton_append, readFrom_cons, Symbol.ofByte?_byte]
    rfl

/-- Reading the text of a block appends the block to what was read before. -/
theorem readFrom_text (outer : List Block) (inner : Block) (rest : Bytes) :
    (b : Block) → readFrom outer inner (text b ++ rest) = readFrom outer (inner ++ b) rest
  | [] => by simp
  | op :: b => by
    rw [text_cons, List.append_assoc, readFrom_op outer inner _ op, readFrom_text outer (inner ++ [op]) rest b,
      List.append_assoc, List.singleton_append]

end

theorem ofCode?_of_text {b : Block} {code : Bytes} (h : b.text = strip code) : ofCode? code = some b := by
  have hread := readFrom_text [] [] [] b
  rw [List.append_nil, h, readFrom_strip] at hread
  rw [ofCode?, hread]
  rfl

/-- A balanced text is the text of a block, apart from comments. -/
theorem exists_text {code : Bytes} (h : Balanced code) : ∃ b : Block, b.text = strip code := by
  induction h with
  | nil => exact ⟨[], rfl⟩
  | @straight c t hc _ ih =>
    obtain ⟨b, hb⟩ := ih
    rw [strip_cons]
    split
    · rename_i hprim
      obtain ⟨a, rfl⟩ := hc.eq_act hprim
      exact ⟨.act a :: b, by rw [text_cons, hb]; rfl⟩
    · exact ⟨b, hb⟩
  | @loop t u _ _ iht ihu =>
    obtain ⟨body, hbody⟩ := iht
    obtain ⟨rest, hrest⟩ := ihu
    refine ⟨.loop body :: rest, ?_⟩
    simp [strip_loop, Op.text, hbody, hrest]

end Block

/-! ## Blocks in a text -/

/-- The text of the block stands in the code from `start` on; the byte behind it is at `stop`. -/
def Block.At (p : Image) (b : Block) (start stop : Nat) : Prop :=
  ∃ pre post, p.code = pre ++ (b.text ++ post) ∧ start = pre.length ∧ stop = start + b.text.length

namespace Block.At

variable {p : Image} {start stop : Nat}

theorem nil (h : At p [] start stop) : stop = start := by
  obtain ⟨pre, post, _, rfl, rfl⟩ := h
  simp

/-- An action stands at the start of its block, and the rest of the block behind it. -/
theorem act {a : Act} {rest : Block} (h : At p (.act a :: rest) start stop) :
    At p rest (start + 1) stop ∧ ∀ s : Store, s.inRange = true →
      step p.code.toArray p.jumps ⟨start, s⟩ =
        if (s.act a).inRange then .ok ⟨start + 1, s.act a⟩
        else .error (.outOfRange start (s.act a).ptr, s.act a) := by
  obtain ⟨pre, post, hcode, rfl, rfl⟩ := h
  rw [text_cons, Op.text] at hcode ⊢
  refine ⟨⟨pre ++ [a.byte], post, by simp [hcode], by simp, by simp; omega⟩, fun s hs => ?_⟩
  rw [step_action (Image.getElem?_code hcode)]
  simp only [Store.cell?_of_inRange hs, Option.isNone_some, Bool.and_false, Bool.false_eq_true, if_false]

/-- A loop has two brackets, with the body between them and the rest of the block behind the second one. Both
brackets send the machine to the same place: to the body or to the rest. -/
theorem loop {body rest : Block} (h : At p (.loop body :: rest) start stop) :
    ∃ close, At p body (start + 1) close ∧ At p rest (close + 1) stop ∧ ∀ s : Store, s.inRange = true →
      ∀ pc, pc = start ∨ pc = close →
        step p.code.toArray p.jumps ⟨pc, s⟩ = .ok ⟨if s.cell = 0 then close + 1 else start + 1, s⟩ := by
  obtain ⟨pre, post, hcode, rfl, rfl⟩ := h
  have hloop : p.code = pre ++ Symbol.enter.byte :: (body.text ++ Symbol.leave.byte :: (rest.text ++ post)) := by
    simp [hcode, Op.text]
  have hclose : pre.length + body.text.length + 2 = pre.length + 1 + body.text.length + 1 := by omega
  refine ⟨pre.length + 1 + body.text.length,
    ⟨pre ++ [Symbol.enter.byte], Symbol.leave.byte :: (rest.text ++ post), by simp [hloop], by simp, rfl⟩,
    ⟨pre ++ Symbol.enter.byte :: (body.text ++ [Symbol.leave.byte]), post, by simp [hloop], by simp; omega,
      by simp [Op.text]; omega⟩, ?_⟩
  rintro s hs pc (rfl | rfl)
  · rw [Image.step_enter_cell hloop body.balanced_text (Store.cell?_of_inRange hs), hclose]
  · rw [Image.step_leave_cell hloop body.balanced_text (Store.cell?_of_inRange hs), hclose]

end Block.At

/-! ## From the machine to the rules -/

section
variable {p : Image} {b : Block} {start stop : Nat} {s : Store}

/-- What a run that ends with `r` has done in a block: it has left the tape, or it has got behind the block and
goes on from there for at most `n` steps. -/
def Passes (p : Image) (b : Block) (s : Store) (stop n : Nat) (r : Verdict × Store) : Prop :=
  (r.1.ending? = some .outOfRange ∧ b.Runs s .outOfRange r.2) ∨
    ∃ k s', k ≤ n ∧ s'.inRange = true ∧ b.Runs s .done s' ∧ Stops p.code.toArray p.jumps k ⟨stop, s'⟩ r

theorem Passes.imp {b' : Block} {s₀ : Store} {k n : Nat} {r : Verdict × Store} (h : Passes p b s stop k r)
    (hle : k ≤ n) (hruns : ∀ e s', b.Runs s e s' → b'.Runs s₀ e s') : Passes p b' s₀ stop n r := by
  obtain ⟨hout, hrun⟩ | ⟨j, s', hj, hs', hrun, hstop⟩ := h
  · exact .inl ⟨hout, hruns _ _ hrun⟩
  · exact .inr ⟨j, s', by omega, hs', hruns _ _ hrun, hstop⟩

/-- **A run through a block follows the rules of the block.** -/
theorem passes_of_stops {n : Nat} {r : Verdict × Store} (hb : b.At p start stop) (hs : s.inRange = true)
    (h : Stops p.code.toArray p.jumps n ⟨start, s⟩ r) : Passes p b s stop n r := by
  -- every part of a block is entered with fewer steps left, also a loop when it is entered again
  induction n using Nat.strongRecOn generalizing b start stop s with
  | ind n ih =>
    match b, hb with
    | [], hb =>
      rw [hb.nil]
      exact .inr ⟨n, s, Nat.le_refl n, hs, .nil, h⟩
    | .act a :: rest, hb =>
      obtain ⟨hrest, hstep⟩ := hb.act
      have hstep := hstep s hs
      cases hrange : (s.act a).inRange with
      | false =>
        rw [hrange, if_neg (by simp)] at hstep
        rw [h.eq_of_error hstep]
        exact .inl ⟨rfl, .off hrange⟩
      | true =>
        rw [hrange, if_pos rfl] at hstep
        obtain ⟨k, rfl, hk⟩ := h.tail hstep
        exact (ih k (by omega) hrest hrange hk).imp (by omega) fun e s' => .act hrange
    | .loop body :: rest, hb =>
      obtain ⟨close, hbody, hrest, hjump⟩ := hb.loop
      have hstep := hjump s hs start (.inl rfl)
      by_cases hcell : s.cell = 0
      · rw [if_pos hcell] at hstep
        obtain ⟨k, rfl, hk⟩ := h.tail hstep
        exact (ih k (by omega) hrest hs hk).imp (by omega) fun e s' => .skip hcell
      · rw [if_neg hcell] at hstep
        obtain ⟨k, rfl, hk⟩ := h.tail hstep
        obtain ⟨hout, hrun⟩ | ⟨j, s₁, hj, hs₁, hrun, hstop⟩ := ih k (by omega) hbody hs hk
        · exact .inl ⟨hout, .inside hcell hrun⟩
        · have hagain : Stops p.code.toArray p.jumps j ⟨start, s₁⟩ r :=
            hstop.of_step_eq (hjump s₁ hs₁ close (.inr rfl)) (hjump s₁ hs₁ start (.inl rfl))
          exact (ih j (by omega) hb hs₁ hagain).imp (by omega) fun e s' => .again hcell hrun

/-! ## From the rules to the machine -/

/-- The machine gets from one place and store to another, whatever it does afterwards; or it leaves the tape
on the way. -/
def Leads (p : Image) (start stop : Nat) (s : Store) : Ending → Store → Prop
  | .done, s' => s'.inRange = true ∧
    ∀ n r, Stops p.code.toArray p.jumps n ⟨stop, s'⟩ r → ∃ n', Stops p.code.toArray p.jumps n' ⟨start, s⟩ r
  | .outOfRange, s' => ∃ n pos, Stops p.code.toArray p.jumps n ⟨start, s⟩ (.outOfRange pos s'.ptr, s')

theorem Leads.trans {mid : Nat} {s₁ s' : Store} {e : Ending} (h : Leads p start mid s .done s₁)
    (h' : Leads p mid stop s₁ e s') : Leads p start stop s e s' := by
  cases e with
  | done =>
    refine ⟨h'.1, fun n r hr => ?_⟩
    obtain ⟨k, hk⟩ := h'.2 n r hr
    exact h.2 k r hk
  | outOfRange =>
    obtain ⟨n, pos, hn⟩ := h'
    obtain ⟨k, hk⟩ := h.2 n _ hn
    exact ⟨k, pos, hk⟩

theorem Leads.step {mid : Nat} {s₁ : Store} (hs₁ : s₁.inRange = true)
    (h : StackTape.step p.code.toArray p.jumps ⟨start, s⟩ = .ok ⟨mid, s₁⟩) : Leads p start mid s .done s₁ :=
  ⟨hs₁, fun n _ hr => ⟨n + 1, .next h hr⟩⟩

/-- **What a block does is done by the machine.** -/
theorem leads_of_runs {e : Ending} {s' : Store} (h : b.Runs s e s') (hb : b.At p start stop)
    (hs : s.inRange = true) : Leads p start stop s e s' := by
  induction h generalizing start stop with
  | nil =>
    rw [hb.nil]
    exact ⟨hs, fun n r hr => ⟨n, hr⟩⟩
  | @act a rest s s' e hrange _ ih =>
    obtain ⟨hrest, hstep⟩ := hb.act
    have hstep := hstep s hs
    rw [if_pos hrange] at hstep
    exact (Leads.step hrange hstep).trans (ih hrest hrange)
  | @off a rest s hrange =>
    have hstep := hb.act.2 s hs
    rw [hrange, if_neg (by simp)] at hstep
    exact ⟨0, start, .here hstep⟩
  | @skip body rest s s' e hcell _ ih =>
    obtain ⟨close, _, hrest, hjump⟩ := hb.loop
    have hstep := hjump s hs start (.inl rfl)
    rw [if_pos hcell] at hstep
    exact (Leads.step hs hstep).trans (ih hrest hs)
  | @again body rest s s₁ s' e hcell _ _ ihBody ihAgain =>
    obtain ⟨close, hbody, _, hjump⟩ := hb.loop
    have hstep := hjump s hs start (.inl rfl)
    rw [if_neg hcell] at hstep
    have hround := (Leads.step hs hstep).trans (ihBody hbody hs)
    have hs₁ : s₁.inRange = true := hround.1
    -- from the second bracket a run goes on as it does from the first
    have hback : Leads p close start s₁ .done s₁ := ⟨hs₁, fun n r hr =>
      ⟨n, hr.of_step_eq (hjump s₁ hs₁ start (.inl rfl)) (hjump s₁ hs₁ close (.inr rfl))⟩⟩
    exact (hround.trans hback).trans (ihAgain hb hs₁)
  | @inside body rest s s' hcell _ ihBody =>
    obtain ⟨close, hbody, _, hjump⟩ := hb.loop
    have hstep := hjump s hs start (.inl rfl)
    rw [if_neg hcell] at hstep
    have hinside := ihBody hbody hs
    -- a run that leaves the tape is over, so it makes no difference where it was to go
    have hout : Leads p (start + 1) stop s .outOfRange s' := hinside
    exact (Leads.step hs hstep).trans hout

/-- On a text that is a block and nothing else, the machine and the rules come to the same ends. -/
theorem stops_iff_runs (hcode : p.code = b.text) (hs : s.inRange = true) {e : Ending} {s' : Store} :
    (∃ n v, Stops p.code.toArray p.jumps n ⟨0, s⟩ (v, s') ∧ v.ending? = some e) ↔ b.Runs s e s' := by
  have hb : b.At p 0 b.text.length := ⟨[], [], by simp [hcode], rfl, by simp⟩
  have hend : ∀ t, step p.code.toArray p.jumps ⟨b.text.length, t⟩ = .error (.done, t) := fun t =>
    step_end (by simp [hcode])
  constructor
  · rintro ⟨n, v, hn, he⟩
    obtain ⟨hout, hrun⟩ | ⟨k, t, _, _, hrun, hstop⟩ := passes_of_stops hb hs hn
    · obtain rfl : e = .outOfRange := Option.some.inj (he.symm.trans hout)
      exact hrun
    · cases hstop.eq_of_error (hend t)
      cases he
      exact hrun
  · intro hrun
    have hleads := leads_of_runs hrun hb hs
    cases e with
    | done =>
      obtain ⟨n, hn⟩ := hleads.2 0 _ (.here (hend s'))
      exact ⟨n, _, hn, rfl⟩
    | outOfRange =>
      obtain ⟨n, pos, hn⟩ := hleads
      exact ⟨n, _, hn, rfl⟩

end

/-! ## Machines -/

theorem Verdict.ending?_unplaced (v : Verdict) : v.unplaced.ending? = v.ending? := by
  cases v <;> rfl

theorem Verdict.isCut_of_ending {v : Verdict} {e : Ending} (h : v.ending? = some e) : v.isCut = false := by
  cases v <;> simp_all [ending?, isCut]

namespace Machine

/-- The result has the given ending and leaves the given output, tape and pointer. -/
def Result.Shows (r : Result) (e : Ending) (output : Bytes) (tape : Array UInt8) (ptr : Int) : Prop :=
  r.verdict.ending? = some e ∧ r.output = output ∧ r.machine.tape = tape ∧ r.machine.ptr = ptr

variable {m : Machine} {code input output : Bytes} {e : Ending} {tape : Array UInt8} {ptr : Int}

theorem Result.Agrees.shows {r r' : Result} (h : r.Agrees r') (hr : r'.Shows e output tape ptr) :
    r.Shows e output tape ptr := by
  obtain ⟨hverdict, hout, htape, hptr⟩ := h
  rw [Shows, hout, htape, hptr, ← Verdict.ending?_unplaced, hverdict, Verdict.ending?_unplaced]
  exact hr

/-- Under some limit, a text ends as it does without comments. -/
theorem exists_shows_strip :
    (∃ limit, (m.runWithin limit code input).Shows e output tape ptr) ↔
      ∃ limit, (m.runWithin limit (strip code) input).Shows e output tape ptr := by
  constructor
  · rintro ⟨limit, h⟩
    exact ⟨limit, (runWithin_strip (Verdict.isCut_of_ending h.1)).shows h⟩
  · rintro ⟨limit, h⟩
    exact ⟨_, (runWithin_of_strip (Verdict.isCut_of_ending h.1) (Nat.le_refl _)).shows h⟩

theorem exists_shows_image {p : Image} {b : Block} (hcode : p.code = b.text)
    (hs : (m.start input).store.inRange = true) :
    (∃ limit, (m.runWithin limit p.code input).Shows e output tape ptr) ↔
      b.Yields (m.start input).store e output tape ptr := by
  constructor
  · rintro ⟨limit, h⟩
    rw [runWithin_eq p.matched] at h
    obtain ⟨hending, hout, htape, hptr⟩ := h
    obtain ⟨n, hn, _⟩ := stops_of_exec rfl (Verdict.isCut_of_ending hending)
    exact ⟨_, (stops_iff_runs hcode hs).1 ⟨n, _, hn, hending⟩, hout, htape, hptr⟩
  · rintro ⟨s, hrun, hout, htape, hptr⟩
    obtain ⟨n, v, hn, hending⟩ := (stops_iff_runs hcode hs).2 hrun
    refine ⟨n + 1, ?_⟩
    have hexec : exec p.code.toArray p.jumps (n + 1) (m.start input).pc (m.start input).store = (v, s) :=
      exec_of_stops hn (.inl (Nat.lt_succ_self n))
    rw [runWithin_eq p.matched, hexec]
    exact ⟨hending, hout, htape, hptr⟩

/-- Without a bound on limits, the machine and the rules come to the same ends on every text that is a block apart from
comments. -/
theorem exists_shows_iff_yields {b : Block} (hb : b.text = strip code) (hlo : 0 ≤ m.ptr) (hhi : m.ptr < m.tape.size) :
    (∃ limit, (m.runWithin limit code input).Shows e output tape ptr) ↔
      b.Yields (m.start input).store e output tape ptr := by
  have hs : (m.start input).store.inRange = true := by
    simp [start, Store.inRange, hlo, hhi]
  obtain ⟨_, q, _, hq⟩ := exists_images (balanced_strip_iff.1 (hb ▸ b.balanced_text))
  rw [exists_shows_strip, ← hq, exists_shows_image (hq.trans hb.symm) hs]

/-- A run shows what the block yields unless its limit cuts it off. -/
theorem shows_iff_yields {b : Block} (hb : b.text = strip code) (hlo : 0 ≤ m.ptr) (hhi : m.ptr < m.tape.size)
    (limit : Nat) :
    (m.runWithin limit code input).Shows e output tape ptr ↔
      b.Yields (m.start input).store e output tape ptr ∧ (m.runWithin limit code input).verdict.isCut = false := by
  rw [← exists_shows_iff_yields hb hlo hhi]
  constructor
  · intro h
    exact ⟨⟨limit, h⟩, Verdict.isCut_of_ending h.1⟩
  · rintro ⟨⟨limit', h⟩, hcut⟩
    exact (agrees_of_not_cut rfl hcut (Verdict.isCut_of_ending h.1)).shows h

/-- **The machine implements structured loops.** Every balanced text is read as a block. Take any machine with its
pointer on the tape and any input. Under a given step limit, a run of the text ends in a given way, with a given output,
tape and pointer, exactly when the block does and the limit does not cut the run off. So there is a step limit for it
exactly when the block ends that way and the greatest limit of a machine is enough. For limits that may be any
number, there is one exactly when the block ends that way. -/
theorem run_iff_block_runs (hcode : Balanced code) :
    ∃ b, Block.ofCode? code = some b ∧ b.text = strip code ∧
      ∀ (m : Machine) (input : Bytes), 0 ≤ m.ptr → m.ptr < m.tape.size →
        ∀ (e : Ending) (output : Bytes) (tape : Array UInt8) (ptr : Int),
          (∀ steps, (({ m with steps } : Machine).run code input).Shows e output tape ptr ↔
            b.Yields (m.start input).store e output tape ptr ∧
              (({ m with steps } : Machine).run code input).verdict.isCut = false) ∧
          ((∃ steps : Int, -wordBound ≤ steps ∧ steps < wordBound ∧
              (({ m with steps } : Machine).run code input).Shows e output tape ptr) ↔
            b.Yields (m.start input).store e output tape ptr ∧
              (m.runWithin wordBound code input).verdict.isCut = false) ∧
          ((∃ limit, (m.runWithin limit code input).Shows e output tape ptr) ↔
            b.Yields (m.start input).store e output tape ptr) := by
  obtain ⟨b, hb⟩ := Block.exists_text hcode
  refine ⟨b, Block.ofCode?_of_text hb, hb, fun m input hlo hhi e output tape ptr => ?_⟩
  have hshows : ∀ steps, (({ m with steps } : Machine).run code input).Shows e output tape ptr ↔
      b.Yields (m.start input).store e output tape ptr ∧
        (({ m with steps } : Machine).run code input).verdict.isCut = false := by
    intro steps
    rw [run_eq_runWithin]
    exact shows_iff_yields (m := { m with steps }) hb hlo hhi _
  refine ⟨hshows, ?_, exists_shows_iff_yields hb hlo hhi⟩
  rw [← exists_steps_iff]
  constructor
  · rintro ⟨steps, hlo, hhi, h⟩
    obtain ⟨hyields, hcut⟩ := (hshows steps).1 h
    exact ⟨hyields, steps, hlo, hhi, hcut⟩
  · rintro ⟨hyields, steps, hlo, hhi, hcut⟩
    exact ⟨steps, hlo, hhi, (hshows steps).2 ⟨hyields, hcut⟩⟩

/-- A loop with a comment in it, which moves a value to the next cell. -/
theorem run_iff_block_runs_move :
    ∃ b, Block.ofCode? (ascii "++[>+< move -]>.") = some b ∧
      b.Yields ((Machine.fresh 2).start []).store .done [2] #[0, 2] 1 ∧
      ∃ steps : Int, -wordBound ≤ steps ∧ steps < wordBound ∧
        (({ Machine.fresh 2 with steps } : Machine).run (ascii "++[>+< move -]>.") []).Shows .done [2] #[0, 2] 1 := by
  have hcode : Balanced (ascii "++[>+< move -]>.") := JumpTable.ofCode_ok_iff.1 ⟨_, rfl⟩
  obtain ⟨b, hb, _, hiff⟩ := run_iff_block_runs hcode
  obtain ⟨hsteps, hsome, _⟩ := hiff (.fresh 2) [] (by decide) (by decide) .done [2] #[0, 2] 1
  have hshows : (({ Machine.fresh 2 with steps := 100 } : Machine).run (ascii "++[>+< move -]>.") []).Shows .done [2]
      #[0, 2] 1 := ⟨by decide, by decide, by decide, by decide⟩
  have hyields := ((hsteps 100).1 hshows).1
  exact ⟨b, hb, hyields, hsome.2 ⟨hyields, (hsome.1 ⟨100, by decide, by decide, hshows⟩).2⟩⟩

/-- Eight countdowns and nothing inside them. The block ends, with no output and the tape as it was, but a run of the
text is cut off whatever step limit the machine is given. -/
theorem block_runs_overlong :
    let code := ascii "-[>-[>-[>-[>-[>-[>-[>-[><-]<-]<-]<-]<-]<-]<-]<-]"
    Balanced code ∧ ∃ b, Block.ofCode? code = some b ∧ b.text = strip code ∧
      b.Yields ((fresh 9).start []).store .done [] (fresh 9).tape 0 ∧
      ∀ steps, ∃ pos, (({ fresh 9 with steps } : Machine).run code []).verdict = .tooLong pos := by
  intro code
  have hcode : code = nest [] 8 := rfl
  have hbalanced : Balanced code := hcode ▸ balanced_nest (by simp) 8
  obtain ⟨b, hb⟩ := Block.exists_text hbalanced
  refine ⟨hbalanced, b, Block.ofCode?_of_text hb, hb, ?_, fun steps => ?_⟩
  · have hrun : (limited 9 0).runWithin (nestTime 0 8) (nest [] 8) [] = ⟨.done, [], limited 9 0⟩ :=
      runWithin_nest_done (by simp) (by decide) 0 [] (Nat.le_refl _)
    refine (exists_shows_iff_yields (m := limited 9 0) hb (by decide) (by decide)).1 ⟨nestTime 0 8, ?_⟩
    rw [hcode, hrun]
    exact ⟨rfl, rfl, rfl, rfl⟩
  · rw [hcode]
    exact run_nest_cut (by simp) (by decide) steps [] (by decide)

end Machine

end StackTape

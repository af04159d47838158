-- The temporary register: what the lines leave in it that load, scale and add a part of an address,
-- and what taking it for one slot does to the slot that held it.
import Backend.Proofs.Lowering.Effects

namespace Backend.Lowering

open Backend.Machine (Place Assigns)

/-! ## Lines in the temporary register -/

/-- The operand is no literal. -/
def NoLiteral (o : Option Operand) : Prop := ∀ l, o ≠ some (.imm l)

/-- The temporary register holds the word and nothing else changed but r11. -/
structure InTemp (w : BitVec 64) (s s' : Machine.State) : Prop where
  rest : Untouched none 0 s s'
  word : s'.regs Machine.r10 = w

theorem inTemp_of_assigns {w : BitVec 64} {s s1 s' : Machine.State} (h : Untouched none 0 s s1)
    (ha : Assigns (.reg Machine.r10) (n := 8) w [Machine.r11] s1 s') : InTemp w s s' where
  rest := h.trans (untouched_of_temp ha)
  word := by
    have hval := ha.value
    simpa [Machine.State.get] using hval

section Lines

variable {e : Scene} {cx : Context} {s : Machine.State}

/-- The effect of a move. -/
theorem effect?_move {o o' : Operand} {p : Place} {d : Datum} {pos : Position}
    (ho : e.datum? s o = some d) (hp : e.place? s o' = some p) :
    e.effect? s ⟨.move, some o, none, none, some o', pos⟩ =
      some (.assign p (width o') (d.brought (width o'))) := by
  unfold Scene.effect? Scene.assign? Scene.computed? Scene.source?
  simp [ho, hp, Opcode.isArithmetic, Opcode.isCondBranch, Opcode.isCompare]

/-- The effect of taking the address of a symbol. -/
theorem effect?_lea (y : Symbol) {o' : Operand} {p : Place} {pos : Position}
    (hp : e.place? s o' = some p) :
    e.effect? s ⟨.lea, some (.symbol y), none, none, some o', pos⟩ =
      some (.assign p (width o') ((e.symbolAddress y).setWidth _)) := by
  unfold Scene.effect? Scene.assign? Scene.computed?
  simp [hp, Opcode.isArithmetic, Opcode.isCondBranch, Opcode.isCompare]

/-- What is in the temporary register as a word. -/
theorem datum?_temp (s : Machine.State) : e.datum? s (.reg (tempReg .i64)) =
    some ⟨true, 8, s.get (.reg Machine.r10) 8⟩ := rfl

theorem place?_temp (s : Machine.State) (t : Ty) :
    e.place? s (.reg (tempReg t)) = some (.reg Machine.r10) := rfl

/-- A part of an address that is no literal is an operand worth that word. -/
theorem datum?_of_index {o : Operand} {w : BitVec 64} (h : e.index? s (some o) = some w)
    (hlit : NoLiteral (some o)) : ∃ d, e.datum? s o = some d ∧ d.brought 8 = w := by
  cases o with
  | imm l => exact absurd rfl (hlit l)
  | symbol y => exact ⟨_, rfl, Option.some.inj h⟩
  | reg r => exact ⟨_, rfl, Option.some.inj h⟩
  | stack offset t => exact ⟨_, rfl, Option.some.inj h⟩
  | var v =>
    obtain ⟨p, hp, hw⟩ := Option.map_eq_some_iff.mp h
    exact ⟨held s (.var v) p, by simp [Scene.datum?, Scene.place?, hp], hw⟩
  | indirect => cases h
  | label l => cases h
  | list items => cases h

theorem width_tempReg (t : Ty) : width (.reg (tempReg t)) = registerWidth t := by
  cases t <;> rfl

/-- The type of the temporary register is as wide as the one it is used for. -/
theorem registerWidth_tempReg (t : Ty) :
    registerWidth (Operand.reg (tempReg t)).ty = registerWidth t := by
  cases t <;> decide

/-- From a state that satisfies `P` a word was brought into the temporary register. -/
def After (P : Machine.State → Prop) (w : BitVec 64) (s' : Machine.State) : Prop :=
  ∃ s, P s ∧ InTemp w s s'

variable {P : Machine.State → Prop} {w : BitVec 64}

theorem works_loadPart {o : Operand} (h : ∀ s, P s → e.index? s (some o) = some w)
    (hlit : NoLiteral (some o)) :
    Works e (emit cx .move (some o) none (some (.reg (tempReg .i64)))) P fun _ => After P w := by
  refine works_keep fun s1 hs1 => ?_
  obtain ⟨d, hd, hw⟩ := datum?_of_index (h s1 hs1) hlit
  refine ⟨_, _, _, Nat.le_refl 8, effect?_move hd (place?_temp s1 .i64), fun s2 h2 => ⟨s1, hs1, ?_⟩⟩
  rw [← hw]
  exact inTemp_of_assigns (.refl s1) h2

theorem works_loadBase {b : Operand} (h : ∀ s, P s → e.base? s (some b) = some w) :
    Works e (loadBase cx b (tempReg .i64)) P fun _ => After P w := by
  unfold loadBase
  split
  · rename_i y
    refine works_keep fun s1 hs1 => ?_
    have hw : (e.symbolAddress y).setWidth (8 * 8) = w := by
      rw [← Option.some.inj (h s1 hs1)]
      exact BitVec.setWidth_eq _
    refine ⟨_, _, _, Nat.le_refl 8, effect?_lea y (place?_temp s1 .i64), fun s2 h2 => ⟨s1, hs1, ?_⟩⟩
    rw [← hw]
    exact inTemp_of_assigns (.refl s1) h2
  · exact works_loadPart h fun l hl => by cases hl
  · exact works_loadPart h fun l hl => by cases hl
  · exact works_fail cx _

theorem low?_self (signed : Bool) (n : Nat) (v : BitVec (8 * n)) :
    (⟨signed, n, v⟩ : Datum).low? n = some v := by
  unfold Datum.low? Datum.brought
  rw [if_pos (Nat.le_refl n), Backend.Selection.convert_self]

/-- The effect of shifting the temporary register by a literal. -/
theorem effect?_shlTemp (k : Int64) {w : BitVec 64} {pos : Position} (h : s.regs Machine.r10 = w) :
    e.effect? s ⟨.shl, some (.reg (tempReg .i64)), some (.imm (.ofInt .i8 k)), none,
      some (.reg (tempReg .i64)), pos⟩ =
      some (.assign (.reg Machine.r10) 8 (w <<< (k.toBitVec.toNat % 64) : BitVec (8 * 8))) := by
  have hget : s.get (.reg Machine.r10) 8 = w := by simp [Machine.State.get, h]
  have hguard : (Opcode.shl.isArithmetic && !((some (Operand.reg (tempReg .i64))).map
      fun o => o.ty.isInteger).getD false) = false := by decide
  unfold Scene.effect? Scene.assign? Scene.computed? Scene.source?
  rw [hguard]
  simp only [Option.bind_some, datum?_temp, hget]
  have hlow : (⟨true, 8, w⟩ : Datum).low? 8 = some w := low?_self true 8 w
  simp only [Opcode.isCondBranch, Opcode.isCompare, Bool.false_eq_true, if_false, bind,
    Option.bind_some, place?_temp, Selection.arithmetic?, Selection.complement?, Selection.shifted?]
  change Option.bind (Option.bind ((⟨true, 8, w⟩ : Datum).low? 8) _) _ = _
  rw [hlow]
  rfl

/-- The effect of adding an operand of eight bytes to the temporary register. -/
theorem effect?_addTemp {o : Operand} {d : Datum} {w v : BitVec 64} {pos : Position}
    (h : s.regs Machine.r10 = w) (ho : e.datum? s o = some d) (hwide : 8 ≤ d.width)
    (hv : d.brought 8 = v) :
    e.effect? s ⟨.add, some (.reg (tempReg .i64)), some o, none, some (.reg (tempReg .i64)), pos⟩ =
      some (.assign (.reg Machine.r10) 8 (w + v : BitVec (8 * 8))) := by
  have hget : s.get (.reg Machine.r10) 8 = w := by simp [Machine.State.get, h]
  have hguard : (Opcode.add.isArithmetic && !((some (Operand.reg (tempReg .i64))).map
      fun o => o.ty.isInteger).getD false) = false := by decide
  have hlow : (⟨true, 8, w⟩ : Datum).low? 8 = some w := low?_self true 8 w
  have hlow' : d.low? 8 = some v := by
    unfold Datum.low?
    rw [if_pos hwide, hv]
  unfold Scene.effect? Scene.assign? Scene.computed? Scene.source?
  rw [hguard]
  simp only [Option.bind_some, datum?_temp, hget, ho, Opcode.isCondBranch, Opcode.isCompare,
    Bool.false_eq_true, if_false, bind, place?_temp, Selection.arithmetic?]
  change Option.bind (Option.bind ((⟨true, 8, w⟩ : Datum).low? 8) fun x =>
    Option.bind (d.low? 8) _) _ = _
  rw [hlow, hlow']
  rfl

end Lines

/-! ## Scaling in the temporary register -/

/-- The factor of an index can be replaced by a shift. -/
def PowerOfTwo (scale : UInt8) : Prop := ∃ k, scale.toNat = 2 ^ k

theorem two_pow_trailingZeros {scale : UInt8} (h : PowerOfTwo scale) :
    2 ^ trailingZeros scale = scale.toNat ∧ trailingZeros scale < 64 := by
  obtain ⟨k, hk⟩ := h
  have hlt : 2 ^ k < 2 ^ 8 := hk ▸ scale.toNat_lt
  have hk8 : k < 8 := (Nat.pow_lt_pow_iff_right (by decide)).mp hlt
  have hscale : scale = UInt8.ofNat (2 ^ k) := by
    rw [← hk]
    simp
  have hall : ∀ k < 8, 2 ^ trailingZeros (UInt8.ofNat (2 ^ k)) = (UInt8.ofNat (2 ^ k)).toNat ∧
      trailingZeros (UInt8.ofNat (2 ^ k)) < 64 := by decide
  rw [hscale]
  exact hall k hk8

section Scaled

variable {e : Scene} {cx : Context} {P : Machine.State → Prop} {w : BitVec 64}

theorem works_shlTemp {f : UInt8} (hf : ∀ s, P s → PowerOfTwo f) :
    Works e (emit cx .shl (some (.reg (tempReg .i64)))
        (some (.imm (.ofInt .i8 (Int64.ofNat (trailingZeros f))))) (some (.reg (tempReg .i64))))
      (After P w) fun _ => After P (w * BitVec.ofNat 64 f.toNat) := by
  refine works_keep fun s1 hs1 => ?_
  obtain ⟨s, hs, h1⟩ := hs1
  obtain ⟨hpow, hlt⟩ := two_pow_trailingZeros (hf s hs)
  refine ⟨_, _, _, Nat.le_refl 8, effect?_shlTemp _ h1.word, fun s2 h2 => ⟨s, hs, ?_⟩⟩
  have hcount : (Int64.ofNat (trailingZeros f)).toBitVec.toNat % 64 = trailingZeros f := by
    have htoNat : (Int64.ofNat (trailingZeros f)).toBitVec.toNat = trailingZeros f % 2 ^ 64 :=
      BitVec.toNat_ofNat ..
    omega
  have htwo : BitVec.twoPow 64 (trailingZeros f) = BitVec.ofNat 64 (2 ^ trailingZeros f) := by
    apply BitVec.eq_of_toNat_eq
    rw [BitVec.toNat_twoPow, BitVec.toNat_ofNat]
  have hvalue : w * BitVec.ofNat 64 f.toNat =
      w <<< ((Int64.ofNat (trailingZeros f)).toBitVec.toNat % 64) := by
    rw [hcount, ← hpow, BitVec.shiftLeft_eq_mul_twoPow, htwo]
  rw [hvalue]
  exact inTemp_of_assigns h1.rest h2

/-- The width of a part of an address that has a value. -/
theorem width_of_part {s : Machine.State} {b : Operand} {v : BitVec 64} {d : Datum}
    (hb : e.index? s (some b) = some v) (hlit : NoLiteral (some b)) (hd : e.datum? s b = some d) :
    d.width = width b := by
  cases b with
  | imm l => exact absurd rfl (hlit l)
  | var v =>
    obtain ⟨p, -, rfl⟩ := Option.map_eq_some_iff.mp hd
    rfl
  | indirect => cases hb
  | label => cases hb
  | list => cases hb
  | _ =>
    cases hd
    rfl

theorem works_addTemp {b : Operand} {wb : BitVec 64}
    (hb : ∀ s, P s → e.index? s (some b) = some wb) (hlit : NoLiteral (some b))
    (hwide : ∀ s, P s → width b = 8)
    (hout : ∀ s, P s → ∀ p, e.place? s b = some p → Outside none 0 p (width b)) :
    Works e (emit cx .add (some (.reg (tempReg .i64))) (some b) (some (.reg (tempReg .i64))))
      (After P w) fun _ => After P (w + wb) := by
  refine works_keep fun s1 hs1 => ?_
  obtain ⟨s, hs, h1⟩ := hs1
  have hb1 : e.index? s1 (some b) = some wb := by
    rw [← hb s hs]
    exact index?_of_untouched h1.rest fun part hpart => by cases hpart; exact hout s hs
  obtain ⟨d, hd, hw⟩ := datum?_of_index hb1 hlit
  have hwidth : 8 ≤ d.width := by rw [width_of_part hb1 hlit hd, hwide s hs]
  refine ⟨_, _, _, Nat.le_refl 8, effect?_addTemp h1.word hd hwidth hw, fun s2 h2 => ⟨s, hs, ?_⟩⟩
  exact inTemp_of_assigns h1.rest h2

end Scaled

/-! ## Taking the temporary register -/

/-- The type at which an operand is kept in a scratch slot. -/
def keptType (t : Ty) : Ty := if t == .void then .i64 else t

/-- The scratch slot with a number. -/
def scratchSlot (b : Int64) (k : Nat) (t : Ty) : Operand := .stack (b + 8 * Int64.ofNat k) t

/-- What taking the temporary register for a slot does to the draft and the state: nothing, or the
operand of the slot that held it goes to the next scratch slot. -/
inductive Reserved (e : Scene) (cx : Context) (slot : Slot) (d : Draft) (s : Machine.State) :
    Draft → Machine.State → Prop
  | free (h : ∀ other, d.holder = some other → other = slot ∨ other.get d.instr = none) :
      Reserved e cx slot d s { d with holder := some slot } s
  | spilled {other : Slot} {o : Operand} {b : Int64} {v : Datum} {s1 : Machine.State}
      (holder : d.holder = some other) (ne : other ≠ slot) (operand : other.get d.instr = some o)
      (scratch : cx.scratch = some b) (room : d.spilled < 2) (datum : e.datum? s o = some v)
      (step : Assigns (.mem (e.base + (b + 8 * Int64.ofNat d.spilled).toBitVec))
        (v.brought (registerWidth (keptType o.ty))) [Machine.r11] s s1) :
      Reserved e cx slot d s { d.put other (scratchSlot b d.spilled (keptType o.ty)) with
        holder := some slot, spilled := d.spilled + 1 } s1

section Reserve

variable {e : Scene} {cx : Context} {s : Machine.State} {d : Draft}

/-- What is spilled is worth something. -/
theorem works_spill {other : Slot} {o : Operand} {v : Datum} (hh : d.holder = some other)
    (ho : other.get d.instr = some o) (hv : e.datum? s o = some v) :
    Works e (spill cx d) (fun s1 => s1 = s) fun d' s1 => ∃ b, cx.scratch = some b ∧ d.spilled < 2 ∧
      d' = { d.put other (scratchSlot b d.spilled (keptType o.ty)) with
        holder := none, spilled := d.spilled + 1 } ∧
      Assigns (.mem (e.base + (b + 8 * Int64.ofNat d.spilled).toBitVec))
        (v.brought (registerWidth (keptType o.ty))) [Machine.r11] s s1 := by
  unfold spill
  simp only [hh, ho]
  cases hb : cx.scratch with
  | none => exact works_fail cx _
  | some b =>
    dsimp only
    split
    · exact works_fail cx _
    · rename_i hroom
      refine works_bind (Q := fun _ s1 => Assigns
        (.mem (e.base + (b + 8 * Int64.ofNat d.spilled).toBitVec))
        (v.brought (registerWidth (keptType o.ty))) [Machine.r11] s s1) ?_ fun _ => ?_
      · refine works_keep fun s1 hs1 => ?_
        subst hs1
        exact ⟨_, _, _, registerWidth_le_eight _, effect?_move hv rfl, fun s2 h2 => h2⟩
      · exact works_pure fun s1 h1 => ⟨b, rfl, by omega, rfl, h1⟩

theorem works_reserveTemp (slot : Slot)
    (hv : ∀ other o, d.holder = some other → other ≠ slot → other.get d.instr = some o →
      ∃ v, e.datum? s o = some v) :
    Works e (reserveTemp cx slot d) (fun s1 => s1 = s) (Reserved e cx slot d s) := by
  unfold reserveTemp
  cases hh : d.holder with
  | none =>
    refine works_pure fun s1 hs1 => ?_
    subst hs1
    exact .free fun other ho => by rw [hh] at ho; cases ho
  | some other =>
    dsimp only
    by_cases hne : other = slot
    · subst hne
      rw [if_pos (beq_self_eq_true other)]
      refine works_pure fun s1 hs1 => ?_
      subst hs1
      exact .free fun t ht => .inl (by rw [hh] at ht; exact (Option.some.inj ht).symm)
    · rw [if_neg (by simpa using hne)]
      cases ho : other.get d.instr with
      | none =>
        have hspill : spill cx d = pure { d with holder := none } := by
          unfold spill
          simp only [hh, ho]
        rw [hspill]
        refine works_bind (works_pure (Q := fun d1 s1 => d1 = { d with holder := none } ∧ s1 = s)
          fun s1 hs1 => ⟨rfl, hs1⟩) fun d1 => works_pure ?_
        rintro s1 ⟨rfl, rfl⟩
        refine .free fun t ht => .inr ?_
        rw [hh] at ht
        rw [← Option.some.inj ht]
        exact ho
      | some o =>
        obtain ⟨v, hval⟩ := hv other o hh hne ho
        refine works_bind (works_spill hh ho hval) fun d1 => works_pure ?_
        rintro s1 ⟨b, hb, hroom, rfl, hstep⟩
        exact .spilled hh hne ho hb hroom hval hstep

/-- The scratch slots lie next to each other. -/
theorem slot_address (base : BitVec 64) (b : Int64) (k : Nat) :
    base + (b + 8 * Int64.ofNat k).toBitVec = base + b.toBitVec + BitVec.ofNat 64 (8 * k) := by
  have hk : (8 * Int64.ofNat k).toBitVec = BitVec.ofNat 64 (8 * k) := by
    rw [Int64.toBitVec_mul]
    exact BitVec.ofNat_mul_ofNat ..
  rw [Int64.toBitVec_add, hk, BitVec.add_assoc]

/-- A byte of a scratch slot by its distance from the first one. -/
theorem offset_of_slot {a x : BitVec 64} {k n : Nat} (hk : k < 2) (hn : n ≤ 8)
    (h : (x - (a + BitVec.ofNat 64 (8 * k))).toNat < n) :
    8 * k ≤ (x - a).toNat ∧ (x - a).toNat < 8 * k + 8 := by
  have hsplit : x - a = (x - (a + BitVec.ofNat 64 (8 * k))) + BitVec.ofNat 64 (8 * k) := by
    rw [← BitVec.sub_sub, BitVec.sub_add_cancel]
  have hsum : (x - a).toNat = (x - (a + BitVec.ofNat 64 (8 * k))).toNat + 8 * k := by
    rw [hsplit, BitVec.toNat_add, BitVec.toNat_ofNat]
    omega
  omega

theorem untouched_of_slot {b : Int64} {k n : Nat} {v : BitVec (8 * n)} {s1 : Machine.State}
    (hb : cx.scratch = some b) (hk : k < 2) (hn : n ≤ 8)
    (h : Assigns (.mem (e.base + (b + 8 * Int64.ofNat k).toBitVec)) v [Machine.r11] s s1) :
    Untouched (e.scratch cx) k s s1 where
  regs r _ h11 := h.regs r (by simp) (by simpa using h11)
  xmms r := h.xmms r (by simp)
  mem x hx := by
    refine h.mem x fun hcov => ?_
    rw [slot_address] at hcov
    obtain ⟨hlow, hhigh⟩ := offset_of_slot hk hn hcov
    have hfar := hx (e.base + b.toBitVec) (by rw [Scene.scratch, hb]; rfl) hlow
    omega

theorem Reserved.untouched {slot : Slot} {d1 : Draft} {s1 : Machine.State}
    (h : Reserved e cx slot d s d1 s1) : Untouched (e.scratch cx) d.spilled s s1 := by
  cases h with
  | free => exact .refl s
  | spilled holder ne operand scratch room datum step =>
    exact untouched_of_slot scratch room (registerWidth_le_eight _) step

theorem Reserved.holder {slot : Slot} {d1 : Draft} {s1 : Machine.State}
    (h : Reserved e cx slot d s d1 s1) : d1.holder = some slot := by
  cases h <;> rfl

end Reserve

end Backend.Lowering

-- What an instruction does not read does not matter to it. States that agree on all cells but a few
-- still agree on all others after instructions that read none of the few.
import Backend.Proofs.Peephole.Meaning

namespace Backend.Peephole

universe u

/-- The address of a memory operand is made of registers and variables. -/
def AddressedDirectly : Operand → Prop
  | .indirect base index _ _ _ =>
    (base = none ∨ isDirect base = true) ∧ (index = none ∨ isDirect index = true)
  | _ => True

section Frame

variable {μ : Type u} {M : Meaning μ} {locs : Locations} {D : Cell → Prop} {s s' : State μ}

/-- The operand is a register or a variable with its cell in `D`. -/
def Touches (locs : Locations) (D : Cell → Prop) (o : Operand) : Prop :=
  ∃ c, cell? locs o = some c ∧ D c

/-- The states differ at most in the cells of `D`. -/
structure AgreeOff (D : Cell → Prop) (s s' : State μ) : Prop where
  cells : ∀ c, ¬ D c → s.cells c = s'.cells c
  mem : s.mem = s'.mem
  log : s.log = s'.log

theorem AgreeOff.refl (D : Cell → Prop) (s : State μ) : AgreeOff D s s :=
  ⟨fun _ _ => rfl, rfl, rfl⟩

theorem AgreeOff.trans {s'' : State μ} (h : AgreeOff D s s') (h' : AgreeOff D s' s'') :
    AgreeOff D s s'' :=
  ⟨fun c hc => (h.cells c hc).trans (h'.cells c hc), h.mem.trans h'.mem, h.log.trans h'.log⟩

theorem AgreeOff.mono {D' : Cell → Prop} (h : AgreeOff D s s') (hD : ∀ c, D c → D' c) :
    AgreeOff D' s s' :=
  ⟨fun c hc => h.cells c fun hd => hc (hD c hd), h.mem, h.log⟩

/-! ## Readings -/

theorem fetch_congr (h : s.mem = s'.mem) (ref : MemoryRef) (t : Ty) :
    fetch M s ref t = fetch M s' ref t := by
  simp [fetch, h]

theorem reading_congr_direct (h : AgreeOff D s s') {o : Operand} (hd : isDirect (some o) = true)
    (ht : ¬ Touches locs D o) : reading M locs s o = reading M locs s' o := by
  cases o with
  | reg r =>
    have hc := h.cells (.reg r.key) fun hD => ht ⟨_, rfl, hD⟩
    simp [reading, hc]
  | var v =>
    have hc := h.cells (varCell locs v.ident) fun hD => ht ⟨_, rfl, hD⟩
    simp [reading, hc]
  | _ => simp [isDirect] at hd

theorem readingPart_congr (h : AgreeOff D s s') {p : Option Operand}
    (hd : p = none ∨ isDirect p = true) (ht : ∀ o ∈ p.toList, ¬ Touches locs D o) :
    readingPart M locs s p = readingPart M locs s' p := by
  rcases hd with rfl | hd
  · rfl
  · cases p with
    | none => rfl
    | some o => simp [readingPart, reading_congr_direct h hd (ht o (by simp))]

/-- The place of a memory operand does not depend on cells that its address does not touch. -/
theorem memoryRef?_congr (h : AgreeOff D s s') {o : Operand} (ha : AddressedDirectly o)
    (ht : ∀ p ∈ Instr.addressParts o, ¬ Touches locs D p) :
    memoryRef? M locs s o = memoryRef? M locs s' o := by
  cases o with
  | indirect base index scale disp t =>
    have hb := readingPart_congr (M := M) h ha.1 fun p hp => ht p (List.mem_append_left _ hp)
    have hi := readingPart_congr (M := M) h ha.2 fun p hp => ht p (List.mem_append_right _ hp)
    simp [memoryRef?, hb, hi]
  | _ => rfl

mutual

/-- An operand shows the same in both states, if all that reading it reads does. -/
theorem reading_congr (h : AgreeOff D s s') :
    ∀ o : Operand, (∀ p ∈ Instr.reads o, AddressedDirectly p) →
      (∀ p ∈ Instr.reads o, ¬ Touches locs D p) → reading M locs s o = reading M locs s' o
  | .reg _, _, ht => reading_congr_direct h rfl (ht _ (by simp [Instr.reads]))
  | .var _, _, ht => reading_congr_direct h rfl (ht _ (by simp [Instr.reads]))
  | .imm _, _, _ => rfl
  | .stack _ _, _, _ => by simp only [reading, fetch_congr h.mem]
  | .symbol _, _, _ => by simp only [reading, fetch_congr h.mem]
  | .label _, _, _ => rfl
  | .indirect base index scale disp t, ha, ht => by
    have hself : Operand.indirect base index scale disp t ∈
        Instr.reads (.indirect base index scale disp t) := by simp [Instr.reads]
    have hb : readingPart M locs s base = readingPart M locs s' base :=
      readingPart_congr h (ha _ hself).1 fun p hp =>
        ht p (.tail _ (List.mem_append_left _ hp))
    have hi : readingPart M locs s index = readingPart M locs s' index :=
      readingPart_congr h (ha _ hself).2 fun p hp =>
        ht p (.tail _ (List.mem_append_right _ hp))
    simp only [reading, hb, hi, fetch_congr h.mem]
  | .list items, ha, ht => by
    have hi := readingItems_congr h items (by simpa [Instr.reads] using ha)
      (by simpa [Instr.reads] using ht)
    simp only [reading, hi]

theorem readingItems_congr (h : AgreeOff D s s') :
    ∀ items : List Operand, (∀ p ∈ Instr.readsItems items, AddressedDirectly p) →
      (∀ p ∈ Instr.readsItems items, ¬ Touches locs D p) →
      readingItems M locs s items = readingItems M locs s' items
  | [], _, _ => rfl
  | o :: rest, ha, ht => by
    have ho := reading_congr h o
      (fun p hp => ha p (by simp [Instr.readsItems, hp]))
      (fun p hp => ht p (by simp [Instr.readsItems, hp]))
    have hr := readingItems_congr h rest
      (fun p hp => ha p (by simp [Instr.readsItems, hp]))
      (fun p hp => ht p (by simp [Instr.readsItems, hp]))
    simp only [readingItems, ho, hr]

end

theorem reading_option_congr (h : AgreeOff D s s') (o : Option Operand)
    (ha : ∀ p ∈ Instr.readsOption o, AddressedDirectly p)
    (ht : ∀ p ∈ Instr.readsOption o, ¬ Touches locs D p) :
    o.map (reading M locs s) = o.map (reading M locs s') := by
  cases o with
  | none => rfl
  | some o => simp [reading_congr h o ha ht]

/-! ## What instructions use -/

/-- The address of the output. -/
def outputParts (i : Instr) : List Operand := (i.output.map Instr.addressParts).getD []

theorem uses_eq {i : Instr} (h : isSilent i.op = false) :
    i.uses = Instr.readsOption i.first ++ Instr.readsOption i.second ++
      Instr.readsOption i.addend ++ (if i.op.isBranch then [] else outputParts i) := by
  unfold isSilent at h
  unfold Instr.uses
  split
  · simp_all
  · simp_all
  · simp_all
  · simp_all
  · simp only [outputParts]
    split <;> simp

/-- Every memory operand that the instruction reads or writes is addressed by registers and
variables. -/
def PlainAddresses (i : Instr) : Prop := ∀ o ∈ i.uses ++ i.output.toList, AddressedDirectly o

/-- An instruction reads the same in both states, if none of its operands touches a cell of `D`. -/
theorem readings_congr {i : Instr} (h : AgreeOff D s s') (ha : PlainAddresses i)
    (ht : ∀ o ∈ i.uses, ¬ Touches locs D o) : readings M locs s i = readings M locs s' i := by
  unfold readings
  cases hs : isSilent i.op with
  | true => rfl
  | false =>
    have huses := uses_eq hs
    have hslot : ∀ o : Option Operand, (∀ p ∈ Instr.readsOption o, p ∈ i.uses) →
        o.map (reading M locs s) = o.map (reading M locs s') := fun o ho =>
      reading_option_congr h o (fun p hp => ha p (List.mem_append_left _ (ho p hp)))
        fun p hp => ht p (ho p hp)
    have htarget : (if i.op.isBranch then none else i.output.bind (memoryRef? M locs s)) =
        if i.op.isBranch then none else i.output.bind (memoryRef? M locs s') := by
      split
      · rfl
      · rename_i hb
        cases ho : i.output with
        | none => rfl
        | some o =>
          refine memoryRef?_congr h (ha o (by simp [ho])) fun p hp => ht p ?_
          rw [huses]
          simp [hb, outputParts, ho, hp]
    simp only [Bool.false_eq_true, if_false, htarget,
      hslot i.first fun p hp => by rw [huses]; simp [hp],
      hslot i.second fun p hp => by rw [huses]; simp [hp],
      hslot i.addend fun p hp => by rw [huses]; simp [hp]]

/-! ## Writes -/

theorem writeCell_congr {cells cells' : Cell → BitVec 64} (h : ∀ c, ¬ D c → cells c = cells' c)
    (o : Operand) (v : BitVec 64) (c : Cell) (hc : ¬ D c) :
    writeCell M locs cells o v c = writeCell M locs cells' o v c := by
  unfold writeCell
  cases cell? locs o with
  | none => exact h c hc
  | some d =>
    by_cases hcd : c = d
    · subst hcd
      simp [h c hc]
    · simp [hcd, h c hc]

theorem writeCells_congr (values : Nat → BitVec 64) (k : Nat) (os : List Operand)
    {cells cells' : Cell → BitVec 64} (h : ∀ c, ¬ D c → cells c = cells' c) (c : Cell)
    (hc : ¬ D c) :
    writeCells M locs values k os cells c = writeCells M locs values k os cells' c := by
  induction os generalizing k cells cells' with
  | nil => exact h c hc
  | cons o rest ih => exact ih (k + 1) fun d hd => writeCell_congr h o (values k) d hd

/-! ## Execution -/

/-- Instructions with one output and one outcome leave states alike that were alike. -/
theorem exec_congr {i j : Instr} (h : AgreeOff D s s') (hdefs : i.defs = j.defs)
    (hout : outcome M i.op (typeOf i.output) (readings M locs s i) (outputShapes i) s.mem s.log =
      outcome M j.op (typeOf j.output) (readings M locs s' j) (outputShapes j) s'.mem s'.log) :
    AgreeOff D (exec M locs i s) (exec M locs j s') := by
  refine ⟨fun c hc => ?_, ?_, ?_⟩
  · simp only [exec, hout, hdefs]
    exact writeCells_congr _ 0 j.defs h.cells c hc
  · simp only [exec, hout]
  · simp only [exec, hout]

/-- An instruction that reads nothing of `D` keeps the agreement. -/
theorem exec_frame {i : Instr} (h : AgreeOff D s s') (ha : PlainAddresses i)
    (ht : ∀ o ∈ i.uses, ¬ Touches locs D o) :
    AgreeOff D (exec M locs i s) (exec M locs i s') := by
  apply exec_congr h rfl
  rw [readings_congr h ha ht, h.mem, h.log]

theorem runBlock_frame {ops : List Instr} (h : AgreeOff D s s')
    (ha : ∀ i ∈ ops, PlainAddresses i) (ht : ∀ i ∈ ops, ∀ o ∈ i.uses, ¬ Touches locs D o) :
    AgreeOff D (runBlock M locs ops s) (runBlock M locs ops s') := by
  induction ops generalizing s s' with
  | nil => exact h
  | cons i ops ih =>
    refine ih (exec_frame h (ha i List.mem_cons_self) (ht i List.mem_cons_self))
      (fun j hj => ha j (List.mem_cons_of_mem _ hj)) fun j hj => ht j (List.mem_cons_of_mem _ hj)

end Frame

end Backend.Peephole

-- The accesses of an instruction against what code touches: every operand the accesses record
-- covers its machine form, with the registers of its address and the frame pointer behind a slot.
import Backend.Proofs.Machine.Footprint
import Backend.Proofs.Selection.Move
import Backend.Schedule.Access
import Backend.Selection.Closure

namespace Backend.Schedule

open Backend.Machine (Footprint Inst touch)
open Backend.Selection (r11 xmm14 xmm15 resize)

/-! ## Accesses that record more -/

namespace Access

/-- The keys written, or those read. -/
def keys (a : Access) (write : Bool) : List Key := if write then a.writes else a.reads

/-- Memory is written, or read. -/
def inMemory (a : Access) (write : Bool) : Bool := if write then a.memWrite else a.memRead

/-- The second accesses record all that the first do. -/
structure Within (a b : Access) : Prop where
  keys : ∀ write, ∀ k ∈ a.keys write, k ∈ b.keys write
  memory : ∀ write, a.inMemory write = true → b.inMemory write = true

theorem Within.refl (a : Access) : a.Within a := ⟨fun _ _ h => h, fun _ h => h⟩

theorem Within.trans {a b c : Access} (h : a.Within b) (h' : b.Within c) : a.Within c :=
  ⟨fun w k hk => h'.keys w k (h.keys w k hk), fun w hm => h'.memory w (h.memory w hm)⟩

@[simp] theorem mem_keys_addKey (a : Access) (write w : Bool) (k k' : Key) :
    k' ∈ (a.addKey write k).keys w ↔ k' ∈ a.keys w ∨ (w = write ∧ k' = k) := by
  cases write <;> cases w <;> simp [addKey, keys]

@[simp] theorem inMemory_addKey (a : Access) (write w : Bool) (k : Key) :
    (a.addKey write k).inMemory w = a.inMemory w := by
  cases write <;> cases w <;> rfl

@[simp] theorem keys_addMemory (a : Access) (write w : Bool) :
    (a.addMemory write).keys w = a.keys w := by
  cases write <;> cases w <;> rfl

@[simp] theorem inMemory_addMemory (a : Access) (write w : Bool) :
    (a.addMemory write).inMemory w = (a.inMemory w || w == write) := by
  cases write <;> cases w <;> simp [addMemory, inMemory]

@[simp] theorem mem_keys_addFrame (roles : RegisterRoles) (a : Access) (write w : Bool) (k : Key) :
    k ∈ (a.addFrame roles write).keys w ↔
      k ∈ a.keys w ∨ (w = false ∧ k = .reg roles.framePointer.key) := by
  cases write <;> cases w <;> simp [addFrame, keys, addMemory]

@[simp] theorem inMemory_addFrame (roles : RegisterRoles) (a : Access) (write w : Bool) :
    (a.addFrame roles write).inMemory w = (a.inMemory w || w == write) := by
  cases write <;> cases w <;> simp [addFrame, addMemory, inMemory]

theorem within_addKey (a : Access) (write : Bool) (k : Key) : a.Within (a.addKey write k) :=
  ⟨fun w k' h => by simp [h], fun w h => by simp [h]⟩

theorem within_addMemory (a : Access) (write : Bool) : a.Within (a.addMemory write) :=
  ⟨fun w k h => by simp [h], fun w h => by simp [h]⟩

theorem within_addFrame (roles : RegisterRoles) (a : Access) (write : Bool) :
    a.Within (a.addFrame roles write) :=
  ⟨fun w k h => by simp [h], fun w h => by simp [h]⟩

theorem within_addOperand (roles : RegisterRoles) (locs : Locations) (write : Bool) (a : Access)
    (o : Operand) : a.Within (a.addOperand roles locs write o) := by
  unfold addOperand
  split
  · exact within_addKey a write _
  · rename_i v
    have h := within_addKey a write (.var v.ident)
    dsimp only
    split
    · split
      · exact h.trans (within_addKey _ write _)
      · exact h.trans (within_addFrame roles _ write)
      · exact h
    · exact h
  · exact within_addFrame roles a write
  · exact within_addMemory a write
  · exact within_addMemory a write
  · exact .refl a

theorem within_foldl (roles : RegisterRoles) (locs : Locations) (write : Bool) (os : List Operand)
    (a : Access) : a.Within (os.foldl (addOperand roles locs write) a) := by
  induction os generalizing a with
  | nil => exact .refl a
  | cons o rest ih => exact (within_addOperand roles locs write a o).trans (ih _)

/-- The accesses record the operand as read or written. -/
def Records (roles : RegisterRoles) (locs : Locations) (b : Access) (write : Bool) (o : Operand) :
    Prop :=
  ∃ a : Access, (a.addOperand roles locs write o).Within b

theorem records_of_mem {roles : RegisterRoles} {locs : Locations} {write : Bool} {os : List Operand}
    {a b : Access} {o : Operand} (h : o ∈ os)
    (hb : (os.foldl (addOperand roles locs write) a).Within b) : b.Records roles locs write o := by
  induction os generalizing a with
  | nil => cases h
  | cons o' rest ih =>
    cases h with
    | head => exact ⟨a, (within_foldl roles locs write rest _).trans hb⟩
    | tail _ h => exact ih h hb

end Access

/-! ## The accesses of an instruction -/

section Recorded

variable {roles : RegisterRoles} {locs : Locations} {i : Instr}

theorem within_access (a : Access)
    (h : a.Within (i.defs.foldl (Access.addOperand roles locs true)
      ((readOperands i).foldl (Access.addOperand roles locs false) .empty))) :
    a.Within (access roles locs i) := by
  refine h.trans ?_
  unfold access
  dsimp only
  generalize i.defs.foldl (Access.addOperand roles locs true) _ = b
  have hlast : ∀ b : Access, b.Within (if b.writes.contains (.reg roles.stackPointer.key) then
      { b with memWrite := true } else b) := by
    intro b
    split
    · exact Access.within_addMemory b true
    · exact .refl b
  refine Access.Within.trans ?_ (hlast _)
  split
  · exact ((Access.within_addKey b false _).trans (Access.within_addKey _ true _)).trans
      (Access.within_addMemory _ _)
  · exact .refl b

theorem records_of_read {o : Operand} (h : o ∈ readOperands i) :
    (access roles locs i).Records roles locs false o :=
  Access.records_of_mem h (within_access _ (Access.within_foldl roles locs true i.defs _))

theorem records_of_def {o : Operand} (h : o ∈ i.defs) :
    (access roles locs i).Records roles locs true o :=
  Access.records_of_mem h (within_access _ (.refl _))

/-- Pushing and popping write the stack pointer and memory. -/
theorem access_of_stack (h : i.op = .push ∨ i.op = .pop) :
    .reg roles.stackPointer.key ∈ (access roles locs i).writes ∧
      (access roles locs i).memWrite = true := by
  have hop : (i.op == .push || i.op == .pop) = true := by
    rcases h with h | h <;> simp [h]
  -- The accesses before the last step write the stack pointer, which makes that step mark memory.
  have hlast : ∀ b : Access, .reg roles.stackPointer.key ∈ b.writes →
      let b' := if b.writes.contains (.reg roles.stackPointer.key) then
        { b with memWrite := true } else b
      .reg roles.stackPointer.key ∈ b'.writes ∧ b'.memWrite = true := by
    intro b hb
    simp [hb]
  unfold access
  simp only [hop, if_true]
  apply hlast
  rw [show ∀ b : Access, b.writes = b.keys true from fun _ => rfl]
  simp

end Recorded

/-! ## Where recorded writes come from -/

namespace Access

theorem writes_addOperand_read (roles : RegisterRoles) (locs : Locations) (a : Access)
    (o : Operand) : (a.addOperand roles locs false o).writes = a.writes := by
  unfold addOperand
  split
  · rfl
  · dsimp only
    split
    · split <;> rfl
    · rfl
  all_goals rfl

theorem writes_foldl_read (roles : RegisterRoles) (locs : Locations) (os : List Operand)
    (a : Access) : (os.foldl (addOperand roles locs false) a).writes = a.writes := by
  induction os generalizing a with
  | nil => rfl
  | cons o rest ih => exact (ih _).trans (writes_addOperand_read roles locs a o)

/-- The operand is the register, or a variable that lives in it. -/
def Names (locs : Locations) (o : Operand) (r : Reg) : Prop :=
  o = .reg r ∨ ∃ v, o = .var v ∧ locs.reg? v.ident = some r

theorem names_of_writes_addOperand {roles : RegisterRoles} {locs : Locations} {a : Access}
    {o : Operand} {k : Nat} (h : .reg k ∈ (a.addOperand roles locs true o).writes) :
    .reg k ∈ a.writes ∨ ∃ r, Names locs o r ∧ r.key = k := by
  unfold addOperand at h
  split at h
  · rename_i r
    rcases List.mem_append.mp h with h | h
    · exact .inl h
    · cases List.mem_singleton.mp h
      exact .inr ⟨r, .inl rfl, rfl⟩
  · rename_i v
    have hvar : .reg k ∈ (a.addKey true (.var v.ident)).writes → .reg k ∈ a.writes := by
      intro h
      simpa [addKey] using h
    dsimp only at h
    split at h
    · rename_i l hl
      split at h
      · rename_i r hr
        rcases List.mem_append.mp h with h | h
        · exact .inl (hvar h)
        · cases List.mem_singleton.mp h
          refine .inr ⟨r, .inr ⟨v, rfl, ?_⟩, rfl⟩
          rw [Locations.reg?, hl]
          exact hr
      · exact .inl (hvar h)
      · exact .inl (hvar h)
    · exact .inl (hvar h)
  all_goals exact .inl h

theorem names_of_writes_foldl {roles : RegisterRoles} {locs : Locations} {os : List Operand}
    {a : Access} {k : Nat} (h : .reg k ∈ (os.foldl (addOperand roles locs true) a).writes) :
    .reg k ∈ a.writes ∨ ∃ o ∈ os, ∃ r, Names locs o r ∧ r.key = k := by
  induction os generalizing a with
  | nil => exact .inl h
  | cons o rest ih =>
    rcases ih h with h | ⟨o', ho', hr⟩
    · exact (names_of_writes_addOperand h).imp_right fun hr => ⟨o, List.mem_cons_self, hr⟩
    · exact .inr ⟨o', List.mem_cons_of_mem o ho', hr⟩

end Access

/-- A register that is recorded as written is the stack pointer, or one of the operands written
names it. -/
theorem names_of_writes_access {roles : RegisterRoles} {locs : Locations} {i : Instr} {k : Nat}
    (h : .reg k ∈ (access roles locs i).writes) :
    k = roles.stackPointer.key ∨ ∃ o ∈ i.defs, ∃ r, Access.Names locs o r ∧ r.key = k := by
  have hempty := Access.writes_foldl_read roles locs (readOperands i) .empty
  unfold access at h
  dsimp only at h
  generalize (readOperands i).foldl (Access.addOperand roles locs false) .empty = a at h hempty
  have hdefs : .reg k ∈ (i.defs.foldl (Access.addOperand roles locs true) a).writes →
      ∃ o ∈ i.defs, ∃ r, Access.Names locs o r ∧ r.key = k := by
    intro h
    rcases Access.names_of_writes_foldl h with h | h
    · rw [hempty] at h
      cases h
    · exact h
  generalize i.defs.foldl (Access.addOperand roles locs true) a = b at h hdefs
  -- The last step only marks memory.
  have hlast : ∀ b : Access, (if b.writes.contains (.reg roles.stackPointer.key) then
      { b with memWrite := true } else b).writes = b.writes := by
    intro b
    split <;> rfl
  rw [hlast] at h
  split at h
  · rw [show ∀ b : Access, b.writes = b.keys true from fun _ => rfl] at h
    simp only [Access.keys_addMemory, Access.mem_keys_addKey, Bool.true_eq_false, false_and,
      or_false, true_and, Key.reg.injEq] at h
    exact h.symm.imp_right hdefs
  · exact .inr (hdefs h)

/-! ## Covering a footprint -/

/-- The registers that selection works in and that carry no value between instructions. -/
def scratchKeys : List Nat := [(r11 8).key, (xmm14 8).key, (xmm15 8).key]

/-- The accesses account for everything touched, the scratch registers of selection apart. -/
structure Access.Covers (a : Access) (f : Footprint) : Prop where
  reads : ∀ k ∈ f.reads, k ∉ scratchKeys → .reg k ∈ a.reads ∨ .reg k ∈ a.writes
  writes : ∀ k ∈ f.writes, k ∉ scratchKeys → .reg k ∈ a.writes
  loads : f.loads = true → a.memRead = true ∨ a.memWrite = true
  stores : f.stores = true → a.memWrite = true

namespace Access

variable {a : Access}

theorem covers_empty (a : Access) : a.Covers .empty := by
  constructor <;> simp [Footprint.empty]

theorem covers_append {f g : Footprint} : a.Covers (f ++ g) ↔ a.Covers f ∧ a.Covers g := by
  constructor
  · rintro ⟨hr, hw, hl, hs⟩
    simp only [Footprint.reads_append, Footprint.writes_append, Footprint.loads_append,
      Footprint.stores_append, List.mem_append, Bool.or_eq_true] at hr hw hl hs
    exact ⟨⟨fun k h => hr k (.inl h), fun k h => hw k (.inl h), fun h => hl (.inl h),
      fun h => hs (.inl h)⟩, ⟨fun k h => hr k (.inr h), fun k h => hw k (.inr h),
      fun h => hl (.inr h), fun h => hs (.inr h)⟩⟩
  · rintro ⟨hf, hg⟩
    constructor
    · intro k hk
      exact (List.mem_append.mp hk).elim (hf.reads k) (hg.reads k)
    · intro k hk
      exact (List.mem_append.mp hk).elim (hf.writes k) (hg.writes k)
    · intro h
      exact (Bool.or_eq_true_iff.mp h).elim hf.loads hg.loads
    · intro h
      exact (Bool.or_eq_true_iff.mp h).elim hf.stores hg.stores

theorem covers_footprint {code : List Inst} :
    a.Covers (Machine.footprint code) ↔ ∀ i ∈ code, a.Covers i.footprint := by
  induction code with
  | nil => simp [Machine.footprint, covers_empty]
  | cons i rest ih => rw [Machine.footprint_cons, covers_append, ih, List.forall_mem_cons]

/-! ## Operands that are read and written -/

/-- Reading the operand is accounted for. -/
def CoversRead (a : Access) (o : Option Machine.Operand) : Prop :=
  a.Covers (touch Machine.Operand.read o)

/-- Writing the operand is accounted for. -/
def CoversWrite (a : Access) (o : Option Machine.Operand) : Prop :=
  a.Covers (touch Machine.Operand.write o)

theorem covers_locate {o : Option Machine.Operand} (h : a.CoversRead o) :
    a.Covers (touch Machine.Operand.locate o) := by
  cases o with
  | none => exact h
  | some o =>
    cases o with
    | mem m => exact ⟨h.reads, h.writes, by simp [touch, Machine.Operand.locate], h.stores⟩
    | _ => exact covers_empty a

/-- What is written may be read. -/
theorem CoversWrite.read {o : Option Machine.Operand} (h : a.CoversWrite o) : a.CoversRead o := by
  cases o with
  | none => exact h
  | some o =>
    cases o with
    | reg r =>
      refine ⟨fun k hk hs => .inr (h.writes k hk hs), ?_, ?_, ?_⟩ <;>
        simp [touch, Machine.Operand.read]
    | xmm x =>
      refine ⟨fun k hk hs => .inr (h.writes k hk hs), ?_, ?_, ?_⟩ <;>
        simp [touch, Machine.Operand.read]
    | mem m =>
      exact ⟨h.reads, h.writes, fun _ => .inr (h.stores rfl), by simp [touch, Machine.Operand.read]⟩
    | _ => exact h

theorem CoversRead.resize {o : Option Machine.Operand} (h : a.CoversRead o) (w : UInt8) :
    a.CoversRead (o.map fun o => resize o w) := by
  cases o with
  | none => exact h
  | some o => cases o <;> exact h

theorem coversWrite_r11 (a : Access) (w : UInt8) : a.CoversWrite (some (.reg (r11 w))) := by
  constructor <;> simp [touch, Machine.Operand.write, scratchKeys, Machine.Reg.key, r11]

theorem coversWrite_xmm14 (a : Access) (w : UInt8) : a.CoversWrite (some (.xmm (xmm14 w))) := by
  constructor <;> simp [touch, Machine.Operand.write, scratchKeys, Machine.Xmm.key, xmm14]

theorem coversWrite_xmm15 (a : Access) (w : UInt8) : a.CoversWrite (some (.xmm (xmm15 w))) := by
  constructor <;> simp [touch, Machine.Operand.write, scratchKeys, Machine.Xmm.key, xmm15]

theorem covers_use_reg {r : Reg} {write : Bool} (h : .reg r.key ∈ a.keys write) (w : UInt8) :
    a.Covers ((Selection.machineReg r w).use write) := by
  have hkey : (Selection.machineReg r w).use write =
      if write then ⟨[], [r.key], false, false⟩ else ⟨[r.key], [], false, false⟩ := by
    unfold Selection.machineReg Reg.key
    cases write <;> cases r.cls <;> rfl
  rw [hkey]
  cases write with
  | true => constructor <;> simp [show Key.reg r.key ∈ a.writes from h]
  | false => constructor <;> simp [show Key.reg r.key ∈ a.reads from h]

theorem covers_use_mem {m : Machine.Memory} {write : Bool}
    (ha : ∀ k ∈ m.addr.keys, .reg k ∈ a.reads) (hm : a.inMemory write = true) :
    a.Covers ((Machine.Operand.mem m).use write) := by
  cases write with
  | true =>
    exact ⟨fun k hk _ => .inl (ha k hk), by simp [Machine.Operand.use, Machine.Operand.write],
      by simp [Machine.Operand.use, Machine.Operand.write], fun _ => hm⟩
  | false =>
    exact ⟨fun k hk _ => .inl (ha k hk), by simp [Machine.Operand.use, Machine.Operand.read],
      fun _ => .inl hm, by simp [Machine.Operand.use, Machine.Operand.read]⟩

end Access

/-! ## Machine forms of recorded operands -/

section Operands

open Selection (Result)

variable {c : Closure} {a : Access} {write : Bool}

theorem lookup_of_locate {v : Var} {l : Location} (h : Selection.locate c v = .ok l) :
    c.locations.lookup v.ident = some l ∧ l.isPlaced = true := by
  unfold Selection.locate Closure.locate? at h
  split at h
  · rename_i hl
    cases h
    exact Option.filter_eq_some_iff.mp hl
  · cases h

theorem key_of_records {roles : RegisterRoles} {o : Operand} {r : Reg}
    (h : a.Records roles c.locations write o)
    (ho : o = .reg r ∨ ∃ v l, o = .var v ∧ c.locations.lookup v.ident = some l ∧ l.reg = some r) :
    .reg r.key ∈ a.keys write := by
  obtain ⟨b, hb⟩ := h
  refine hb.keys write _ ?_
  rcases ho with rfl | ⟨v, l, rfl, hl, hr⟩
  · simp [Access.addOperand]
  · simp [Access.addOperand, hl, hr]

theorem frame_of_records {roles : RegisterRoles} {o : Operand}
    (h : a.Records roles c.locations write o)
    (ho : (∃ off t, o = .stack off t) ∨ ∃ v l, o = .var v ∧ c.locations.lookup v.ident = some l ∧
      l.reg = none ∧ l.isPlaced = true) :
    .reg roles.framePointer.key ∈ a.reads ∧ a.inMemory write = true := by
  obtain ⟨b, hb⟩ := h
  have hframe : .reg roles.framePointer.key ∈ (b.addOperand roles c.locations write o).keys false ∧
      (b.addOperand roles c.locations write o).inMemory write = true := by
    rcases ho with ⟨off, t, rfl⟩ | ⟨v, l, rfl, hl, hr, hp⟩
    · simp [Access.addOperand]
    · obtain ⟨off, hoff⟩ : ∃ off, l.stack = some off := by
        simpa [Location.isPlaced, hr, Option.isSome_iff_exists] using hp
      simp [Access.addOperand, hl, hr, hoff]
  exact ⟨hb.keys false _ hframe.1, hb.memory write hframe.2⟩

theorem memory_of_records {roles : RegisterRoles} {o : Operand}
    (h : a.Records roles c.locations write o)
    (ho : (∃ b i s d t, o = .indirect b i s d t) ∨ ∃ s, o = .symbol s) :
    a.inMemory write = true := by
  obtain ⟨b, hb⟩ := h
  refine hb.memory write ?_
  rcases ho with ⟨b, i, s, d, t, rfl⟩ | ⟨s, rfl⟩ <;> simp [Access.addOperand]

/-- A register of an address is read when the part of the address is recorded. -/
theorem key_of_addressReg {roles : RegisterRoles} {part : Option Operand} {r : Option Machine.Reg}
    (h : Selection.addressReg c part = .ok r)
    (hp : ∀ o ∈ part, a.Records roles c.locations false o) : ∀ r' ∈ r, .reg r'.key ∈ a.reads := by
  intro r' hr'
  unfold Selection.addressReg at h
  split at h
  · cases h
    cases hr'
  · rename_i o
    have ho := hp o rfl
    split at h
    · rename_i s
      split at h
      · rename_i hcls
        cases h
        cases hr'
        have hk := key_of_records ho (.inl rfl)
        simp only [Reg.key, beq_iff_eq.mp hcls] at hk
        exact hk
      · cases h
    · rename_i v
      obtain ⟨l, hl, h⟩ := bind_eq_ok.mp h
      split at h
      · rename_i s hs
        split at h
        · rename_i hcls
          cases h
          cases hr'
          have hk := key_of_records ho (.inr ⟨v, l, rfl, (lookup_of_locate hl).1, hs⟩)
          simp only [Reg.key, beq_iff_eq.mp hcls] at hk
          exact hk
        · cases h
      · cases h
    · cases h

theorem keys_of_memory {roles : RegisterRoles} {base index : Option Operand} {scale : UInt8}
    {disp : Int64} {t : Ty} {m : Machine.Memory}
    (h : Selection.memory c base index scale disp t = .ok m)
    (hp : ∀ p ∈ base.toList ++ index.toList, a.Records roles c.locations false p) :
    ∀ k ∈ m.addr.keys, .reg k ∈ a.reads := by
  simp only [List.mem_append, Option.mem_toList] at hp
  unfold Selection.memory at h
  obtain ⟨b, hb, h⟩ := bind_eq_ok.mp h
  obtain ⟨i, hi, h⟩ := bind_eq_ok.mp h
  have hbase := key_of_addressReg hb fun o ho => hp o (.inl ho)
  have hindex := key_of_addressReg hi fun o ho => hp o (.inr ho)
  cases hfit : Machine.fitsInt32 disp with
  | false =>
    simp only [hfit] at h
    cases h
  | true =>
    simp only [hfit] at h
    cases b <;> cases i <;> cases h
    all_goals
      simp only [Machine.Memory.ofIndex, Machine.Memory.ofBase, Machine.Memory.ofScaled,
        Machine.Address.keys]
      simp_all

theorem covers_frameSlot {off : Int64} {w : UInt8} {m : Machine.Operand}
    (h : Selection.frameSlot off w = .ok m)
    (hf : .reg Target.roles.framePointer.key ∈ a.reads ∧ a.inMemory write = true) :
    a.Covers (m.use write) := by
  unfold Selection.frameSlot at h
  split at h
  · cases h
    refine Access.covers_use_mem ?_ hf.2
    intro k hk
    simp only [Machine.Memory.ofBase, Machine.Address.keys, Option.map_some, Option.toList_some,
      Option.map_none, Option.toList_none, List.append_nil, List.mem_singleton] at hk
    subst hk
    exact hf.1
  · cases h

/-- Whatever the machine form of an operand touches is accounted for when the operand and the parts
of its address are recorded. -/
theorem covers_of_records {o : Operand} {m : Machine.Operand} (h : Selection.operand c o = .ok m)
    (ho : a.Records Target.roles c.locations write o)
    (hp : ∀ p ∈ Instr.addressParts o, a.Records Target.roles c.locations false p) :
    a.Covers (m.use write) := by
  have hnone : ∀ m : Machine.Operand, (m.read = .empty ∧ m.write = .empty) →
      a.Covers (m.use write) := by
    rintro m ⟨hr, hw⟩
    unfold Machine.Operand.use
    rw [hr, hw]
    split <;> exact Access.covers_empty a
  cases o with
  | reg r =>
    cases h
    exact Access.covers_use_reg (key_of_records ho (.inl rfl)) _
  | var v =>
    obtain ⟨l, hl, h⟩ := bind_eq_ok.mp h
    obtain ⟨hlook, hplaced⟩ := lookup_of_locate hl
    split at h
    · rename_i r hr
      cases h
      exact Access.covers_use_reg (key_of_records ho (.inr ⟨v, l, rfl, hlook, hr⟩)) _
    · rename_i hr
      exact covers_frameSlot h (frame_of_records ho (.inr ⟨v, l, rfl, hlook, hr, hplaced⟩))
  | stack off t => exact covers_frameSlot h (frame_of_records ho (.inl ⟨off, t, rfl⟩))
  | imm l =>
    simp only [Selection.operand] at h
    split at h
    · cases h
      exact hnone _ ⟨rfl, rfl⟩
    · cases h
  | indirect base index scale disp t =>
    obtain ⟨mem, hm, h⟩ := bind_eq_ok.mp h
    cases h
    exact Access.covers_use_mem (keys_of_memory hm hp)
      (memory_of_records ho (.inl ⟨base, index, scale, disp, t, rfl⟩))
  | symbol s =>
    cases h
    refine Access.covers_use_mem ?_ (memory_of_records ho (.inr ⟨s, rfl⟩))
    intro k hk
    split at hk <;> cases hk
  | label l =>
    cases h
    exact hnone _ ⟨rfl, rfl⟩
  | list items => cases h

end Operands

end Backend.Schedule

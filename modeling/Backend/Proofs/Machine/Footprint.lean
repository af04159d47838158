-- What machine instructions touch: the registers they read and write, those behind an address and
-- those that no operand names among them, and whether they load from or store to memory.
import Backend.Proofs.Machine.Step

namespace Backend.Machine

/-! ## Footprints -/

/-- A register whatever its width, general purpose registers before the SSE registers. -/
def Reg.key (r : Reg) : Nat := r.id.toNat

def Xmm.key (x : Xmm) : Nat := 256 + x.id.toNat

/-- The keys of the registers read at any point and of those written, and the use of memory. -/
structure Footprint where
  reads : List Nat
  writes : List Nat
  loads : Bool
  stores : Bool

namespace Footprint

def empty : Footprint := ⟨[], [], false, false⟩

instance : Append Footprint where
  append f g := ⟨f.reads ++ g.reads, f.writes ++ g.writes, f.loads || g.loads, f.stores || g.stores⟩

@[simp] theorem reads_append (f g : Footprint) : (f ++ g).reads = f.reads ++ g.reads := rfl

@[simp] theorem writes_append (f g : Footprint) : (f ++ g).writes = f.writes ++ g.writes := rfl

@[simp] theorem loads_append (f g : Footprint) : (f ++ g).loads = (f.loads || g.loads) := rfl

@[simp] theorem stores_append (f g : Footprint) : (f ++ g).stores = (f.stores || g.stores) := rfl

end Footprint

/-! ## Operands -/

/-- The registers an address is made of. -/
def Address.keys : Address → List Nat
  | .regs base index _ => (base.map Reg.key).toList ++ (index.map fun (i, _) => i.key).toList
  | _ => []

/-- Reading an operand. -/
def Operand.read : Operand → Footprint
  | .reg r => ⟨[r.key], [], false, false⟩
  | .xmm x => ⟨[x.key], [], false, false⟩
  | .mem m => ⟨m.addr.keys, [], true, false⟩
  | _ => .empty

/-- Writing an operand, which reads the registers of its address. -/
def Operand.write : Operand → Footprint
  | .reg r => ⟨[], [r.key], false, false⟩
  | .xmm x => ⟨[], [x.key], false, false⟩
  | .mem m => ⟨m.addr.keys, [], false, true⟩
  | _ => .empty

/-- Writing an operand, or reading it. -/
def Operand.use (write : Bool) (o : Operand) : Footprint := if write then o.write else o.read

/-- Computing the address of an operand. -/
def Operand.locate : Operand → Footprint
  | .mem m => ⟨m.addr.keys, [], false, false⟩
  | _ => .empty

/-- Touching an operand that may be missing. -/
def touch (f : Operand → Footprint) (o : Option Operand) : Footprint := (o.map f).getD .empty

/-! ## Instructions -/

/-- The destination is read; a multiplication of two other operands does not. -/
def Op.readsDst (f : Op) (third : Bool) : Bool :=
  match f with
  | .add | .or | .and | .sub | .xor | .cmp | .test | .neg | .not | .div | .idiv | .shl | .shr | .sar
  | .btc | .jcc | .jmp | .call | .push | .adds | .subs | .muls | .divs | .ucomis | .xorps
  | .vfmadd231 | .vfmsub231 | .vfnmadd231 | .reserved _ => true
  | .imul => !third
  | _ => false

/-- The destination is written. -/
def Op.writesDst : Op → Bool
  | .cmp | .test | .div | .idiv | .cqo | .jcc | .jmp | .call | .ret | .push | .ucomis => false
  | _ => true

/-- What an instruction touches besides its operands: the dividend, the quotient and the remainder
of a division, and the stack. -/
def Op.implied : Op → Footprint
  | .div | .idiv => ⟨[rax.toNat, rdx.toNat], [rax.toNat, rdx.toNat], false, false⟩
  | .cqo => ⟨[rax.toNat], [rdx.toNat], false, false⟩
  | .push | .call => ⟨[rsp.toNat], [rsp.toNat], false, true⟩
  | .pop | .ret => ⟨[rsp.toNat], [rsp.toNat], true, false⟩
  | _ => .empty

def Inst.footprint : Inst → Footprint
  | .label _ _ _ => .empty
  | .op f _ dst src src2 =>
    f.implied ++ (if f.readsDst src2.isSome then touch Operand.read dst else .empty) ++
      (if f.writesDst then touch Operand.write dst else .empty) ++
      touch (if f = .lea then Operand.locate else Operand.read) src ++ touch Operand.read src2

/-- What a list of instructions touches. -/
def footprint (code : List Inst) : Footprint := code.foldr (fun i f => i.footprint ++ f) .empty

theorem footprint_cons (i : Inst) (code : List Inst) :
    footprint (i :: code) = i.footprint ++ footprint code := rfl

theorem touch_writes {f : Operand → Footprint} (hf : ∀ o, (f o).writes = []) (o : Option Operand) :
    (touch f o).writes = [] := by
  cases o with
  | none => rfl
  | some o => exact hf o

theorem read_writes (o : Operand) : o.read.writes = [] := by
  cases o <;> rfl

theorem locate_writes (o : Operand) : o.locate.writes = [] := by
  cases o <;> rfl

/-- An instruction writes its destination and what its operation implies. -/
theorem writes_op (f : Op) (cond : Cond) (dst src src2 : Option Operand) :
    (Inst.op f cond dst src src2).footprint.writes =
      f.implied.writes ++ if f.writesDst then (touch Operand.write dst).writes else [] := by
  have hdst : (if f.readsDst src2.isSome then touch Operand.read dst else .empty).writes = [] := by
    split
    · exact touch_writes read_writes dst
    · rfl
  have hsrc : (touch (if f = .lea then Operand.locate else Operand.read) src).writes = [] := by
    split
    · exact touch_writes locate_writes src
    · exact touch_writes read_writes src
  simp only [Inst.footprint, Footprint.writes_append, hdst, hsrc, touch_writes read_writes,
    List.append_nil]
  split <;> rfl

/-! ## Footprints and the meaning of instructions -/

/-- The states have the same in all that is touched. -/
structure Footprint.Agree (f : Footprint) (s t : State) : Prop where
  regs : ∀ id : RegId, id.toNat ∈ f.reads ++ f.writes → s.regs id = t.regs id
  xmms : ∀ id : RegId, 256 + id.toNat ∈ f.reads ++ f.writes → s.xmms id = t.xmms id
  mem : (f.loads || f.stores) = true → s.mem = t.mem

theorem Footprint.Agree.refl (f : Footprint) (s : State) : f.Agree s s :=
  ⟨fun _ _ => rfl, fun _ _ => rfl, fun _ => rfl⟩

theorem Footprint.agree_append {f g : Footprint} {s t : State} (h : (f ++ g).Agree s t) :
    f.Agree s t ∧ g.Agree s t := by
  obtain ⟨hr, hx, hm⟩ := h
  simp only [reads_append, writes_append, loads_append, stores_append, List.mem_append,
    Bool.or_eq_true] at hr hx hm
  constructor
  · constructor <;> grind
  · constructor <;> grind

theorem eval_congr {l : Linkage} {s t : State} {a : Address}
    (h : ∀ id : RegId, id.toNat ∈ a.keys → s.regs id = t.regs id) : a.eval l s = a.eval l t := by
  cases a with
  | regs base index disp =>
    simp only [Address.keys, List.mem_append, Option.mem_toList, Option.map_eq_some_iff] at h
    have hb : (base.map fun b => s.regs b.id) = base.map fun b => t.regs b.id :=
      Option.map_congr fun b hb => h b.id (.inl ⟨b, hb, rfl⟩)
    have hi : (index.map fun (i, scale) => s.regs i.id * BitVec.ofNat 64 scale.toNat) =
        index.map fun (i, scale) => t.regs i.id * BitVec.ofNat 64 scale.toNat :=
      Option.map_congr fun p hp => by
        obtain ⟨i, scale⟩ := p
        simp only [h i.id (.inr ⟨_, hp, rfl⟩)]
    simp only [Address.eval, hb, hi]
  | rip symbol => rfl
  | tls symbol => rfl

/-- An operand has the same value in states that agree on what reading it touches. -/
theorem value_congr {l : Linkage} {s t : State} {o : Operand} (h : o.read.Agree s t) (n : Nat) :
    o.value l s n = o.value l t n := by
  cases o with
  | reg r => simp [Operand.value, State.get, h.regs r.id (by simp [Operand.read, Reg.key])]
  | xmm x => simp [Operand.value, State.get, h.xmms x.id (by simp [Operand.read, Xmm.key])]
  | mem m =>
    have ha : m.addr.eval l s = m.addr.eval l t :=
      eval_congr fun id hid => h.regs id (by simpa [Operand.read] using hid)
    simp [Operand.value, State.get, ha, h.mem (by simp [Operand.read])]
  | imm v => rfl
  | target t => rfl

theorem writesDst_of_binary {f : Op} {g : (n : Nat) → BitVec n → BitVec n → BitVec n}
    (h : f.binary? = some g) : f.writesDst = true := by
  cases f <;> first | rfl | simp [Op.binary?] at h

theorem writesDst_of_shift {f : Op} {g : (n : Nat) → BitVec n → Nat → BitVec n}
    (h : f.shift? = some g) : f.writesDst = true := by
  cases f <;> first | rfl | simp [Op.shift?] at h

theorem writesDst_of_unary {f : Op} {g : (n : Nat) → BitVec n → BitVec n}
    (h : f.unary? = some g) : f.writesDst = true := by
  cases f <;> first | rfl | simp [Op.unary?] at h

/-- The step gives the destination a function of its value, the same from every state in which the
source has the value it has in `s`. -/
def Updates (l : Linkage) (s : State) (dst src : Operand) (step : State → Option State) : Prop :=
  ∃ g, ∀ t, (∀ n, src.value l s n = src.value l t n) → step t = update l t dst g

theorem twoAddress_updates {l : Linkage} {s s' : State}
    {f : (n : Nat) → BitVec n → BitVec n → BitVec n} {dst src : Operand}
    (h : twoAddress l s f dst src = some s') :
    Updates l s dst src fun t => twoAddress l t f dst src := by
  refine ⟨fun n x => f _ x (src.value l s n), fun t hv => ?_⟩
  simp only [hv]
  unfold twoAddress at h ⊢
  split at h
  · cases h
  · split at h
    · rename_i hw
      exact if_pos hw
    · cases h
  · split at h
    · rename_i hw
      exact if_pos hw
    · cases h
  · cases h

theorem extendInto_updates {l : Linkage} {s s' : State} {signed : Bool} {dst src : Operand}
    (h : extendInto l s signed dst src = some s') :
    Updates l s dst src fun t => extendInto l t signed dst src := by
  unfold extendInto at h
  split at h
  · rename_i d r
    split at h
    · rename_i hw
      refine ⟨fun n _ => convert signed n (Operand.value l s (.reg r) r.width.toNat),
        fun t hv => ?_⟩
      simp only [extendInto, if_pos hw, hv]
    · cases h
  · rename_i d m
    split at h
    · rename_i hw
      refine ⟨fun n _ => convert signed n (Operand.value l s (.mem m) m.width.toNat),
        fun t hv => ?_⟩
      simp only [extendInto, if_pos hw, hv]
    · cases h
  · cases h

theorem multiply_updates {l : Linkage} {s s' : State} {dst src : Operand} {factor : Option Operand}
    (h : multiply l s dst src factor = some s') :
    Updates l s dst src fun t => multiply l t dst src factor := by
  unfold multiply at h
  split at h
  · split at h
    · cases h
    · rename_i hw
      obtain ⟨g, hg⟩ := twoAddress_updates h
      refine ⟨g, fun t hv => ?_⟩
      rw [← hg t hv]
      exact if_neg hw
  · cases h
  · rename_i hni
    split at h
    · cases h
    · rename_i hw
      obtain ⟨g, hg⟩ := twoAddress_updates h
      refine ⟨g, fun t hv => ?_⟩
      rw [← hg t hv]
      unfold multiply
      split
      · simp_all
      · simp_all
      · simp_all
      · simp_all
  · cases h

theorem shiftCount_congr {l : Linkage} {s t : State} {o : Operand} {k : BitVec 8}
    (hv : ∀ n, o.value l s n = o.value l t n) (h : shiftCount? s o = some k) :
    shiftCount? t o = some k := by
  cases o with
  | imm v => exact h
  | reg r =>
    simp only [shiftCount?] at h ⊢
    split at h
    · rename_i hr
      have hx : (s.regs r.id).setWidth 8 = (t.regs r.id).setWidth 8 := hv 1
      rw [if_pos hr, ← hr.1, ← hx, hr.1]
      exact h
    · cases h
  | _ => cases h

theorem shift_updates {l : Linkage} {s s' : State} {g : (n : Nat) → BitVec n → Nat → BitVec n}
    {dst src : Operand}
    (h : ((shiftCount? s src).bind fun k =>
      update l s dst fun n x => g _ x (k.toNat % shiftModulus n)) = some s') :
    Updates l s dst src fun t => (shiftCount? t src).bind fun k =>
      update l t dst fun n x => g _ x (k.toNat % shiftModulus n) := by
  obtain ⟨k, hk, -⟩ := Option.bind_eq_some_iff.mp h
  refine ⟨fun n x => g _ x (k.toNat % shiftModulus n), fun t hv => ?_⟩
  simp only [shiftCount_congr hv hk]
  rfl

theorem exec_of_binary {f : Op} {g : (n : Nat) → BitVec n → BitVec n → BitVec n} {l : Linkage}
    {c : Cond} {dst src : Operand} (h : f.binary? = some g) (t : State) :
    (Inst.op f c (some dst) (some src) none).exec l t = twoAddress l t g dst src := by
  cases f <;> cases h <;> rfl

theorem exec_of_shift {f : Op} {g : (n : Nat) → BitVec n → Nat → BitVec n} {l : Linkage}
    {c : Cond} {dst src : Operand} (h : f.shift? = some g) (t : State) :
    (Inst.op f c (some dst) (some src) none).exec l t = (shiftCount? t src).bind fun k =>
      update l t dst fun n x => g _ x (k.toNat % shiftModulus n) := by
  cases f <;> cases h <;> rfl

theorem exec_of_unary {f : Op} {g : (n : Nat) → BitVec n → BitVec n} {l : Linkage} {c : Cond}
    {dst : Operand} (h : f.unary? = some g) (t : State) :
    (Inst.op f c (some dst) none none).exec l t = update l t dst fun _ x => g _ x := by
  cases f <;> cases h <;> rfl

/-- An instruction with a meaning gives its destination a function of its value, which is the same
in all states that agree on what the instruction touches. -/
theorem exec_eq_update {l : Linkage} {s s' : State} {i : Inst} (h : i.exec l s = some s') :
    ∃ f c dst src src2 g, i = .op f c (some dst) src src2 ∧ f.writesDst = true ∧
      ∀ t, i.footprint.Agree s t → i.exec l t = update l t dst g := by
  -- The source of an instruction that computes has the same value in both states.
  have key : ∀ f c dst src src2, f ≠ .lea → f.writesDst = true →
      (Updates l s dst src fun t => (Inst.op f c (some dst) (some src) src2).exec l t) →
      ∃ g, ∀ t, (Inst.op f c (some dst) (some src) src2).footprint.Agree s t →
        (Inst.op f c (some dst) (some src) src2).exec l t = update l t dst g := by
    rintro f c dst src src2 hf hw ⟨g, hg⟩
    refine ⟨g, fun t ht => hg t (value_congr ?_)⟩
    simp only [Inst.footprint, if_neg hf] at ht
    exact (Footprint.agree_append (Footprint.agree_append ht).1).2
  unfold Inst.exec at h
  split at h
  · rename_i c dst src
    obtain ⟨g, hg⟩ := key .movzx c dst src none (by decide) rfl (extendInto_updates h)
    exact ⟨_, _, _, _, _, g, rfl, rfl, hg⟩
  · rename_i c dst src
    obtain ⟨g, hg⟩ := key .movsx c dst src none (by decide) rfl (extendInto_updates h)
    exact ⟨_, _, _, _, _, g, rfl, rfl, hg⟩
  · rename_i c dst src factor
    obtain ⟨g, hg⟩ := key .imul c dst src factor (by decide) rfl (multiply_updates h)
    exact ⟨_, _, _, _, _, g, rfl, rfl, hg⟩
  · rename_i f c dst src hzx hsx hmul
    split at h
    · rename_i g hg
      have hu : Updates l s dst src fun t => (Inst.op f c (some dst) (some src) none).exec l t := by
        simp only [exec_of_binary hg]
        exact twoAddress_updates h
      obtain ⟨g', hg'⟩ := key f c dst src none (by rintro rfl; cases hg) (writesDst_of_binary hg) hu
      exact ⟨_, _, _, _, _, g', rfl, writesDst_of_binary hg, hg'⟩
    · rename_i g _ hg
      have hu : Updates l s dst src fun t => (Inst.op f c (some dst) (some src) none).exec l t := by
        simp only [exec_of_shift hg]
        exact shift_updates h
      obtain ⟨g', hg'⟩ := key f c dst src none (by rintro rfl; cases hg) (writesDst_of_shift hg) hu
      exact ⟨_, _, _, _, _, g', rfl, writesDst_of_shift hg, hg'⟩
    · cases h
  · rename_i f c dst
    obtain ⟨g, hg, -⟩ := Option.bind_eq_some_iff.mp h
    exact ⟨_, _, _, _, _, fun _ x => g _ x, rfl, writesDst_of_unary hg,
      fun t _ => exec_of_unary hg t⟩
  · cases h

theorem agree_write {i : Inst} {f : Op} {c : Cond} {dst : Operand} {src src2 : Option Operand}
    {s t : State} (hi : i = .op f c (some dst) src src2) (hw : f.writesDst = true)
    (h : i.footprint.Agree s t) : dst.write.Agree s t := by
  subst hi
  simp only [Inst.footprint, if_pos hw] at h
  exact (Footprint.agree_append (Footprint.agree_append (Footprint.agree_append h).1).1).2

/-- An instruction has a meaning in every state that agrees on what it touches, and the states
after it agree on that and on everything else they agreed on before. -/
theorem exec_congr {l : Linkage} {s s' t : State} {i : Inst} {F : Footprint}
    (h : i.exec l s = some s') (hi : i.footprint.Agree s t) (hF : F.Agree s t) :
    ∃ t', i.exec l t = some t' ∧ F.Agree s' t' := by
  obtain ⟨f, c, dst, src, src2, g, heq, hw, hg⟩ := exec_eq_update h
  have hs := (hg s (.refl _ s)).symm.trans h
  have hd := agree_write heq hw hi
  rw [hg t hi]
  cases dst with
  | reg r =>
    have hr : s.regs r.id = t.regs r.id := hd.regs r.id (by simp [Operand.write, Reg.key])
    simp only [update, Operand.value, State.get, Option.some.injEq] at hs ⊢
    subst hs
    refine ⟨_, rfl, fun id hid => ?_, hF.xmms, hF.mem⟩
    by_cases h1 : id = r.id
    · subst h1
      simp [State.setReg, hr]
    · rw [setReg_regs_ne _ _ _ _ h1, setReg_regs_ne _ _ _ _ h1]
      exact hF.regs id hid
  | mem m =>
    have ha : m.addr.eval l s = m.addr.eval l t :=
      eval_congr fun id hid => hd.regs id (by simpa [Operand.write] using hid)
    have hm : s.mem = t.mem := hd.mem (by simp [Operand.write])
    simp only [update, Operand.value, State.get, Option.some.injEq] at hs ⊢
    subst hs
    refine ⟨_, rfl, hF.regs, hF.xmms, fun _ => ?_⟩
    simp [State.store, ha, hm]
  | _ => cases hs

/-- An instruction changes no register and no memory but what its footprint says. -/
theorem exec_frame {l : Linkage} {s s' : State} {i : Inst} (h : i.exec l s = some s') :
    (∀ id : RegId, id.toNat ∉ i.footprint.writes → s'.regs id = s.regs id) ∧ s'.xmms = s.xmms ∧
      (i.footprint.stores = false → s'.mem = s.mem) := by
  obtain ⟨f, c, dst, src, src2, g, rfl, hw, hg⟩ := exec_eq_update h
  have hs := (hg s (.refl _ s)).symm.trans h
  cases dst with
  | reg r =>
    cases hs
    refine ⟨fun id hid => setReg_regs_ne _ _ _ _ ?_, rfl, fun _ => rfl⟩
    rintro rfl
    simp [Inst.footprint, hw, touch, Operand.write, Reg.key] at hid
  | mem m =>
    cases hs
    refine ⟨fun _ _ => rfl, rfl, fun hst => ?_⟩
    simp [Inst.footprint, hw, touch, Operand.write] at hst
  | _ => cases hs

/-- A run depends on no more than its footprint says. -/
theorem run_congr {l : Linkage} {code : List Inst} {s s' t : State} {F : Footprint}
    (h : run l code s = some s') (hi : (footprint code).Agree s t) (hF : F.Agree s t) :
    ∃ t', run l code t = some t' ∧ F.Agree s' t' := by
  induction code generalizing s t with
  | nil =>
    cases h
    exact ⟨t, rfl, hF⟩
  | cons i rest ih =>
    obtain ⟨s1, hs1, hrest⟩ := Option.bind_eq_some_iff.mp h
    obtain ⟨h1, h2⟩ := Footprint.agree_append hi
    obtain ⟨t1, ht1, hF1⟩ := exec_congr hs1 h1 hF
    obtain ⟨t2, ht2, h3⟩ := exec_congr hs1 h1 h2
    cases ht1.symm.trans ht2
    obtain ⟨t', ht', hF'⟩ := ih hrest h3 hF1
    exact ⟨t', by simp [run, ht1, ht'], hF'⟩

/-- A run changes no register and no memory but what its footprint says. -/
theorem run_frame {l : Linkage} {code : List Inst} {s s' : State} (h : run l code s = some s') :
    (∀ id : RegId, id.toNat ∉ (footprint code).writes → s'.regs id = s.regs id) ∧
      s'.xmms = s.xmms ∧ ((footprint code).stores = false → s'.mem = s.mem) := by
  induction code generalizing s with
  | nil =>
    cases h
    exact ⟨fun _ _ => rfl, rfl, fun _ => rfl⟩
  | cons i rest ih =>
    obtain ⟨s1, hs1, hrest⟩ := Option.bind_eq_some_iff.mp h
    obtain ⟨hr, hx, hm⟩ := exec_frame hs1
    obtain ⟨hr', hx', hm'⟩ := ih hrest
    simp only [footprint_cons, Footprint.writes_append, List.mem_append, not_or,
      Footprint.stores_append, Bool.or_eq_false_iff]
    refine ⟨fun id hid => ?_, hx'.trans hx, fun hst => ?_⟩
    · rw [hr' id hid.2, hr id hid.1]
    · rw [hm' hst.2, hm hst.1]

end Backend.Machine

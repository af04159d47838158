-- The lines that a division is lowered to when its operands need no temporary register.
import Backend.Proofs.Lowering.Appended

namespace Backend.Lowering

/-! ## Operands in place -/

/-- A register, a frame slot, a variable that has been placed or an integer: lowering leaves the
operand as it is. -/
inductive InPlace (c : Closure) : Operand → Prop
  | reg (r : Reg) : InPlace c (.reg r)
  | stack (offset : Int64) (t : Ty) : InPlace c (.stack offset t)
  | var {v : Var} {l : Location} (placed : c.locate? v = some l) : InPlace c (.var v)
  | int (width : IntWidth) (value : Int64) : InPlace c (.imm (.int width value))
  | bool (word : Int64) : InPlace c (.imm (.bool word))

theorem locate_placed (cx : Context) {v : Var} {l : Location} {st : State}
    (h : st.closure.locate? v = some l) : locate cx v st = .ok (l, st) := by
  unfold locate
  rw [run_get, h]
  rfl

theorem source_inPlace (cx : Context) {slot : Slot} {d : Draft} {o : Operand} {st : State}
    (hslot : slot.get d.instr = some o) (h : InPlace st.closure o) :
    source cx slot false d st = .ok (d, st) := by
  unfold source
  rw [hslot]
  cases h with
  | var placed => exact run_bind.mpr ⟨_, st, locate_placed cx placed, rfl⟩
  | _ => rfl

/-- An operand in place that can be written: everything but an integer. -/
def Writable : Operand → Prop
  | .imm _ => False
  | _ => True

theorem store_inPlace (cx : Context) (value : Reg) {o : Operand} {st : State}
    (h : InPlace st.closure o) (hw : Writable o) : store cx value (some o) st =
      .ok ((), { st with
        out := st.out ++ [⟨.move, some (.reg value), none, none, some o, cx.instr.pos⟩] }) := by
  let d : Draft := ⟨⟨.move, some (.reg value), none, none, some o, cx.instr.pos⟩,
    if value.is regR10 then some Slot.first else none, 0⟩
  have hdest : dest cx .output d st = .ok (d, st) := by
    cases h with
    | var placed => exact run_bind.mpr ⟨_, st, locate_placed cx placed, rfl⟩
    | int => exact hw.elim
    | bool => exact hw.elim
    | _ => rfl
  exact run_bind.mpr ⟨d, st, hdest, rfl⟩

/-! ## The lines of a division -/

section Lines

variable (locs : Locations) (i : Instr)

/-- A line at the place of the division. -/
def lineAt (op : Opcode) (first second output : Option Operand) : Instr :=
  ⟨op, first, second, none, output, i.pos⟩

/-- The registers that a division works in and that variables live in. -/
def divisionSaves : List Reg := [regRax, regRdx].filter locs.occupies

/-- The width that a division is done in. -/
def divisionWidth : Nat := max (opType i).size 4

/-- Where the machine leaves the result. -/
def divisionResult : Reg :=
  if i.op == .srem || i.op == .urem then gpr Machine.rdx (divisionWidth i)
  else gpr Machine.rax (divisionWidth i)

/-- The operands are moved to the registers of the division. -/
def divisionLoads (first second : Operand) : List Instr :=
  let temp : Operand := .reg (gpr Machine.r10 (divisionWidth i))
  let rax : Operand := .reg (gpr Machine.rax (divisionWidth i))
  let rdx : Operand := .reg (gpr Machine.rdx (divisionWidth i))
  [lineAt i .move (some second) none (some temp), lineAt i .move (some first) none (some rax),
    lineAt i i.op (some rax) (some temp) (some (.list [rax, rdx]))]

/-- The lines between saving and restoring. The result is moved out of the way of what is
restored. -/
def divisionCore (first second : Operand) : List Instr :=
  divisionLoads i first second ++
  if (divisionSaves locs).isEmpty then []
  else [lineAt i .move (some (.reg (divisionResult i))) none
    (some (.reg (gpr Machine.r10 (divisionWidth i))))]

/-- The register that the result is stored from. -/
def divisionSource : Reg :=
  if (divisionSaves locs).isEmpty then divisionResult i else gpr Machine.r10 (divisionWidth i)

def divisionLines (first second output : Operand) : List Instr :=
  let saves := divisionSaves locs
  saves.map (fun r => lineAt i .push (some (.reg r)) none none) ++
  divisionCore locs i first second ++
    saves.reverse.map (fun r => lineAt i .pop none none (some (.reg r))) ++
    [lineAt i .move (some (.reg (divisionSource locs i))) none (some output)]

end Lines

theorem each_emit {α : Type} (cx : Context) (op : Opcode) (first second output : α → Option Operand)
    (xs : List α) (st : State) : each (fun x => emit cx op (first x) (second x) (output x)) xs st =
      .ok (PUnit.unit, { st with
        out := st.out ++ xs.map fun x => lineAt cx.instr op (first x) (second x) (output x) }) := by
  induction xs generalizing st with
  | nil =>
    rw [List.map_nil, List.append_nil]
    rfl
  | cons x xs ih =>
    have hone : emit cx op (first x) (second x) (output x) st =
      .ok ((), { st with out := st.out ++ [lineAt cx.instr op (first x) (second x) (output x)] }) :=
        rfl
    unfold each at ih ⊢
    rw [List.forIn_cons]
    refine run_bind.mpr ⟨.yield PUnit.unit, _, run_bind.mpr ⟨(), _, hone, rfl⟩, (ih _).trans ?_⟩
    simp

theorem divide_inPlace (cx : Context) {first second output : Operand} {st : State}
    (hfirst : cx.instr.first = some first) (hsecond : cx.instr.second = some second)
    (houtput : cx.instr.output = some output) (hf : InPlace st.closure first)
    (hs : InPlace st.closure second) (ho : InPlace st.closure output) (hw : Writable output) :
    divide cx cx.instr st = .ok ((), { st with
      out := st.out ++ divisionLines st.closure.locations cx.instr first second output }) := by
  obtain ⟨variadic, scratch, ⟨op, a, b, c, o, pos⟩⟩ := cx
  simp only at hfirst hsecond houtput
  subst hfirst hsecond houtput
  let i : Instr := ⟨op, some first, some second, c, some output, pos⟩
  let cx : Context := ⟨variadic, scratch, i⟩
  have hsource : source cx .first false (.of i) st = .ok (.of i, st) := source_inPlace cx rfl hf
  have hsource' : source cx .second false (.of i) st = .ok (.of i, st) := source_inPlace cx rfl hs
  have hsave : [regRax, regRdx].filter st.closure.locations.occupies =
    divisionSaves st.closure.locations := rfl
  unfold divide
  refine run_bind.mpr ⟨_, st, hsource, run_bind.mpr ⟨_, st, hsource', ?_⟩⟩
  refine run_bind.mpr ⟨_, st, rfl, run_bind.mpr ⟨st, st, rfl, ?_⟩⟩
  refine run_bind.mpr ⟨_, _, each_emit cx .push (fun r => some (.reg r)) (fun _ => none)
    (fun _ => none) _ st, ?_⟩
  refine run_bind.mpr ⟨(), _, rfl, run_bind.mpr ⟨(), _, rfl, run_bind.mpr ⟨(), _, rfl, ?_⟩⟩⟩
  dsimp only [Draft.of]
  rw [hsave]
  unfold divisionLines divisionCore divisionLoads divisionSource divisionResult
  cases hsaves : (divisionSaves st.closure.locations).isEmpty with
  | true =>
    have hempty := List.isEmpty_iff.mp hsaves
    simp only [hempty]
    refine (store_inPlace cx _ ?_ hw).trans ?_
    · exact ho
    · simp [lineAt, divisionWidth, i, cx]
  | false =>
    simp only [Bool.not_false, if_true, Bool.false_eq_true, if_false]
    refine run_bind.mpr ⟨(), _, rfl, ?_⟩
    refine run_bind.mpr ⟨_, _, each_emit cx .pop (fun _ => none) (fun _ => none)
      (fun r => some (.reg r)) _ _, ?_⟩
    refine (store_inPlace cx _ ?_ hw).trans ?_
    · exact ho
    · simp [lineAt, divisionWidth, i, cx]

end Backend.Lowering

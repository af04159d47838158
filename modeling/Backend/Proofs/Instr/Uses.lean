-- What an instruction reads at any depth, against the operands that it is said to use. Uses follow
-- lists to any depth but addresses only to their first level, and look into no list of outputs;
-- what stands below that is hidden, and everything else that is read is used, as often as it is
-- read.
import Backend.Instr.Parser
import Backend.Proofs.Peephole.Temporary

namespace Backend

/-! ## Names in operands -/

namespace Operand

/-- The operand is a variable or a register. -/
def isName : Operand → Bool
  | .var _ | .reg _ => true
  | _ => false

mutual

/-- The variables and registers in an operand at any depth. -/
def names : Operand → List Operand
  | .var v => [.var v]
  | .reg r => [.reg r]
  | .indirect base index _ _ _ => slotNames base ++ slotNames index
  | .list items => itemNames items
  | _ => []

def slotNames : Option Operand → List Operand
  | none => []
  | some o => o.names

def itemNames : List Operand → List Operand
  | [] => []
  | o :: rest => o.names ++ itemNames rest

end

/-- The names in the address of a memory operand at any depth. -/
def addressNames (o : Operand) : List Operand := (Instr.addressParts o).flatMap names

/-- The names below an address part that is none itself. -/
def innerNames (o : Operand) : List Operand := if o.isName then [] else o.names

mutual

/-- The names in an operand that stand below the first level of an address. -/
def deepNames : Operand → List Operand
  | .indirect base index _ _ _ => (base.toList ++ index.toList).flatMap innerNames
  | .list items => deepItemNames items
  | _ => []

def deepItemNames : List Operand → List Operand
  | [] => []
  | o :: rest => o.deepNames ++ deepItemNames rest

end

theorem slotNames_eq (slot : Option Operand) : slotNames slot = slot.toList.flatMap names := by
  cases slot with
  | none => rfl
  | some o => simp [slotNames]

/-- A list in two parts for each of two lists. -/
theorem perm_interleave {α : Type} (a b c d : List α) :
    ((a ++ b) ++ (c ++ d)).Perm ((a ++ c) ++ (b ++ d)) := by
  simp only [List.append_assoc]
  apply List.Perm.append_left
  rw [← List.append_assoc, ← List.append_assoc]
  exact List.perm_append_comm.append_right d

/-- The names in address parts are the parts that are names and those below the others. -/
theorem names_parts (parts : List Operand) :
    (parts.flatMap names).Perm (parts.filter isName ++ parts.flatMap innerNames) := by
  induction parts with
  | nil => exact .refl _
  | cons o rest ih =>
    have hsplit : o.names = [o].filter isName ++ innerNames o := by cases o <;> rfl
    have hfilter : (o :: rest).filter isName = [o].filter isName ++ rest.filter isName :=
      List.filter_append [o] rest
    rw [List.flatMap_cons, List.flatMap_cons, hsplit, hfilter]
    exact (ih.append_left _).trans (perm_interleave _ _ _ _)

mutual

/-- The names in an operand are those that reading it reads and the deep ones. -/
theorem names_perm : ∀ o : Operand, o.names.Perm ((Instr.reads o).filter isName ++ o.deepNames)
  | .var _ => .refl _
  | .reg _ => .refl _
  | .indirect base index scale disp t => by
    have hparts := names_parts (base.toList ++ index.toList)
    rw [List.flatMap_append, ← slotNames_eq, ← slotNames_eq] at hparts
    exact hparts
  | .list items => itemNames_perm items
  | .stack _ _ | .imm _ | .symbol _ | .label _ => .refl _

theorem itemNames_perm : ∀ items : List Operand,
    (itemNames items).Perm ((Instr.readsItems items).filter isName ++ deepItemNames items)
  | [] => .refl _
  | o :: rest => by
    rw [itemNames, Instr.readsItems, deepItemNames, List.filter_append]
    exact ((names_perm o).append (itemNames_perm rest)).trans (perm_interleave _ _ _ _)

end

end Operand

/-! ## Names that instructions read -/

namespace Instr

open Operand (names isName addressNames innerNames deepNames)

/-- The operands in the source slots. -/
def sourceOperands (i : Instr) : List Operand :=
  i.first.toList ++ i.second.toList ++ i.addend.toList

/-- The names in the addresses of memory operands that the instruction writes: its output or the
items of its output. -/
def outputNames (i : Instr) : List Operand :=
  match i.output with
  | none => []
  | some (.list items) => items.flatMap addressNames
  | some o => addressNames o

/-- The operations that read operands. -/
def readsOperands : Opcode → Bool
  | .label | .bal | .nop | .fnBegin => false
  | _ => true

/-- The names that the instruction reads: those anywhere in its sources, and those in the addresses
of what it writes. The output of a branch is its target. -/
def namesRead (i : Instr) : List Operand :=
  if readsOperands i.op then
    i.sourceOperands.flatMap names ++ if i.op.isBranch then [] else i.outputNames
  else []

/-- The names in the addresses of what the instruction writes, without the base and index of a
memory output. -/
def hiddenOutputNames (i : Instr) : List Operand :=
  match i.output with
  | none => []
  | some (.list items) => items.flatMap addressNames
  | some o => (addressParts o).flatMap innerNames

/-- The names that the instruction reads in a place that its uses leave out: in a memory operand or
list that is itself part of an address, or in the address of an item of its output. -/
def hiddenNames (i : Instr) : List Operand :=
  if readsOperands i.op then
    i.sourceOperands.flatMap deepNames ++ if i.op.isBranch then [] else i.hiddenOutputNames
  else []

theorem names_sources (sources : List Operand) :
    (sources.flatMap names).Perm
      ((sources.flatMap reads).filter isName ++ sources.flatMap deepNames) := by
  induction sources with
  | nil => exact .refl _
  | cons o rest ih =>
    simp only [List.flatMap_cons, List.filter_append]
    exact ((Operand.names_perm o).append ih).trans (Operand.perm_interleave _ _ _ _)

theorem names_output (i : Instr) :
    i.outputNames.Perm
      (((i.output.map addressParts).getD []).filter isName ++ i.hiddenOutputNames) := by
  unfold outputNames hiddenOutputNames
  split
  · rename_i h
    rw [h]
    exact .refl _
  · rename_i items h
    rw [h]
    exact .refl _
  · rename_i o _ h
    rw [h]
    exact Operand.names_parts _

theorem readsOption_eq (slot : Option Operand) : readsOption slot = slot.toList.flatMap reads := by
  cases slot with
  | none => rfl
  | some o => simp [readsOption]

theorem uses_eq (i : Instr) :
    i.uses = if readsOperands i.op then
      i.sourceOperands.flatMap reads ++
        if i.op.isBranch then [] else (i.output.map addressParts).getD []
      else [] := by
  have hsources : i.sourceOperands.flatMap reads =
      readsOption i.first ++ readsOption i.second ++ readsOption i.addend := by
    simp only [readsOption_eq, sourceOperands, List.flatMap_append]
  rw [hsources]
  unfold uses
  cases i.op.isBranch <;> cases i.op <;> simp [readsOperands]

/-- Everything that an instruction reads is among its uses, but for what is hidden. -/
theorem namesRead_perm (i : Instr) :
    i.namesRead.Perm (i.uses.filter isName ++ i.hiddenNames) := by
  have hsources := names_sources i.sourceOperands
  have houtput := i.names_output
  rw [uses_eq]
  unfold namesRead hiddenNames
  cases readsOperands i.op with
  | false => exact .refl _
  | true =>
    cases i.op.isBranch with
    | true => simpa using hsources
    | false =>
      simp only [Bool.false_eq_true, if_false, if_true, List.filter_append]
      exact (hsources.append houtput).trans (Operand.perm_interleave _ _ _ _)

end Instr

namespace Peephole

theorem varCount_filter_isName (ident : String) (os : List Operand) :
    varCount ident (os.filter Operand.isName) = varCount ident os := by
  unfold varCount
  rw [List.filterMap_filter]
  congr 2
  funext o
  cases o <;> rfl

theorem varCount_perm (ident : String) {os os' : List Operand} (h : os.Perm os') :
    varCount ident os = varCount ident os' := (h.filterMap _).countP_eq _

theorem varCount_namesRead (b : Block) (ident : String) :
    varCount ident (b.ops.flatMap Instr.namesRead) =
      b.useCount ident + varCount ident (b.ops.flatMap Instr.hiddenNames) := by
  rw [useCount_eq]
  induction b.ops with
  | nil => rfl
  | cons i rest ih =>
    have hhead : varCount ident i.namesRead =
        varCount ident i.uses + varCount ident i.hiddenNames := by
      rw [varCount_perm ident i.namesRead_perm, varCount_append, varCount_filter_isName]
    simp only [List.flatMap_cons, varCount_append, hhead, ih]
    omega

/-- An instruction reads what its uses name, as often as they name it, and what is hidden; so its
uses are all that it reads if they name what is hidden too, and a block reads a variable as often as
its use count says and as often as it is hidden. -/
theorem reads_are_used_or_hidden (i : Instr) (b : Block) (ident : String) :
    i.namesRead.Perm (i.uses.filter Operand.isName ++ i.hiddenNames) ∧
    (i.namesRead ⊆ i.uses ↔ i.hiddenNames ⊆ i.uses) ∧
    varCount ident (b.ops.flatMap Instr.namesRead) =
      b.useCount ident + varCount ident (b.ops.flatMap Instr.hiddenNames) := by
  refine ⟨i.namesRead_perm, ?_, varCount_namesRead b ident⟩
  rw [i.namesRead_perm.subset_congr_left, List.append_subset]
  exact and_iff_right (List.filter_subset_self _)

def tablePointer : Var := ⟨"b", .ptr, false, false⟩

def indexPointer : Var := ⟨"p", .ptr, false, false⟩

/-- A load from a table whose index is itself in memory. -/
def loadByStoredIndex : Instr :=
  ⟨.move, some (.indirect (some (.var tablePointer))
    (some (.indirect (some (.var indexPointer)) none 0 0 .i64)) 8 0 .i64), none, none,
    some (.var ⟨"d", .i64, false, false⟩), ⟨0, 0⟩⟩

/-- The address of an index is read to find the index, and is no use of the instruction. -/
theorem address_of_index_is_hidden :
    Instr.parse registerOfName? "move [%b:ptr + [%p:ptr]:i64*8]:i64 -> %d:i64".toList =
        .ok loadByStoredIndex ∧
      .var indexPointer ∈ loadByStoredIndex.namesRead ∧
      .var indexPointer ∉ loadByStoredIndex.uses ∧
      (Block.mk "entry" [loadByStoredIndex] [] ["d"] [] []).useCount indexPointer.ident = 0 := by
  have hread : loadByStoredIndex.namesRead = [.var tablePointer, .var indexPointer] := by
    simp [Instr.namesRead, Instr.readsOperands, loadByStoredIndex, Instr.sourceOperands,
      Operand.names, Operand.slotNames, Instr.outputNames, Operand.addressNames,
      Instr.addressParts]
  have hcount : (Block.mk "entry" [loadByStoredIndex] [] ["d"] [] []).useCount "p" = 0 := by decide
  refine ⟨by cbv, by simp [hread], fun hused => ?_, hcount⟩
  have hvars : indexPointer ∈ loadByStoredIndex.usedVars :=
    List.mem_filterMap.mpr ⟨_, hused, rfl⟩
  exact absurd hvars (by decide)

end Peephole

end Backend

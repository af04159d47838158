-- Writes to the text of a unit. It grows at its end, and a range that it has can be overwritten;
-- what a position holds is what the last accepted write that covers it put there. The end of a
-- range is computed in 64 bits, so a range that runs over their end is not seen to lie outside.
import Backend.Proofs.Bytes
import Backend.Proofs.CodeUnit.History

namespace Backend

theorem getElem?_overwrite {bytes p : List UInt8} {start : Nat}
    (h : start + p.length ≤ bytes.length) (i : Nat) :
    (overwrite bytes start p)[i]? = (if start ≤ i then p[i - start]? else none).or bytes[i]? := by
  have hstart : (bytes.take start).length = start := by
    rw [List.length_take]
    omega
  have hroom : p.take (bytes.length - start) = p := List.take_of_length_le (by omega)
  rw [overwrite, hroom, List.append_assoc]
  by_cases hbefore : i < start
  · rw [List.getElem?_append_left (by omega), List.getElem?_take, if_pos hbefore,
      if_neg (by omega), Option.none_or]
  · rw [List.getElem?_append_right (by omega), hstart, if_pos (by omega)]
    by_cases hinside : i - start < p.length
    · rw [List.getElem?_append_left hinside, List.getElem?_eq_getElem hinside, Option.some_or]
    · rw [List.getElem?_append_right (by omega), List.getElem?_drop,
        List.getElem?_eq_none (by omega : p.length ≤ i - start), Option.none_or]
      congr 1
      omega

namespace CodeUnit

/-! ## Writes -/

/-- A write to the text: at its end, or over what is there. -/
inductive Write where
  | emit (bytes : List UInt8)
  | patch (offset : UInt64) (bytes : List UInt8)

namespace Write

def bytes : Write → List UInt8
  | .emit bytes => bytes
  | .patch _ bytes => bytes

/-- The bytes by which the write makes the text longer. -/
def appended : Write → List UInt8
  | .emit bytes => bytes
  | .patch _ _ => []

/-- Where the bytes go. -/
def start (u : CodeUnit) : Write → Nat
  | .emit _ => u.text.length
  | .patch offset _ => offset.toNat

/-- The text has the range that is overwritten. -/
def InText (u : CodeUnit) : Write → Prop
  | .emit _ => True
  | .patch offset bytes => offset.toNat + bytes.length ≤ u.text.length

/-- The range runs over the end of the 64-bit offsets, and its end comes to lie in the text. -/
def Wraps (u : CodeUnit) : Write → Prop
  | .emit _ => False
  | .patch offset bytes => 2 ^ 64 ≤ offset.toNat + bytes.length ∧
      offset.toNat + bytes.length ≤ 2 ^ 64 + u.text.length

end Write

/-- One write in place. -/
def write (u : CodeUnit) : Write → CodeUnit × Option Error
  | .emit bytes => (u.emit bytes, none)
  | .patch offset bytes => u.settled (u.patch offset bytes)

/-- The unit after a sequence of writes, whether they were refused or not. -/
def writeAll (u : CodeUnit) (writes : List Write) : CodeUnit :=
  writes.foldl (fun u w => (u.write w).1) u

/-- The byte that an accepted write puts at a position of the text. -/
def put? (u : CodeUnit) (w : Write) (i : Nat) : Option UInt8 :=
  if (u.write w).2 = none ∧ w.start u ≤ i then w.bytes[i - w.start u]? else none

/-- The byte that the last accepted write to a position puts there. -/
def lastPut? : CodeUnit → List Write → Nat → Option UInt8
  | _, [], _ => none
  | u, w :: rest, i => (lastPut? (u.write w).1 rest i).or (u.put? w i)

theorem writeAll_cons (u : CodeUnit) (w : Write) (rest : List Write) :
    u.writeAll (w :: rest) = (u.write w).1.writeAll rest := rfl

/-! ## One write -/

/-- What overwriting does, for a text and bytes of any length that a machine can hold. -/
theorem patch_eq {u : CodeUnit} (hu : u.text.length < 2 ^ 63) (offset : UInt64) {bytes : List UInt8}
    (hbytes : bytes.length < 2 ^ 63) :
    (Write.InText u (.patch offset bytes) ∧
      u.patch offset bytes = .ok { u with text := overwrite u.text offset.toNat bytes }) ∨
    (¬ Write.InText u (.patch offset bytes) ∧ Write.Wraps u (.patch offset bytes) ∧
      u.patch offset bytes = .error (.patchOutside offset u.text.length)) ∨
    (¬ Write.InText u (.patch offset bytes) ∧ ¬ Write.Wraps u (.patch offset bytes) ∧
      u.patch offset bytes = .error (.patchBeyondEnd offset bytes.length u.text.length)) := by
  have hoffset := offset.toNat_lt
  have hend : (offset + UInt64.ofNat bytes.length > u.offset) ↔
      u.text.length < (offset.toNat + bytes.length) % 2 ^ 64 := by
    rw [gt_iff_lt, UInt64.lt_iff_toNat_lt, CodeUnit.offset, UInt64.toNat_add, UInt64.toNat_ofNat',
      UInt64.toNat_ofNat']
    omega
  unfold CodeUnit.patch Write.InText Write.Wraps
  by_cases hbeyond : u.text.length < (offset.toNat + bytes.length) % 2 ^ 64
  · rw [if_pos (hend.mpr hbeyond)]
    exact .inr (.inr ⟨by omega, by omega, rfl⟩)
  · rw [if_neg (mt hend.mp hbeyond)]
    by_cases houtside : u.text.length < offset.toNat
    · rw [if_pos houtside]
      exact .inr (.inl ⟨by omega, by omega, rfl⟩)
    · rw [if_neg houtside]
      exact .inl ⟨by omega, rfl⟩

/-- What a write does. It is accepted exactly if the text has the range, and then changes the bytes
of the range and no others; if it is refused, the text stays. A range that wraps is taken to be in
the text and faults when it is cut out of it. -/
structure Write.Settles (w : Write) (u : CodeUnit) : Prop where
  accepted : (u.write w).2 = none ↔ w.InText u
  text : ∀ i, (u.write w).1.text[i]? = (u.put? w i).or u.text[i]?
  length : (u.write w).1.text.length = u.text.length + w.appended.length
  refused : ∀ e, (u.write w).2 = some e → (u.write w).1 = u
  faults : (∃ offset size, (u.write w).2 = some (.patchOutside offset size)) ↔ w.Wraps u

theorem settles_emit (u : CodeUnit) (bytes : List UInt8) : (Write.emit bytes).Settles u where
  accepted := iff_of_true rfl trivial
  length := List.length_append
  refused e he := nomatch he
  faults := iff_of_false (fun ⟨_, _, h⟩ => nomatch h) id
  text i := by
    show (u.text ++ bytes)[i]? = _
    by_cases hi : i < u.text.length
    · have hnone : u.put? (.emit bytes) i = none :=
        if_neg fun h => absurd h.2 (Nat.not_le.mpr hi)
      rw [List.getElem?_append_left hi, hnone, Option.none_or]
    · have hput : u.put? (.emit bytes) i = bytes[i - u.text.length]? :=
        if_pos ⟨rfl, Nat.not_lt.mp hi⟩
      rw [List.getElem?_append_right (by omega), hput,
        List.getElem?_eq_none (by omega : u.text.length ≤ i), Option.or_none]

/-- A refused write leaves the unit as it is. -/
theorem settles_of_refused {u : CodeUnit} {offset : UInt64} {bytes : List UInt8} {e : Error}
    (h : u.patch offset bytes = .error e) (hout : ¬ Write.InText u (.patch offset bytes))
    (hfault : (∃ o n, e = .patchOutside o n) ↔ Write.Wraps u (.patch offset bytes)) :
    (Write.patch offset bytes).Settles u := by
  have hwrite : u.write (.patch offset bytes) = (u, some e) := by
    rw [write, h]
    rfl
  have hput : ∀ i, u.put? (.patch offset bytes) i = none := by
    intro i
    simp [put?, hwrite]
  refine ⟨iff_of_false ?_ hout, ?_, ?_, ?_, ?_⟩
  · simp [hwrite]
  · intro i
    rw [hwrite, hput, Option.none_or]
  · rw [hwrite]
    rfl
  · intro _ _
    rw [hwrite]
  · rw [hwrite]
    simpa only [Option.some.injEq] using hfault

/-- Overwriting a range of the text changes the bytes of the range. -/
theorem settles_of_accepted {u : CodeUnit} {offset : UInt64} {bytes : List UInt8}
    (h : u.patch offset bytes = .ok { u with text := overwrite u.text offset.toNat bytes })
    (hin : offset.toNat + bytes.length ≤ u.text.length) (hu : u.text.length < 2 ^ 63) :
    (Write.patch offset bytes).Settles u := by
  have hwrite : u.write (.patch offset bytes) =
      ({ u with text := overwrite u.text offset.toNat bytes }, none) := by
    rw [write, h]
    rfl
  have hput : ∀ i, u.put? (.patch offset bytes) i =
      if offset.toNat ≤ i then bytes[i - offset.toNat]? else none := by
    intro i
    simp [put?, hwrite, Write.start, Write.bytes]
  refine ⟨iff_of_true ?_ hin, ?_, ?_, ?_, iff_of_false ?_ ?_⟩
  · rw [hwrite]
  · intro i
    rw [hwrite, hput]
    exact getElem?_overwrite hin i
  · rw [hwrite]
    exact length_overwrite _ _ _
  · intro e he
    rw [hwrite] at he
    cases he
  · simp [hwrite]
  · rintro ⟨hwraps, -⟩
    omega

theorem settles_write {u : CodeUnit} (hu : u.text.length < 2 ^ 63) {w : Write}
    (hw : w.bytes.length < 2 ^ 63) : w.Settles u := by
  cases w with
  | emit bytes => exact settles_emit u bytes
  | patch offset bytes =>
    rcases patch_eq hu offset hw with ⟨hin, h⟩ | ⟨hout, hwraps, h⟩ | ⟨hout, hwraps, h⟩
    · exact settles_of_accepted h hin hu
    · exact settles_of_refused h hout (iff_of_true ⟨_, _, rfl⟩ hwraps)
    · exact settles_of_refused h hout (iff_of_false (fun ⟨_, _, h⟩ => nomatch h) hwraps)

/-! ## Runs of writes -/

/-- The writes are of byte strings that a machine can hold, and so is the text that they give. -/
structure Writable (u : CodeUnit) (writes : List Write) : Prop where
  bytes : ∀ w ∈ writes, w.bytes.length < 2 ^ 63
  text : u.text.length + (writes.flatMap Write.appended).length < 2 ^ 63

theorem Writable.step {u : CodeUnit} {w : Write} {rest : List Write} (h : Writable u (w :: rest)) :
    w.Settles u ∧ Writable (u.write w).1 rest := by
  have htext := h.text
  rw [List.flatMap_cons, List.length_append] at htext
  have hsettles : w.Settles u := settles_write (by omega) (h.bytes w List.mem_cons_self)
  refine ⟨hsettles, fun v hv => h.bytes v (List.mem_cons_of_mem w hv), ?_⟩
  rw [hsettles.length]
  omega

theorem Writable.after {u : CodeUnit} {before rest : List Write} (h : Writable u (before ++ rest)) :
    Writable (u.writeAll before) rest := by
  induction before generalizing u with
  | nil => exact h
  | cons w before ih => exact ih h.step.2

theorem length_writeAll {u : CodeUnit} {writes : List Write} (h : Writable u writes) :
    (u.writeAll writes).text.length = u.text.length + (writes.flatMap Write.appended).length := by
  induction writes generalizing u with
  | nil => rfl
  | cons w rest ih =>
    obtain ⟨hsettles, hrest⟩ := h.step
    rw [writeAll_cons, ih hrest, hsettles.length, List.flatMap_cons, List.length_append]
    omega

theorem getElem?_writeAll {u : CodeUnit} {writes : List Write} (h : Writable u writes) (i : Nat) :
    (u.writeAll writes).text[i]? = (u.lastPut? writes i).or u.text[i]? := by
  induction writes generalizing u with
  | nil => rfl
  | cons w rest ih =>
    obtain ⟨hsettles, hrest⟩ := h.step
    rw [writeAll_cons, ih hrest, hsettles.text, lastPut?, Option.or_assoc]

/-- The text of a unit over a whole run of writes. It has the bytes it had and those that were
appended; every write is accepted exactly if the text has its range, and otherwise changes nothing;
and a position holds what the last accepted write to it put there. A write faults exactly if its
range wraps. -/
theorem text_of_writes {u : CodeUnit} {writes : List Write} (h : Writable u writes) :
    (u.writeAll writes).text.length = u.text.length + (writes.flatMap Write.appended).length ∧
      (∀ before w after, writes = before ++ w :: after → w.Settles (u.writeAll before)) ∧
      ∀ i, (u.writeAll writes).text[i]? = (u.lastPut? writes i).or u.text[i]? := by
  refine ⟨length_writeAll h, ?_, getElem?_writeAll h⟩
  rintro before w after rfl
  exact h.after.step.1

/-- Reserved bytes that are filled in, a range beyond the end, and one that wraps. -/
def filledReserve : List Write :=
  [.emit [0x90], .emit [0, 0, 0], .patch 2 [1, 2], .patch 3 [7, 7],
    .patch 0xffffffffffffffff [5, 6], .patch 1 [3, 4], .emit [0xc3]]

theorem text_of_filledReserve :
    Writable (empty "unit") filledReserve ∧
      ((empty "unit").writeAll filledReserve).text.length = 5 ∧
      ((empty "unit").writeAll filledReserve).text[2]? = some 4 := by
  have h : Writable (empty "unit") filledReserve := ⟨by decide, by decide⟩
  obtain ⟨hlength, -, htext⟩ := text_of_writes h
  exact ⟨h, hlength.trans (by decide), (htext 2).trans (by decide)⟩

/-- A range that lies beyond the end of the text faults instead of being refused, since its end
wraps to zero. -/
theorem patch_faults_on_wrapped_end :
    ¬ Write.InText (empty "unit") (.patch 0xffffffffffffffff [0]) ∧
      (empty "unit").patch 0xffffffffffffffff [0] = .error (.patchOutside 0xffffffffffffffff 0) :=
  ⟨Nat.not_succ_le_zero _, rfl⟩

end CodeUnit

end Backend

-- What becomes of the value that a global declares: when the declaration is taken, what its image
-- in the data section shows, and when an integer can be read back from there.
import Backend.Proofs.Machine.Decoding
import Backend.Proofs.ModuleFile.Loaded
import Backend.Proofs.Pipeline.Emission

namespace Backend

/-! ## Integers in bytes -/

theorem take_littleEndian (k n v : Nat) : (littleEndian n v).take k = littleEndian (min k n) v := by
  induction n generalizing k v with
  | zero => simp [littleEndian]
  | succ n ih =>
    cases k with
    | zero => simp [littleEndian]
    | succ k => simp only [littleEndian, List.take_succ_cons, ih, Nat.succ_min_succ]

/-- The bytes read without or with a sign give the integer. -/
def ReadAs (bytes : List UInt8) (n : Int) : Prop :=
  (leNat bytes : Int) = n ∨ (leNat bytes : Int).bmod (256 ^ bytes.length) = n

/-- The integer is in the range of so many bytes, without or with a sign. -/
def FitsBytes (k : Nat) (n : Int) : Prop := -(256 ^ k) ≤ 2 * n ∧ n < 256 ^ k

/-- The lowest bytes of an integer keep it up to multiples of their range. -/
theorem leNat_integer {k : Nat} (hk : k ≤ 8) (n : Int64) :
    (leNat (littleEndian k n.toUInt64.toNat) : Int) = n.toInt % 256 ^ k := by
  have hdvd : (256 ^ k : Int) ∣ 2 ^ 64 := pow_dvd_pow 256 hk
  rw [leNat_littleEndian, Int.natCast_mod, Machine.toNat_toUInt64]
  push_cast
  exact Int.emod_emod_of_dvd _ hdvd

theorem readAs_littleEndian {k : Nat} (hpos : 0 < k) (hk : k ≤ 8) (n : Int64) :
    ReadAs (littleEndian k n.toUInt64.toNat) n.toInt ↔ FitsBytes k n.toInt := by
  obtain ⟨m, hm⟩ : ∃ m : Nat, 256 ^ k = 2 * m :=
    ⟨128 * 256 ^ (k - 1), by rw [← Nat.mul_assoc, ← pow_succ', Nat.sub_add_cancel hpos]⟩
  have hmpos : 0 < 2 * m := hm ▸ Nat.pow_pos (by decide)
  have hcast : (256 ^ k : Int) = 2 * m := by exact_mod_cast hm
  unfold ReadAs FitsBytes
  rw [leNat_integer hk, length_littleEndian, hm, hcast]
  have hbmod : (n.toInt % (2 * m : Int)).bmod (2 * m) = n.toInt.bmod (2 * m) := by
    exact_mod_cast Int.emod_bmod n.toInt (2 * m)
  rw [hbmod]
  constructor
  · rintro (h | h)
    · have hlow := Int.emod_nonneg n.toInt (b := 2 * m) (by omega)
      have hhigh := Int.emod_lt_of_pos n.toInt (b := 2 * m) (by omega)
      omega
    · have hlow := Int.le_bmod (x := n.toInt) hmpos
      have hhigh := Int.bmod_lt (x := n.toInt) hmpos
      push_cast at hlow hhigh
      omega
  · rintro ⟨hlow, hhigh⟩
    by_cases hneg : 0 ≤ n.toInt
    · exact .inl (Int.emod_eq_of_lt hneg hhigh)
    · refine .inr (Int.bmod_eq_of_le ?_ ?_) <;> push_cast <;> omega

namespace ModuleFile

variable {codec : Codec}

/-! ## Declared values -/

/-- The value that a global declares. -/
inductive Declared where
  | nothing
  | text (s : String)
  | integer (n : Int64)
  | bytes (b : List UInt8)

/-- The value that a node stands for, whatever the size of the global. -/
def Codec.declared? (codec : Codec) (anchors : List (Nat × Yaml.Node)) :
    Option Yaml.Node → Option Declared
  | none => some .nothing
  | some (.scalar _ tag _ text) =>
    if tag == Yaml.strTag then some (.text text)
    else (Text.readInt64 text.toList).toOption.map .integer
  | some (.seq mark tag flow items) =>
    (codec.bytes anchors (.seq mark tag flow items)).toOption.map fun b => .bytes (b.getD [])
  | _ => none

namespace Declared

/-- The bytes that the value cannot do without. An integer takes what there is. -/
def room : Declared → Nat
  | .nothing | .integer _ => 0
  | .text s => (Text.utf8 s).length + 1
  | .bytes b => b.length

/-- The value in a global of a size that may not be given. -/
def stored (size : Int) : Declared → Except GlobalDefect (List UInt8)
  | .nothing => .ok []
  | .text s => .ok (Text.utf8 s ++ [0])
  | .integer n => integerBytes size n
  | .bytes b => .ok b

/-- The image is the value with zeros behind it: a text ends with a zero, and an integer takes up to
eight bytes, the lowest first. -/
def ShownBy (image : List UInt8) : Declared → Prop
  | .nothing => ∃ k, image = List.replicate k 0
  | .text s => ∃ k, image = Text.utf8 s ++ 0 :: List.replicate k 0
  | .integer n => ∃ k, image =
      littleEndian (min image.length 8) n.toUInt64.toNat ++ List.replicate k 0
  | .bytes b => ∃ k, image = b ++ List.replicate k 0

/-- An integer is read back from the first bytes of the image. -/
def ReadBack (image : List UInt8) : Declared → Prop
  | .integer n => ReadAs (image.take 8) n.toInt
  | _ => True

/-- An integer is in the range of the bytes that it takes in a global of the size. -/
def InRange (size : Int) : Declared → Prop
  | .integer n => FitsBytes (min size.toNat 8) n.toInt
  | _ => True

end Declared

/-- A global that has the value. -/
structure Holds (x : Global) (v : Declared) : Prop where
  positive : 0 < x.size
  fits : (x.value.length : Int) ≤ x.size
  length : ((Pipeline.globalImage x).length : Int) = x.size
  shown : v.ShownBy (Pipeline.globalImage x)
  readBack : v.ReadBack (Pipeline.globalImage x) ↔ v.InRange x.size

/-- A value node is stored as what it stands for, and refused if it stands for nothing. -/
theorem valueBytes_spec (codec : Codec) (anchors : List (Nat × Yaml.Node)) (size : Int)
    (node : Yaml.Node) :
    (∃ v, codec.declared? anchors (some node) = some v ∧ codec.valueBytes anchors size node =
      v.stored size) ∨ (codec.declared? anchors (some node) = none ∧
        ∃ e, codec.valueBytes anchors size node = .error e ∧ ∀ k, e ≠ .negativeSize k) := by
  cases node with
  | scalar mark tag style text =>
    unfold Codec.declared? Codec.valueBytes
    dsimp only
    split
    · exact .inl ⟨_, rfl, rfl⟩
    · cases Text.readInt64 text.toList with
      | error e => exact .inr ⟨rfl, _, rfl, fun _ => nofun⟩
      | ok n => exact .inl ⟨_, rfl, rfl⟩
  | seq mark tag flow items =>
    unfold Codec.declared? Codec.valueBytes
    dsimp only
    cases codec.bytes anchors (.seq mark tag flow items) with
    | error e => exact .inr ⟨rfl, _, rfl, fun _ => nofun⟩
    | ok b => exact .inl ⟨_, rfl, rfl⟩
  | _ => exact .inr ⟨rfl, _, rfl, fun _ => nofun⟩

theorem global_of_named (codec : Codec) (anchors : List (Nat × Yaml.Node)) {d : GlobalDecl}
    (hname : d.name ≠ "") :
    codec.global anchors d =
      (((d.value.map (codec.valueBytes anchors d.size)).getD (.ok [])).bind
        (sizedGlobal d)).mapError (.global d.name) := by
  unfold Codec.global
  rw [if_neg (by simpa using hname)]
  cases d.value with
  | none =>
    dsimp only [Option.map_none, Option.getD_none]
    cases (Except.ok []).bind (sizedGlobal d) <;> rfl
  | some node =>
    dsimp only [Option.map_some, Option.getD_some]
    cases (codec.valueBytes anchors d.size node).bind (sizedGlobal d) <;> rfl

/-- A named global has its declared value at its size, or is refused for want of one. -/
theorem global_spec (codec : Codec) (anchors : List (Nat × Yaml.Node)) {d : GlobalDecl}
    (hname : d.name ≠ "") :
    (∃ v, codec.declared? anchors d.value = some v ∧
      codec.global anchors d = ((v.stored d.size).bind (sizedGlobal d)).mapError (.global d.name)) ∨
      (codec.declared? anchors d.value = none ∧
        ∃ e, codec.global anchors d = .error (.global d.name e) ∧ ∀ k, e ≠ .negativeSize k) := by
  rw [global_of_named codec anchors hname]
  cases d.value with
  | none => exact .inl ⟨.nothing, rfl, rfl⟩
  | some node =>
    simp only [Option.map_some, Option.getD_some]
    obtain ⟨v, hv, hbytes⟩ | ⟨hv, e, hbytes, hne⟩ := valueBytes_spec codec anchors d.size node
    · exact .inl ⟨v, hv, by rw [hbytes]⟩
    · exact .inr ⟨hv, e, by rw [hbytes]; rfl, hne⟩

/-- An integer at no size or at one that is not negative is its lowest bytes. -/
theorem integerBytes_eq (size : Int) (n : Int64) :
    integerBytes size n = if size < 0 then .error (.negativeSize size)
      else .ok (littleEndian (if size = 0 then 8 else min size.toNat 8) n.toUInt64.toNat) := by
  unfold integerBytes
  by_cases hzero : size = 0
  · simp [hzero, defaultSize, take_littleEndian]
  · simp [hzero, take_littleEndian]

/-! ## Images -/

open Pipeline (globalImage)

theorem globalImage_eq (x : Global) :
    globalImage x = x.value ++ List.replicate (x.size.toNat - x.value.length) 0 := rfl

/-- The bytes of an integer fill the global or are eight, so the image begins with just them. -/
theorem holds_integer {x : Global} {n : Int64} (hpos : 0 < x.size)
    (hvalue : x.value = littleEndian (min x.size.toNat 8) n.toUInt64.toNat) :
    Holds x (.integer n) := by
  have hlen : x.value.length = min x.size.toNat 8 := by rw [hvalue, length_littleEndian]
  have himage : (globalImage x).length = x.size.toNat := by
    rw [globalImage_eq, List.length_append, List.length_replicate]
    omega
  have htake : (globalImage x).take 8 = x.value := by
    rw [globalImage_eq, List.take_append, List.take_of_length_le (by omega),
      List.take_replicate, Nat.min_eq_zero_iff.mpr (by omega), List.replicate_zero,
      List.append_nil]
  refine ⟨hpos, by omega, by omega, ⟨x.size.toNat - x.value.length, ?_⟩, ?_⟩
  · rw [himage, ← hvalue]
    exact globalImage_eq x
  · unfold Declared.ReadBack Declared.InRange
    rw [htake, hvalue]
    exact readAs_littleEndian (by omega) (Nat.min_le_right _ _) n

/-- What a declared value is stored as is held by the global of the settled size. -/
theorem holds_of_stored {d : GlobalDecl} {v : Declared} {bytes : List UInt8}
    (hstored : v.stored d.size = .ok bytes) (hfits : (bytes.length : Int) ≤ settledSize d bytes) :
    Holds ⟨d.name, settledSize d bytes, bytes⟩ v := by
  have hpos := settledSize_pos hfits
  have himage : ((globalImage ⟨d.name, settledSize d bytes, bytes⟩).length : Int) =
      settledSize d bytes := by
    rw [globalImage_eq, List.length_append, List.length_replicate]
    dsimp only
    omega
  cases v with
  | nothing =>
    cases hstored
    exact ⟨hpos, hfits, himage, ⟨_, globalImage_eq _⟩, .rfl⟩
  | text s =>
    cases hstored
    have hshown := globalImage_eq
      ⟨d.name, settledSize d (Text.utf8 s ++ [0]), Text.utf8 s ++ [0]⟩
    rw [List.append_assoc] at hshown
    exact ⟨hpos, hfits, himage, ⟨_, hshown⟩, .rfl⟩
  | bytes b =>
    cases hstored
    exact ⟨hpos, hfits, himage, ⟨_, globalImage_eq _⟩, .rfl⟩
  | integer n =>
    unfold Declared.stored at hstored
    dsimp only at hstored
    rw [integerBytes_eq] at hstored
    split at hstored
    · cases hstored
    · cases hstored
      refine holds_integer hpos ?_
      dsimp only
      congr 1
      unfold settledSize
      by_cases hzero : d.size = 0
      · simp [hzero, littleEndian]
      · simp [hzero]

/-! ## Declarations that are taken -/

theorem bind_sizedGlobal_eq_ok {d : GlobalDecl} {v : Declared} {x : Global} :
    (v.stored d.size).bind (sizedGlobal d) = .ok x ↔
      ∃ bytes, v.stored d.size = .ok bytes ∧ (bytes.length : Int) ≤ settledSize d bytes ∧
        x = ⟨d.name, settledSize d bytes, bytes⟩ := by
  cases v.stored d.size with
  | error e => simp [Except.bind]
  | ok bytes => simp [Except.bind, sizedGlobal_eq_ok]

theorem fits_settledSize_iff {d : GlobalDecl} {bytes : List UInt8} :
    (bytes.length : Int) ≤ settledSize d bytes ↔ d.size = 0 ∨ (bytes.length : Int) ≤ d.size := by
  unfold settledSize
  by_cases hzero : d.size = 0
  · by_cases hnil : bytes = [] <;> simp [hzero, hnil]
  · simp [hzero]

/-- A value has its place in a global of no given size, and otherwise in one with the room it
needs. -/
theorem stored_fits_iff {d : GlobalDecl} {v : Declared} :
    (∃ bytes, v.stored d.size = .ok bytes ∧ (bytes.length : Int) ≤ settledSize d bytes) ↔
      d.size = 0 ∨ (v.room : Int) ≤ d.size := by
  simp only [fits_settledSize_iff]
  cases v with
  | nothing => simp [Declared.stored, Declared.room]
  | text s => simp [Declared.stored, Declared.room]
  | bytes b => simp [Declared.stored, Declared.room]
  | integer n =>
    simp only [Declared.stored, Declared.room, integerBytes_eq]
    split
    · simp
      omega
    · simp only [Except.ok.injEq, exists_eq_left', length_littleEndian]
      split <;> omega

/-- Only an integer is at fault with its size. -/
theorem stored_eq_negativeSize {size k : Int} {v : Declared} :
    v.stored size = .error (.negativeSize k) ↔ (∃ n, v = .integer n) ∧ size < 0 ∧ k = size := by
  cases v with
  | integer n =>
    simp only [Declared.stored, integerBytes_eq]
    split <;> simp_all [eq_comm]
  | _ => simp [Declared.stored]

theorem bind_sizedGlobal_eq_negativeSize {d : GlobalDecl} {v : Declared} {k : Int} :
    (v.stored d.size).bind (sizedGlobal d) = .error (.negativeSize k) ↔
      v.stored d.size = .error (.negativeSize k) := by
  cases v.stored d.size with
  | error e => simp [Except.bind]
  | ok bytes =>
    simp only [Except.bind, reduceCtorEq, iff_false]
    rw [sizedGlobal_eq]
    split <;> nofun

theorem mapError_global_eq_error {name : String} {x : Except GlobalDefect Global}
    {e : GlobalDefect} :
    x.mapError (Error.global name) = .error (.global name e) ↔ x = .error e := by
  cases x <;> simp [Except.mapError]

/-- A declaration stands for a global if it has a name and a value that its size has room for, and
the global holds that value. -/
theorem global_eq_ok {anchors : List (Nat × Yaml.Node)} {d : GlobalDecl} {x : Global} :
    codec.global anchors d = .ok x ↔ d.name ≠ "" ∧ ∃ v bytes, codec.declared? anchors d.value =
      some v ∧
      v.stored d.size = .ok bytes ∧ (bytes.length : Int) ≤ settledSize d bytes ∧
        x = ⟨d.name, settledSize d bytes, bytes⟩ := by
  by_cases hname : d.name = ""
  · simp [Codec.global, hname]
  · simp only [hname, ne_eq, not_false_eq_true, true_and]
    obtain ⟨v, hv, hglobal⟩ | ⟨hv, e, hglobal, -⟩ := global_spec codec anchors hname
    · simp [hglobal, hv, mapError_eq_ok, bind_sizedGlobal_eq_ok]
    · simp [hglobal, hv]

theorem global_eq_negativeSize {anchors : List (Nat × Yaml.Node)} {d : GlobalDecl} :
    (∃ k, codec.global anchors d = .error (.global d.name (.negativeSize k))) ↔
      d.name ≠ "" ∧ d.size < 0 ∧ ∃ n, codec.declared? anchors d.value = some (.integer n) := by
  by_cases hname : d.name = ""
  · simp [Codec.global, hname]
  · simp only [hname, ne_eq, not_false_eq_true, true_and]
    obtain ⟨v, hv, hglobal⟩ | ⟨hv, e, hglobal, hne⟩ := global_spec codec anchors hname
    · simp [hglobal, hv, mapError_global_eq_error, bind_sizedGlobal_eq_negativeSize,
        stored_eq_negativeSize, and_comm]
    · simp [hglobal, hv, hne]

/-- The images of the globals stand one behind the other in the data section. -/
theorem data_placeGlobals {gs : List Global} {u w : CodeUnit}
    (h : Pipeline.placeGlobals u gs = .ok w) : w.data = u.data ++ gs.flatMap globalImage := by
  induction gs generalizing u with
  | nil =>
    cases h
    simp
  | cons g rest ih =>
    unfold Pipeline.placeGlobals at h
    split at h
    · rename_i v hv
      obtain ⟨t, ht, rfl⟩ := CodeUnit.addData_eq hv
      obtain ⟨-, hdata, -⟩ := CodeUnit.define_fields ht
      rw [ih h, List.flatMap_cons, ← List.append_assoc]
      exact congrArg (· ++ globalImage g ++ _) hdata
    · cases h

/-- A global is read exactly if it has a name and a value that its size has room for. Its image then
shows the value, from which an integer can be read back exactly if it is in range, and takes its
place in the data section behind the globals before it. An integer of negative size is a fault. -/
theorem global_image_shows_value (codec : Codec) (anchors : List (Nat × Yaml.Node))
    (d : GlobalDecl) :
    ((∃ x, codec.global anchors d = .ok x) ↔ d.name ≠ "" ∧ ∃ v, codec.declared? anchors d.value =
      some v ∧
      (d.size = 0 ∨ (v.room : Int) ≤ d.size)) ∧
    (∀ x, codec.global anchors d = .ok x →
      x.name = d.name ∧ ∃ v, codec.declared? anchors d.value = some v ∧ Holds x v) ∧
    ((∃ k, codec.global anchors d = .error (.global d.name (.negativeSize k))) ↔
      d.name ≠ "" ∧ d.size < 0 ∧ ∃ n, codec.declared? anchors d.value = some (.integer n)) ∧
    ∀ u w gs, Pipeline.placeGlobals u gs = .ok w → w.data = u.data ++ gs.flatMap globalImage := by
  refine ⟨?_, fun x hx => ?_, global_eq_negativeSize, fun u w gs => data_placeGlobals⟩
  · simp only [global_eq_ok, ← stored_fits_iff]
    constructor
    · rintro ⟨_, hname, v, bytes, hv, hstored, hfits, -⟩
      exact ⟨hname, v, hv, bytes, hstored, hfits⟩
    · rintro ⟨hname, v, hv, bytes, hstored, hfits⟩
      exact ⟨_, hname, v, bytes, hv, hstored, hfits, rfl⟩
  · obtain ⟨-, v, bytes, hv, hstored, hfits, rfl⟩ := global_eq_ok.mp hx
    exact ⟨rfl, v, hv, holds_of_stored hstored hfits⟩

/-- A global of a given size with an integer for a value. -/
def numberGlobal (size : Int) (digits : String) : GlobalDecl :=
  ⟨"g", size, some (.scalar Yaml.noMark "!!int" .plain digits)⟩

theorem global_image_shows_negative_word :
    yaml.global [] (numberGlobal 2 "-300") = .ok ⟨"g", 2, [0xd4, 0xfe]⟩ ∧
      yaml.declared? [] (numberGlobal 2 "-300").value = some (.integer (-300)) ∧
      (Declared.integer (-300)).ReadBack (globalImage ⟨"g", 2, [0xd4, 0xfe]⟩) ∧
      ∃ w, Pipeline.placeGlobals (.empty "m") [⟨"g", 2, [0xd4, 0xfe]⟩] = .ok w ∧
        w.data = [0xd4, 0xfe] := by
  have hread : yaml.global [] (numberGlobal 2 "-300") = .ok ⟨"g", 2, [0xd4, 0xfe]⟩ := rfl
  have hdeclared : yaml.declared? [] (numberGlobal 2 "-300").value = some (.integer (-300)) := rfl
  obtain ⟨-, hholds, -, hplaced⟩ := global_image_shows_value yaml [] (numberGlobal 2 "-300")
  obtain ⟨-, v, hv, hx⟩ := hholds _ hread
  obtain rfl : v = .integer (-300) := Option.some.inj (hv.symm.trans hdeclared)
  have hrange : FitsBytes 2 (-300) := by unfold FitsBytes; decide
  obtain ⟨w, hw⟩ : ∃ w, Pipeline.placeGlobals (.empty "m") [⟨"g", 2, [0xd4, 0xfe]⟩] = .ok w :=
    ⟨_, rfl⟩
  exact ⟨hread, hdeclared, hx.readBack.mpr hrange, w, hw, hplaced _ w _ hw⟩

/-- An integer too large for its global is cut, where a text or a list of bytes is refused, and at a
negative size there is no answer. -/
theorem integer_is_cut_at_size :
    yaml.global [] (numberGlobal 2 "65537") = .ok ⟨"g", 2, [1, 0]⟩ ∧
      yaml.declared? [] (numberGlobal 2 "65537").value = some (.integer 65537) ∧
      ¬ (Declared.integer 65537).ReadBack (globalImage ⟨"g", 2, [1, 0]⟩) ∧
      yaml.global [] (numberGlobal (-1) "5") = .error (.global "g" (.negativeSize (-1))) := by
  refine ⟨rfl, rfl, ?_, rfl⟩
  unfold Declared.ReadBack ReadAs
  decide

end ModuleFile

end Backend

-- Where arguments are passed: the first six integers and the first eight floats in registers, all
-- others in stack slots counted in order. Both sides of a call hand out places one at a time, and
-- after any number of arguments they have handed out these.
import Backend.Lowering.Call
import Backend.Proofs.Lowering.MoveLoop

namespace Backend.Lowering

/-! ## The convention -/

/-- Where an argument is passed: in a register, or in a word above the stack pointer. -/
inductive ArgPlace where
  | reg (r : Reg)
  | stack (slot : Nat)
  deriving DecidableEq

def floatCount (types : List Ty) : Nat := types.countP Ty.isFloat

def intCount (types : List Ty) : Nat := types.countP fun t => !t.isFloat

/-- How many arguments find no register. -/
def overflow (types : List Ty) : Nat := (floatCount types - 8) + (intCount types - 6)

/-- The place of an argument of a type after arguments of other types. -/
def argPlace (earlier : List Ty) (t : Ty) : ArgPlace :=
  match if t.isFloat then floatArgRegs[floatCount earlier]? else intArgRegs[intCount earlier]? with
  | some id => .reg (regFor id t)
  | none => .stack (overflow earlier)

/-- The places of arguments after earlier ones. -/
def argPlacesFrom (earlier : List Ty) : List Ty → List ArgPlace
  | [] => []
  | t :: rest => argPlace earlier t :: argPlacesFrom (earlier ++ [t]) rest

/-- The places of the arguments of a call. -/
def argPlaces (types : List Ty) : List ArgPlace := argPlacesFrom [] types

/-- Where that is in the machine, if the first slot is at an address. -/
def ArgPlace.place (slots : BitVec 64) : ArgPlace → Machine.Place
  | .reg r => r.place
  | .stack k => .mem (slots + BitVec.ofNat 64 (8 * k))

/-- Two places that hold different arguments. -/
def ArgPlace.Apart : ArgPlace → ArgPlace → Prop
  | .reg r, .reg r' => r.key ≠ r'.key
  | .stack k, .stack k' => k ≠ k'
  | _, _ => True

theorem ArgPlace.Apart.symm {p q : ArgPlace} (h : p.Apart q) : q.Apart p := by
  cases p <;> cases q
  · exact Ne.symm h
  · trivial
  · trivial
  · exact Ne.symm h

/-! ## Counting -/

@[simp] theorem floatCount_nil : floatCount [] = 0 := rfl

@[simp] theorem intCount_nil : intCount [] = 0 := rfl

@[simp] theorem floatCount_append (types types' : List Ty) :
    floatCount (types ++ types') = floatCount types + floatCount types' := by
  simp [floatCount]

@[simp] theorem intCount_append (types types' : List Ty) :
    intCount (types ++ types') = intCount types + intCount types' := by
  simp [intCount]

@[simp] theorem floatCount_cons (t : Ty) (types : List Ty) :
    floatCount (t :: types) = floatCount types + if t.isFloat then 1 else 0 := by
  simp [floatCount, List.countP_cons]

@[simp] theorem intCount_cons (t : Ty) (types : List Ty) :
    intCount (t :: types) = intCount types + if t.isFloat then 0 else 1 := by
  cases h : t.isFloat <;> simp [intCount, h]

theorem getElem?_floatArgRegs {n : Nat} : floatArgRegs[n]? = none ↔ 8 ≤ n := by
  simp [floatArgRegs]

theorem getElem?_intArgRegs {n : Nat} : intArgRegs[n]? = none ↔ 6 ≤ n := by
  simp [intArgRegs]

/-- What an argument of each class finds. -/
theorem argPlace_cases (earlier : List Ty) (t : Ty) :
    (t.isFloat = true ∧ ∃ id, floatArgRegs[floatCount earlier]? = some id ∧
        argPlace earlier t = .reg (regFor id t)) ∨
      (t.isFloat = false ∧ ∃ id, intArgRegs[intCount earlier]? = some id ∧
        argPlace earlier t = .reg (regFor id t)) ∨
      ((if t.isFloat then 8 ≤ floatCount earlier else 6 ≤ intCount earlier) ∧
        argPlace earlier t = .stack (overflow earlier)) := by
  unfold argPlace
  cases hf : t.isFloat with
  | true =>
    cases hr : floatArgRegs[floatCount earlier]? with
    | some id => exact .inl ⟨rfl, id, rfl, by simp⟩
    | none => exact .inr (.inr ⟨by simpa using getElem?_floatArgRegs.mp hr, by simp⟩)
  | false =>
    cases hr : intArgRegs[intCount earlier]? with
    | some id => exact .inr (.inl ⟨rfl, id, rfl, by simp⟩)
    | none => exact .inr (.inr ⟨by simpa using getElem?_intArgRegs.mp hr, by simp⟩)

theorem overflow_of_reg {earlier : List Ty} {t : Ty} {r : Reg} (h : argPlace earlier t = .reg r) :
    overflow (earlier ++ [t]) = overflow earlier := by
  unfold overflow
  rcases argPlace_cases earlier t with ⟨hf, id, hr, -⟩ | ⟨hf, id, hr, -⟩ | ⟨-, hp⟩
  · have hlt : ¬ 8 ≤ floatCount earlier := fun hge => by
      rw [getElem?_floatArgRegs.mpr hge] at hr
      cases hr
    simp only [floatCount_append, intCount_append, floatCount_cons, intCount_cons, hf, if_true,
      floatCount_nil, intCount_nil]
    omega
  · have hlt : ¬ 6 ≤ intCount earlier := fun hge => by
      rw [getElem?_intArgRegs.mpr hge] at hr
      cases hr
    simp only [floatCount_append, intCount_append, floatCount_cons, intCount_cons, hf,
      Bool.false_eq_true, if_false, floatCount_nil, intCount_nil]
    omega
  · rw [h] at hp
    cases hp

/-- An argument on the stack takes the next slot. -/
theorem overflow_of_stack {earlier : List Ty} {t : Ty} {k : Nat}
    (h : argPlace earlier t = .stack k) :
    overflow earlier = k ∧ overflow (earlier ++ [t]) = k + 1 := by
  rcases argPlace_cases earlier t with ⟨-, id, -, hp⟩ | ⟨-, id, -, hp⟩ | ⟨hn, hp⟩
  · rw [h] at hp
    cases hp
  · rw [h] at hp
    cases hp
  · rw [h] at hp
    obtain rfl := ArgPlace.stack.inj hp
    refine ⟨rfl, ?_⟩
    unfold overflow
    simp only [floatCount_append, intCount_append, floatCount_cons, intCount_cons, floatCount_nil,
      intCount_nil]
    split at hn <;> simp_all <;> omega

theorem overflow_le (types : List Ty) : overflow types ≤ types.length := by
  have hcount := List.length_eq_countP_add_countP (p := Ty.isFloat) (l := types)
  simp only [Bool.not_eq_true, Bool.decide_eq_false] at hcount
  unfold overflow floatCount intCount
  omega

theorem overflow_mono (earlier later : List Ty) :
    overflow earlier ≤ overflow (earlier ++ later) := by
  simp [overflow]
  omega

/-! ## Places are apart -/

theorem key_regFor (id : Machine.RegId) (t : Ty) :
    (regFor id t).key = if t.isFloat then 256 + id.toNat else id.toNat := by
  unfold regFor
  split <;> rfl

/-- The register of an argument has the bytes of its type. -/
theorem width_of_argPlace {earlier : List Ty} {t : Ty} {r : Reg} (h : argPlace earlier t = .reg r) :
    width (.reg r) = registerWidth t := by
  have hfor : ∀ id, width (.reg (regFor id t)) = registerWidth t := by
    intro id
    cases t <;> rfl
  rcases argPlace_cases earlier t with ⟨-, id, -, hp⟩ | ⟨-, id, -, hp⟩ | ⟨-, hp⟩
  · cases h.symm.trans hp
    exact hfor id
  · cases h.symm.trans hp
    exact hfor id
  · cases h.symm.trans hp

theorem getElem?_ne_of_lt {ids : List Machine.RegId} (h : ids.Nodup) {n n' : Nat} (hlt : n < n')
    {id id' : Machine.RegId} (hid : ids[n]? = some id) (hid' : ids[n']? = some id') :
    id.toNat ≠ id'.toNat := by
  intro heq
  obtain rfl := UInt8.toNat_inj.mp heq
  have hn : n < ids.length := (List.getElem?_eq_some_iff.mp hid).1
  have hsame := (List.getElem?_inj hn h).mp (hid.trans hid'.symm)
  omega

/-- No later argument is in the place of an argument. -/
theorem argPlace_apart (earlier middle : List Ty) (t t' : Ty) :
    (argPlace earlier t).Apart (argPlace (earlier ++ t :: middle) t') := by
  have hints : ∀ id : Machine.RegId, id.toNat < 256 := fun id => id.toNat_lt
  cases hp : argPlace earlier t with
  | stack k =>
    cases hp' : argPlace (earlier ++ t :: middle) t' with
    | reg r' => trivial
    | stack k' =>
      have hstep := (overflow_of_stack hp).2
      have hmono := overflow_mono (earlier ++ [t]) middle
      simp only [List.append_assoc, List.singleton_append] at hmono
      have hlast := (overflow_of_stack hp').1
      show k ≠ k'
      omega
  | reg r =>
    cases hp' : argPlace (earlier ++ t :: middle) t' with
    | stack k' => trivial
    | reg r' =>
      show r.key ≠ r'.key
      -- Within a class the later one is further in the list of registers.
      rcases argPlace_cases earlier t with ⟨hf, id, hr, h⟩ | ⟨hf, id, hr, h⟩ | ⟨-, h⟩ <;>
        rcases argPlace_cases (earlier ++ t :: middle) t' with
          ⟨hf', id', hr', h'⟩ | ⟨hf', id', hr', h'⟩ | ⟨-, h'⟩ <;>
        simp only [hp, hp', ArgPlace.reg.injEq, reduceCtorEq] at h h' <;>
        simp only [h, h', key_regFor, hf, hf', if_true, if_false, Bool.false_eq_true]
      · have hne := getElem?_ne_of_lt (by decide) (by simp [hf]) hr hr'
        omega
      · have := hints id'
        omega
      · have := hints id
        omega
      · exact getElem?_ne_of_lt (by decide) (by simp [hf]) hr hr'

theorem getElem?_argPlacesFrom (earlier types : List Ty) (i : Nat) :
    (argPlacesFrom earlier types)[i]? =
      types[i]?.map fun t => argPlace (earlier ++ types.take i) t := by
  induction types generalizing earlier i with
  | nil => rfl
  | cons t rest ih =>
    cases i with
    | zero => simp [argPlacesFrom]
    | succ i => simp [argPlacesFrom, ih]

theorem getElem?_argPlaces (types : List Ty) (i : Nat) :
    (argPlaces types)[i]? = types[i]?.map fun t => argPlace (types.take i) t := by
  simp [argPlaces, getElem?_argPlacesFrom]

theorem argPlacesFrom_pairwise (earlier types : List Ty) :
    (argPlacesFrom earlier types).Pairwise ArgPlace.Apart := by
  induction types generalizing earlier with
  | nil => exact .nil
  | cons t rest ih =>
    refine List.pairwise_cons.mpr ⟨fun place hplace => ?_, ih _⟩
    obtain ⟨i, hi⟩ := List.mem_iff_getElem?.mp hplace
    rw [getElem?_argPlacesFrom] at hi
    obtain ⟨t', -, rfl⟩ := Option.map_eq_some_iff.mp hi
    simpa using argPlace_apart earlier (rest.take i) t t'

/-- The arguments of a call are in different places. -/
theorem argPlaces_pairwise (types : List Ty) : (argPlaces types).Pairwise ArgPlace.Apart :=
  argPlacesFrom_pairwise [] types

/-! ## Registers of arguments -/

/-- The keys of the registers that carry arguments. -/
def argKeys : List Nat := intArgRegs.map UInt8.toNat ++ floatArgRegs.map fun id => 256 + id.toNat

theorem mem_argKeys {earlier : List Ty} {t : Ty} {r : Reg} (h : argPlace earlier t = .reg r) :
    r.key ∈ argKeys := by
  unfold argKeys
  rcases argPlace_cases earlier t with ⟨hf, id, hr, hp⟩ | ⟨hf, id, hr, hp⟩ | ⟨hn, hp⟩
  · rw [hp] at h
    cases h
    simp only [key_regFor, hf, if_true, List.mem_append, List.mem_map]
    exact .inr ⟨id, List.mem_of_getElem? hr, rfl⟩
  · rw [hp] at h
    cases h
    simp only [key_regFor, hf, List.mem_append, List.mem_map, Bool.false_eq_true, if_false]
    exact .inl ⟨id, List.mem_of_getElem? hr, rfl⟩
  · rw [hp] at h
    cases h

/-- Arguments are in none of the registers that a call uses otherwise. -/
theorem key_ne_of_mem_argKeys {key : Nat} (h : key ∈ argKeys) :
    key ≠ regRsp.key ∧ key ≠ regRax.key ∧ key ≠ regR10.key ∧ key ≠ regXmm13.key := by
  have hall : ∀ k ∈ argKeys, k ≠ 4 ∧ k ≠ 0 ∧ k ≠ 10 ∧ k ≠ 269 := by decide
  exact hall key h

/-! ## Handing out places -/

/-- The registers that are taken after arguments of some types. -/
def argCount (types : List Ty) : ArgCount := ⟨min (intCount types) 6, min (floatCount types) 8⟩

theorem argCount_nil : argCount [] = ⟨0, 0⟩ := rfl

/-- The register of the next argument. -/
def ArgPlace.reg? : ArgPlace → Option Reg
  | .reg r => some r
  | .stack _ => none

/-- The next register is the one of the convention. -/
theorem next_argCount (earlier : List Ty) (t : Ty) :
    (argCount earlier).next t = ((argPlace earlier t).reg?, argCount (earlier ++ [t])) := by
  rcases argPlace_cases earlier t with ⟨hf, id, hr, hp⟩ | ⟨hf, id, hr, hp⟩ | ⟨hn, hp⟩
  · have hlt : floatCount earlier < 8 := by
      by_contra hge
      rw [getElem?_floatArgRegs.mpr (by omega)] at hr
      cases hr
    have hmin : min (floatCount earlier) 8 = floatCount earlier := by omega
    simp [ArgCount.next, argCount, hf, hmin, hr, hp, ArgPlace.reg?]
    omega
  · have hlt : intCount earlier < 6 := by
      by_contra hge
      rw [getElem?_intArgRegs.mpr (by omega)] at hr
      cases hr
    have hmin : min (intCount earlier) 6 = intCount earlier := by omega
    simp [ArgCount.next, argCount, hf, hmin, hr, hp, ArgPlace.reg?]
    omega
  · cases hf : t.isFloat with
    | true =>
      rw [hf, if_pos rfl] at hn
      have hmin : min (floatCount earlier) 8 = 8 := by omega
      have hnone : floatArgRegs[8]? = none := rfl
      simp [ArgCount.next, argCount, hf, hmin, hnone, hp, ArgPlace.reg?]
      omega
    | false =>
      rw [hf, if_neg (by simp)] at hn
      have hmin : min (intCount earlier) 6 = 6 := by omega
      have hnone : intArgRegs[6]? = none := rfl
      simp [ArgCount.next, argCount, hf, hmin, hnone, hp, ArgPlace.reg?]
      omega

end Backend.Lowering

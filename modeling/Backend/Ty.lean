-- The value types of the intermediate representation: names, sizes and register class, and the
-- one-byte codes that stand for them.

namespace Backend

/-- The type of a value carried by a variable, a literal or a memory operand. -/
inductive Ty where
  | void
  | bool
  | i8
  | i16
  | i32
  | i64
  | u8
  | u16
  | u32
  | u64
  | f32
  | f64
  | ptr
  | str
  deriving DecidableEq, Repr

namespace Ty

/-- All types in the order of their codes. -/
def all : List Ty :=
  [.void, .bool, .i8, .i16, .i32, .i64, .u8, .u16, .u32, .u64, .f32, .f64, .ptr, .str]

/-- The written name of a type. -/
def name : Ty → String
  | .void => "void"
  | .bool => "bool"
  | .i8 => "i8"
  | .i16 => "i16"
  | .i32 => "i32"
  | .i64 => "i64"
  | .u8 => "u8"
  | .u16 => "u16"
  | .u32 => "u32"
  | .u64 => "u64"
  | .f32 => "f32"
  | .f64 => "f64"
  | .ptr => "ptr"
  | .str => "str"

/-- The type of a given name. -/
def ofName? (s : String) : Option Ty := all.find? fun t => t.name == s

theorem ofName?_name (t : Ty) : ofName? t.name = some t := by
  cases t <;> decide

/-- The storage size in bytes. -/
def size : Ty → Nat
  | .void => 0
  | .bool | .i8 | .u8 => 1
  | .i16 | .u16 => 2
  | .i32 | .u32 | .f32 => 4
  | .i64 | .u64 | .f64 | .ptr | .str => 8

def isFloat : Ty → Bool
  | .f32 | .f64 => true
  | _ => false

/-- Values of the type live in general purpose registers. -/
def isInteger (t : Ty) : Bool := t != .void && !t.isFloat

def isSigned : Ty → Bool
  | .i8 | .i16 | .i32 | .i64 => true
  | _ => false

/-- The signed integer type of a width in bytes; any width that has none counts as eight. -/
def ofIntWidth (width : Int) : Ty :=
  if width == 1 then .i8 else if width == 2 then .i16 else if width == 4 then .i32 else .i64

/-- The float type of a width in bytes; any width but four counts as eight. -/
def ofFloatWidth (width : Int) : Ty := if width == 4 then .f32 else .f64

/-! ## Codes -/

/-- A type as one byte. The codes after the last type are reserved. -/
structure Code where
  val : UInt8
  deriving DecidableEq

/-- The position of a type in `all`. -/
def code (t : Ty) : Code := ⟨UInt8.ofNat (all.idxOf t)⟩

namespace Code

/-- The type a code stands for, if it is not reserved. -/
def ty? (c : Code) : Option Ty := all[c.val.toNat]?

def name (c : Code) : String := (c.ty?.map Ty.name).getD "type?"

def size (c : Code) : Nat := (c.ty?.map Ty.size).getD 0

def isFloat (c : Code) : Bool := (c.ty?.map Ty.isFloat).getD false

/-- A reserved code counts as an integer type. -/
def isInteger (c : Code) : Bool := (c.ty?.map Ty.isInteger).getD true

def isSigned (c : Code) : Bool := (c.ty?.map Ty.isSigned).getD false

end Code

end Ty

end Backend

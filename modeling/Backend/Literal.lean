-- Literals: strings, integers of four widths, floats of two widths and booleans, with their
-- image in the data section, the key that identifies them there, and their written form.
import Backend.Bytes
import Backend.Float.Shortest
import Backend.Text.Hex
import Backend.Text.Quoted
import Backend.Ty

namespace Backend

open Backend.Float (Binary64)

/-- The width an integer literal is written with. -/
inductive IntWidth where
  | w8
  | w16
  | w32
  | w64
  deriving DecidableEq, Repr

def IntWidth.ty : IntWidth → Ty
  | .w8 => .i8
  | .w16 => .i16
  | .w32 => .i32
  | .w64 => .i64

/-- The width a float literal is written with. -/
inductive FloatWidth where
  | w32
  | w64
  deriving DecidableEq, Repr

def FloatWidth.ty : FloatWidth → Ty
  | .w32 => .f32
  | .w64 => .f64

/-- A literal value. An integer keeps its 64-bit value whatever its width, and a narrow float
its binary64 value. A boolean is a word of which every value but zero is true. -/
inductive Literal where
  | string (bytes : List UInt8)
  | int (width : IntWidth) (value : Int64)
  | float (width : FloatWidth) (value : Binary64)
  | bool (word : Int64)
  deriving DecidableEq

namespace Literal

/-- The integer literal of a type: a boolean for `bool`, otherwise an integer of its size. -/
def ofInt (t : Ty) (value : Int64) : Literal :=
  if t == .bool then .bool (if value == 0 then 0 else 1)
  else
    match t.size with
    | 1 => .int .w8 value
    | 2 => .int .w16 value
    | 4 => .int .w32 value
    | _ => .int .w64 value

/-- The float literal of a type. -/
def ofFloat (t : Ty) (value : Binary64) : Literal :=
  if t == .f32 then .float .w32 value else .float .w64 value

def ty : Literal → Ty
  | .string _ => .str
  | .int w _ => w.ty
  | .float w _ => w.ty
  | .bool _ => .bool

def isFloat : Literal → Bool
  | .float _ _ => true
  | _ => false

/-- The value as it fits the integer field of an instruction. -/
def int? : Literal → Option Int64
  | .int _ value => some value
  | .bool word => some word
  | _ => none

def isInt (l : Literal) : Bool := l.int?.isSome

/-- Identifies a literal among the materialised literals of a closure. -/
def key : Literal → List UInt8
  | .string bytes => Text.utf8 "str:" ++ bytes
  | .float .w32 x => Text.utf8 ("f32:" ++ String.ofList (Text.hexFixed 8 x.toBinary32.toNat))
  | .float .w64 x => Text.utf8 ("f64:" ++ String.ofList (Text.hexFixed 16 x.bits.toNat))
  | .int _ value => Text.utf8 s!"int:{value.toInt}"
  | .bool word => Text.utf8 s!"int:{word.toInt}"

/-- The image in the data section; a string ends with a zero byte. -/
def bytes : Literal → List UInt8
  | .string bytes => bytes ++ [0]
  | .float .w32 x => littleEndian 4 x.toBinary32.toNat
  | .float .w64 x => littleEndian 8 x.bits.toNat
  | .int w value => littleEndian w.ty.size value.toUInt64.toNat
  | .bool word => littleEndian 1 word.toUInt64.toNat

/-- The written form. -/
def text : Literal → String
  | .string bytes => "$" ++ Text.quoteBytes bytes
  | .bool word => if word == 0 then "$false" else "$true"
  | .float w x => s!"${x.text}:{w.ty.name}"
  | .int w value => s!"${value.toInt}:{w.ty.name}"

/-- Equality of form and value, where floats compare as numbers: the two zeros are equal and a
NaN equals nothing. -/
def same : Literal → Literal → Bool
  | .string a, .string b => a == b
  | .int w a, .int v b => w == v && a == b
  | .float w a, .float v b => w == v && a.equal b
  | .bool a, .bool b => a == b
  | _, _ => false

end Literal

end Backend

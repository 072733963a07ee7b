import Mathlib.Data.BitVec

/-!
# Values of the shader IR

The IR substrate under `shader_recompiler/frontend/ir` is not among the modelled sources. This
file models from the spec the parts of it that the constant-propagation pass reads: typed
immediates, values that refer to instructions, and the opcodes the pass names, each with its
signature. Floating-point immediates are kept as their bit patterns.
-/

namespace Shader.IR

/-- Modelled from the spec: a general-purpose register operand of `GetRegister`. -/
structure Reg where
  /-- Register number; `RZ` is number 255. -/
  index : Fin 256
  deriving DecidableEq, Repr

/-- The hardware's always-zero register. -/
def Reg.RZ : Reg := ⟨255⟩

/-- Modelled from the spec: a predicate register operand of `GetPred`. -/
structure Pred where
  /-- Predicate number; `PT` is number 7. -/
  index : Fin 8
  deriving DecidableEq, Repr

/-- The hardware's always-true predicate. -/
def Pred.PT : Pred := ⟨7⟩

/-- Modelled from the spec: a shader input attribute, the operand of `GetAttribute`. -/
structure Attribute where
  /-- Attribute number. -/
  index : Nat
  deriving DecidableEq, Repr

/-- Modelled from the spec: the fixed-size vector types whose extracts the pass folds. -/
inductive CompositeType
  | f32x2 | f32x3 | f32x4 | f16x2 | f16x3 | f16x4
  deriving DecidableEq, Repr

/-- Number of lanes of a composite type. -/
def CompositeType.lanes : CompositeType → Nat
  | .f32x2 | .f16x2 => 2
  | .f32x3 | .f16x3 => 3
  | .f32x4 | .f16x4 => 4

/-- Modelled from the spec: `IR::Type`, the type tag of a value; `ref` is `Type::Opaque`, the tag
of a value that refers to an instruction. -/
inductive Ty
  | void | ref | reg | pred | attribute | label
  | u1 | u8 | u16 | u32 | u64 | f16 | f32 | f64
  | composite (type : CompositeType)
  deriving DecidableEq, Repr

/-- Type of one lane of a composite. -/
def CompositeType.laneType : CompositeType → Ty
  | .f32x2 | .f32x3 | .f32x4 => .f32
  | .f16x2 | .f16x3 | .f16x4 => .f16

/-- Modelled from the spec: an immediate constant, tagged by its primitive type. `void` is the
value a default-constructed `IR::Value` holds, and so what an unused argument slot reads. -/
inductive Imm
  | void
  | reg (reg : Reg)
  | pred (pred : Pred)
  | attribute (attr : Attribute)
  | label (block : Nat)
  | u1 (value : Bool)
  | u8 (value : BitVec 8)
  | u16 (value : BitVec 16)
  | u32 (value : BitVec 32)
  | u64 (value : BitVec 64)
  | f16 (bits : BitVec 16)
  | f32 (bits : BitVec 32)
  | f64 (bits : BitVec 64)
  deriving DecidableEq, Repr

/-- The type tag of an immediate. -/
def Imm.type : Imm → Ty
  | .void => .void
  | .reg _ => .reg
  | .pred _ => .pred
  | .attribute _ => .attribute
  | .label _ => .label
  | .u1 _ => .u1
  | .u8 _ => .u8
  | .u16 _ => .u16
  | .u32 _ => .u32
  | .u64 _ => .u64
  | .f16 _ => .f16
  | .f32 _ => .f32
  | .f64 _ => .f64

/-- Modelled from the spec: `IR::Value`, an immediate or a reference to the instruction with the
given handle in the program's instruction arena. -/
inductive Value
  | imm (imm : Imm)
  | inst (id : Nat)
  deriving DecidableEq, Repr

/-- Modelled from the spec: the opcodes the pass names. `select type` stands for `SelectU1` to
`SelectF64`; the composite opcodes carry their vector type (`CompositeExtractF32x2` is
`compositeExtract .f32x2`); `other` is any opcode the pass does not name, with its signature. -/
inductive Opcode
  | identity
  | phi (type : Ty)
  | getRegister | getPred | getCbufU32 | getCbufF32 | getAttribute
  | iAdd32 | iAdd64 | iSub32 | iMul32 | shiftLeftLogical32
  | bitFieldUExtract | bitFieldSExtract
  | bitCastF32U32 | bitCastU32F32 | packHalf2x16 | unpackHalf2x16
  | select (type : Ty)
  | fpMul32 | fpRecip32
  | logicalAnd | logicalOr | logicalNot
  | sLessThan | uLessThan | sLessThanEqual | uLessThanEqual
  | sGreaterThan | uGreaterThan | sGreaterThanEqual | uGreaterThanEqual
  | iEqual | iNotEqual
  | branchConditional
  | compositeConstruct (type : CompositeType)
  | compositeInsert (type : CompositeType)
  | compositeExtract (type : CompositeType)
  | other (code : Nat) (argTypes : List Ty) (resultType : Ty)
  deriving DecidableEq, Repr

namespace Opcode

/-- Modelled from the spec: the argument types of an opcode. An `Identity` takes one argument of
any type, and a phi one argument of its type per predecessor; neither is listed here. -/
def argTypes : Opcode → List Ty
  | identity | phi _ => []
  | getRegister => [.reg]
  | getPred => [.pred]
  | getCbufU32 | getCbufF32 => [.u32, .u32]
  | getAttribute => [.attribute, .u32]
  | iAdd32 | iSub32 | iMul32 | shiftLeftLogical32 => [.u32, .u32]
  | iAdd64 => [.u64, .u64]
  | bitFieldUExtract | bitFieldSExtract => [.u32, .u32, .u32]
  | bitCastF32U32 => [.u32]
  | bitCastU32F32 => [.f32]
  | packHalf2x16 => [.composite .f32x2]
  | unpackHalf2x16 => [.u32]
  | select type => [.u1, type, type]
  | fpMul32 => [.f32, .f32]
  | fpRecip32 => [.f32]
  | logicalAnd | logicalOr => [.u1, .u1]
  | logicalNot => [.u1]
  | sLessThan | uLessThan | sLessThanEqual | uLessThanEqual
  | sGreaterThan | uGreaterThan | sGreaterThanEqual | uGreaterThanEqual
  | iEqual | iNotEqual => [.u32, .u32]
  | branchConditional => [.u1, .label, .label]
  | compositeConstruct type => List.replicate type.lanes type.laneType
  | compositeInsert type => [.composite type, type.laneType, .u32]
  | compositeExtract type => [.composite type, .u32]
  | other _ argTypes _ => argTypes

/-- Modelled from the spec: the result type of an opcode (an `Identity` has its argument's). -/
def resultType : Opcode → Ty
  | identity => .ref
  | phi type => type
  | getRegister => .u32
  | getPred => .u1
  | getCbufU32 => .u32
  | getCbufF32 | getAttribute => .f32
  | iAdd32 | iSub32 | iMul32 | shiftLeftLogical32 => .u32
  | iAdd64 => .u64
  | bitFieldUExtract | bitFieldSExtract => .u32
  | bitCastF32U32 => .f32
  | bitCastU32F32 => .u32
  | packHalf2x16 => .u32
  | unpackHalf2x16 => .composite .f32x2
  | select type => type
  | fpMul32 | fpRecip32 => .f32
  | logicalAnd | logicalOr | logicalNot => .u1
  | sLessThan | uLessThan | sLessThanEqual | uLessThanEqual
  | sGreaterThan | uGreaterThan | sGreaterThanEqual | uGreaterThanEqual
  | iEqual | iNotEqual => .u1
  | branchConditional => .void
  | compositeConstruct type | compositeInsert type => .composite type
  | compositeExtract type => type.laneType
  | other _ _ resultType => resultType

end Opcode

/-- Modelled from the spec: how a run of the pass ends without a rewritten program. -/
inductive Exception
  /-- `LogicError("Undefined result in {}({}, {}, {})", op, base, shift, count)`. -/
  | undefinedResult (op : Opcode) (base : Int) (shift count : Nat)
  /-- `LogicError("Reading {} with {}", type, expected)`: a value read as the wrong type. -/
  | badRead (type expected : Ty)
  /-- A walk through `Identity` or insert chains that never ends: the C++ does not return. -/
  | diverges
  deriving DecidableEq, Repr

/-- `Value::U1()` on a value whose `Identity` chain has been followed. -/
def Value.toU1 : Value → Except Exception Bool
  | .imm (.u1 value) => .ok value
  | .imm i => .error (.badRead i.type .u1)
  | .inst _ => .error (.badRead .ref .u1)

/-- `Value::U32()` on a value whose `Identity` chain has been followed. -/
def Value.toU32 : Value → Except Exception (BitVec 32)
  | .imm (.u32 value) => .ok value
  | .imm i => .error (.badRead i.type .u32)
  | .inst _ => .error (.badRead .ref .u32)

/-- `Value::U64()` on a value whose `Identity` chain has been followed. -/
def Value.toU64 : Value → Except Exception (BitVec 64)
  | .imm (.u64 value) => .ok value
  | .imm i => .error (.badRead i.type .u64)
  | .inst _ => .error (.badRead .ref .u64)

/-- `Value::F32()` on a value whose `Identity` chain has been followed (its bit pattern). -/
def Value.toF32 : Value → Except Exception (BitVec 32)
  | .imm (.f32 bits) => .ok bits
  | .imm i => .error (.badRead i.type .f32)
  | .inst _ => .error (.badRead .ref .f32)

/-- `Value::Reg()` on a value whose `Identity` chain has been followed. -/
def Value.toReg : Value → Except Exception Reg
  | .imm (.reg reg) => .ok reg
  | .imm i => .error (.badRead i.type .reg)
  | .inst _ => .error (.badRead .ref .reg)

/-- `Value::Pred()` on a value whose `Identity` chain has been followed. -/
def Value.toPred : Value → Except Exception Pred
  | .imm (.pred pred) => .ok pred
  | .imm i => .error (.badRead i.type .pred)
  | .inst _ => .error (.badRead .ref .pred)

/-- `Value::Attribute()` on a value whose `Identity` chain has been followed. -/
def Value.toAttribute : Value → Except Exception Attribute
  | .imm (.attribute attr) => .ok attr
  | .imm i => .error (.badRead i.type .attribute)
  | .inst _ => .error (.badRead .ref .attribute)

end Shader.IR

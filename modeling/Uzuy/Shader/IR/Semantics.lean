import Uzuy.Shader.IR.Program

/-!
# Meaning of the IR

An execution gives every instruction a runtime value. Rather than running the control-flow
graph, a valuation `ρ` of the instruction handles is taken as given and required to satisfy
each instruction's equation: its value is its opcode applied to the values of its arguments.
Phis are left unconstrained, since their value depends on the incoming edge. Floating-point
values are bit patterns, and the floating-point operations the pass never evaluates are
parameters of the environment.
-/

namespace Shader.IR

/-- Modelled from the spec: a runtime value, a scalar or the lanes of a composite. -/
inductive Datum
  | scalar (imm : Imm)
  | composite (lanes : List Imm)
  deriving DecidableEq, Repr

namespace Datum

/-- The bits of a 32-bit integer value (`0` for a value of another type). -/
def u32 : Datum → BitVec 32
  | scalar (.u32 value) => value
  | _ => 0

/-- The bits of a 64-bit integer value. -/
def u64 : Datum → BitVec 64
  | scalar (.u64 value) => value
  | _ => 0

/-- The bits of a 32-bit float value. -/
def f32 : Datum → BitVec 32
  | scalar (.f32 bits) => bits
  | _ => 0

/-- A boolean value. -/
def u1 : Datum → Bool
  | scalar (.u1 value) => value
  | _ => false

/-- A register operand. -/
def reg : Datum → Reg
  | scalar (.reg reg) => reg
  | _ => ⟨0⟩

/-- A predicate operand. -/
def pred : Datum → Pred
  | scalar (.pred pred) => pred
  | _ => ⟨0⟩

/-- An attribute operand. -/
def attr : Datum → Attribute
  | scalar (.attribute attr) => attr
  | _ => ⟨0⟩

/-- The scalar a lane holds. -/
def lane : Datum → Imm
  | scalar imm => imm
  | composite _ => .void

/-- The lanes of a composite value. -/
def lanes : Datum → List Imm
  | composite lanes => lanes
  | scalar _ => []

@[simp]
theorem u32_scalar (value : BitVec 32) : (scalar (.u32 value)).u32 = value := rfl

@[simp]
theorem u64_scalar (value : BitVec 64) : (scalar (.u64 value)).u64 = value := rfl

@[simp]
theorem u1_scalar (value : Bool) : (scalar (.u1 value)).u1 = value := rfl

@[simp]
theorem f32_scalar (bits : BitVec 32) : (scalar (.f32 bits)).f32 = bits := rfl

@[simp]
theorem reg_scalar (reg : Reg) : (scalar (.reg reg)).reg = reg := rfl

@[simp]
theorem pred_scalar (pred : Pred) : (scalar (.pred pred)).pred = pred := rfl

@[simp]
theorem attr_scalar (attr : Attribute) : (scalar (.attribute attr)).attr = attr := rfl

@[simp]
theorem lane_scalar (imm : Imm) : (scalar imm).lane = imm := rfl

@[simp]
theorem lanes_composite (lanes : List Imm) : (composite lanes).lanes = lanes := rfl

/-- Modelled from the spec: a runtime value has an IR type. -/
def HasType : Datum → Ty → Prop
  | scalar imm, type => imm.type = type
  | composite lanes, .composite type =>
      lanes.length = type.lanes ∧ ∀ imm ∈ lanes, imm.type = type.laneType
  | composite _, _ => False

theorem eq_of_hasType_u32 {datum : Datum} (typed : datum.HasType .u32) :
    datum = scalar (.u32 datum.u32) := by
  cases datum with
  | scalar imm => cases imm <;> simp_all [HasType, Imm.type, u32]
  | composite => simp [HasType] at typed

theorem eq_of_hasType_u64 {datum : Datum} (typed : datum.HasType .u64) :
    datum = scalar (.u64 datum.u64) := by
  cases datum with
  | scalar imm => cases imm <;> simp_all [HasType, Imm.type, u64]
  | composite => simp [HasType] at typed

theorem eq_of_hasType_u1 {datum : Datum} (typed : datum.HasType .u1) :
    datum = scalar (.u1 datum.u1) := by
  cases datum with
  | scalar imm => cases imm <;> simp_all [HasType, Imm.type, u1]
  | composite => simp [HasType] at typed

theorem eq_of_hasType_f32 {datum : Datum} (typed : datum.HasType .f32) :
    datum = scalar (.f32 datum.f32) := by
  cases datum with
  | scalar imm => cases imm <;> simp_all [HasType, Imm.type, f32]
  | composite => simp [HasType] at typed

theorem eq_scalar_of_hasType_laneType {datum : Datum} {type : CompositeType}
    (typed : datum.HasType type.laneType) : datum = scalar datum.lane := by
  cases datum with
  | scalar => rfl
  | composite => cases type <;> simp [HasType, CompositeType.laneType] at typed

theorem eq_composite_of_hasType {datum : Datum} {type : CompositeType}
    (typed : datum.HasType (.composite type)) :
    datum = composite datum.lanes ∧ datum.lanes.length = type.lanes := by
  cases datum with
  | scalar imm => cases imm <;> simp [HasType, Imm.type] at typed
  | composite => exact ⟨rfl, typed.1⟩

end Datum

/-- Modelled from the spec: the execution environment. Register, predicate, attribute and
constant-buffer contents, and the meaning of the operations the pass never evaluates. -/
structure Env where
  /-- Register contents; `RZ` reads zero whatever this says. -/
  reg : Reg → BitVec 32
  /-- Predicate contents; `PT` reads true whatever this says. -/
  pred : Pred → Bool
  /-- Input attribute bits, by attribute and vertex. -/
  attr : Attribute → BitVec 32 → BitVec 32
  /-- Constant-buffer words, by binding and byte offset. -/
  cbuf : BitVec 32 → BitVec 32 → BitVec 32
  /-- `FPMul32` on bit patterns. -/
  fpMul32 : BitVec 32 → BitVec 32 → BitVec 32
  /-- `FPRecip32` on bit patterns. -/
  fpRecip32 : BitVec 32 → BitVec 32
  /-- `PackHalf2x16`. -/
  packHalf2x16 : List Imm → BitVec 32
  /-- `UnpackHalf2x16`. -/
  unpackHalf2x16 : BitVec 32 → List Imm
  /-- The opcodes the pass does not name. -/
  other : Nat → List Datum → Datum

/-- Modelled from the spec: the value an opcode computes from the values of its arguments. A phi
and a branch compute nothing here. Bit-field extracts are exact: the `count`-bit field at
`offset`, zero- or sign-extended. -/
def evalOp (env : Env) (op : Opcode) (arg : Nat → Datum) : Datum :=
  match op with
  | .identity => arg 0
  | .phi _ | .branchConditional => .scalar .void
  | .getRegister =>
      .scalar (.u32 (if (arg 0).reg = Reg.RZ then 0 else env.reg (arg 0).reg))
  | .getPred => .scalar (.u1 (if (arg 0).pred = Pred.PT then true else env.pred (arg 0).pred))
  | .getCbufU32 => .scalar (.u32 (env.cbuf (arg 0).u32 (arg 1).u32))
  | .getCbufF32 => .scalar (.f32 (env.cbuf (arg 0).u32 (arg 1).u32))
  | .getAttribute => .scalar (.f32 (env.attr (arg 0).attr (arg 1).u32))
  | .iAdd32 => .scalar (.u32 ((arg 0).u32 + (arg 1).u32))
  | .iAdd64 => .scalar (.u64 ((arg 0).u64 + (arg 1).u64))
  | .iSub32 => .scalar (.u32 ((arg 0).u32 - (arg 1).u32))
  | .iMul32 => .scalar (.u32 ((arg 0).u32 * (arg 1).u32))
  | .shiftLeftLogical32 => .scalar (.u32 ((arg 0).u32 <<< (arg 1).u32.toNat))
  | .bitFieldUExtract =>
      .scalar (.u32 (BitVec.ofNat 32
        ((arg 0).u32.toNat / 2 ^ (arg 1).u32.toNat % 2 ^ (arg 2).u32.toNat)))
  | .bitFieldSExtract =>
      .scalar (.u32 (((arg 0).u32.extractLsb' (arg 1).u32.toNat (arg 2).u32.toNat).signExtend 32))
  | .bitCastF32U32 => .scalar (.f32 (arg 0).u32)
  | .bitCastU32F32 => .scalar (.u32 (arg 0).f32)
  | .packHalf2x16 => .scalar (.u32 (env.packHalf2x16 (arg 0).lanes))
  | .unpackHalf2x16 => .composite (env.unpackHalf2x16 (arg 0).u32)
  | .select _ => if (arg 0).u1 then arg 1 else arg 2
  | .fpMul32 => .scalar (.f32 (env.fpMul32 (arg 0).f32 (arg 1).f32))
  | .fpRecip32 => .scalar (.f32 (env.fpRecip32 (arg 0).f32))
  | .logicalAnd => .scalar (.u1 ((arg 0).u1 && (arg 1).u1))
  | .logicalOr => .scalar (.u1 ((arg 0).u1 || (arg 1).u1))
  | .logicalNot => .scalar (.u1 !(arg 0).u1)
  | .sLessThan => .scalar (.u1 ((arg 0).u32.slt (arg 1).u32))
  | .uLessThan => .scalar (.u1 ((arg 0).u32.ult (arg 1).u32))
  | .sLessThanEqual => .scalar (.u1 ((arg 0).u32.sle (arg 1).u32))
  | .uLessThanEqual => .scalar (.u1 ((arg 0).u32.ule (arg 1).u32))
  | .sGreaterThan => .scalar (.u1 ((arg 1).u32.slt (arg 0).u32))
  | .uGreaterThan => .scalar (.u1 ((arg 1).u32.ult (arg 0).u32))
  | .sGreaterThanEqual => .scalar (.u1 ((arg 1).u32.sle (arg 0).u32))
  | .uGreaterThanEqual => .scalar (.u1 ((arg 1).u32.ule (arg 0).u32))
  | .iEqual => .scalar (.u1 ((arg 0).u32 == (arg 1).u32))
  | .iNotEqual => .scalar (.u1 ((arg 0).u32 != (arg 1).u32))
  | .compositeConstruct type => .composite ((List.range type.lanes).map fun i => (arg i).lane)
  | .compositeInsert _ => .composite (((arg 0).lanes.set (arg 2).u32.toNat (arg 1).lane))
  | .compositeExtract _ => .scalar ((arg 0).lanes.getD (arg 1).u32.toNat .void)
  | .other code argTypes _ => env.other code ((List.range argTypes.length).map arg)

/-- The value a `Value` denotes under a valuation of the instruction handles. -/
def Value.denote (ρ : Nat → Datum) : Value → Datum
  | .imm i => .scalar i
  | .inst id => ρ id

@[simp]
theorem Value.denote_imm (ρ : Nat → Datum) (imm : Imm) : (Value.imm imm).denote ρ = .scalar imm :=
  rfl

@[simp]
theorem Value.denote_inst (ρ : Nat → Datum) (id : Nat) : (Value.inst id).denote ρ = ρ id := rfl

/-- The type of a value, given the types of the instructions. -/
def Value.typeIn (Γ : Nat → Ty) : Value → Ty
  | .imm i => i.type
  | .inst id => Γ id

namespace Program

/-- The value of an instruction's equation under `ρ`. -/
def eval (p : Program) (env : Env) (ρ : Nat → Datum) (id : Nat) : Datum :=
  evalOp env (p.insts id).op fun index => ((p.insts id).arg index).denote ρ

/-- The equation of instruction `id` holds under `ρ` (a phi has none). -/
def Satisfies (p : Program) (env : Env) (ρ : Nat → Datum) (id : Nat) : Prop :=
  match (p.insts id).op with
  | .phi _ => True
  | _ => ρ id = p.eval env ρ id

/-- `ρ` is a valuation of an execution of `p` in `env`: every equation holds. -/
def Consistent (p : Program) (env : Env) (ρ : Nat → Datum) : Prop :=
  ∀ id, p.Satisfies env ρ id

theorem satisfies_iff {p : Program} {env : Env} {ρ : Nat → Datum} {id : Nat}
    (notPhi : ∀ type, (p.insts id).op ≠ .phi type) :
    p.Satisfies env ρ id ↔ ρ id = p.eval env ρ id := by
  unfold Satisfies
  split
  · rename_i type phi
    exact absurd phi (notPhi type)
  · rfl

/-- In an execution, an instruction other than a phi has the value its opcode computes. -/
theorem Consistent.eq_evalOp {p : Program} {env : Env} {ρ : Nat → Datum}
    (consistent : p.Consistent env ρ) {id : Nat} {op : Opcode} (opcode : (p.insts id).op = op)
    (notPhi : ∀ type, op ≠ .phi type) :
    ρ id = evalOp env op fun index => ((p.insts id).arg index).denote ρ := by
  rw [(satisfies_iff (opcode ▸ notPhi)).mp (consistent id), eval, opcode]

/-- Modelled from the spec: `Γ` types instruction `id`. It has the type `Γ` gives it; an
`Identity` has its argument's type, a phi's arguments have its type, and the arguments of any
other instruction have the types its opcode expects. -/
def TypedAt (p : Program) (Γ : Nat → Ty) (id : Nat) : Prop :=
  match (p.insts id).op with
  | .identity => (p.insts id).args.map (Value.typeIn Γ) = [Γ id]
  | .phi type => Γ id = type ∧ ∀ value ∈ (p.insts id).args, value.typeIn Γ = type
  | op => Γ id = op.resultType ∧ (p.insts id).args.map (Value.typeIn Γ) = op.argTypes

theorem typedAt_iff {p : Program} {Γ : Nat → Ty} {id : Nat}
    (notIdentity : (p.insts id).op ≠ .identity) (notPhi : ∀ type, (p.insts id).op ≠ .phi type) :
    p.TypedAt Γ id ↔ Γ id = (p.insts id).op.resultType ∧
      (p.insts id).args.map (Value.typeIn Γ) = (p.insts id).op.argTypes := by
  unfold TypedAt
  split
  · contradiction
  · rename_i type phi
    exact absurd phi (notPhi type)
  · rfl

/-- Modelled from the spec: the target a `BranchConditional` takes under `ρ`, its second argument
when its condition holds and its third otherwise. -/
def branchTarget (p : Program) (ρ : Nat → Datum) (id : Nat) : Datum :=
  if (((p.insts id).arg 0).denote ρ).u1 then ((p.insts id).arg 1).denote ρ
  else ((p.insts id).arg 2).denote ρ

/-- `Γ` types the program: every instruction. -/
def WellTyped (p : Program) (Γ : Nat → Ty) : Prop :=
  ∀ id, p.TypedAt Γ id

end Program

/-- `ρ` gives every instruction a value of the type `Γ` gives it. -/
def TypedBy (Γ : Nat → Ty) (ρ : Nat → Datum) : Prop :=
  ∀ id, (ρ id).HasType (Γ id)

end Shader.IR

import Uzuy.Shader.Optimization.Preservation
import Mathlib.Data.Fintype.Prod

/-!
# The floating-point folds under the laws they assume

`FoldFPMul32` cancels `x * a * (1 / a)` for two reads of one attribute, and `FoldInverseFunc`
removes an `UnpackHalf2x16` under a `PackHalf2x16` and a `PackHalf2x16` under an
`UnpackHalf2x16`. The semantics leaves floating-point operations to the environment, so none of
these rewrites is justified by it alone; here each is weighed against the law it needs.

The interpolation fold keeps every execution in an environment where a product by a reciprocal
cancels and an attribute reads the same at every vertex, and the packing fold in one where packing
what was unpacked gives the word back. Under these laws the pass preserves the meaning of a
program on every run that avoids the remaining rules the semantics does not justify. Neither of
the other two conditions can be dropped: the interpolation fold compares the attributes of the two
reads but not their vertices, and no environment makes unpacking what was packed exact, since one
word cannot hold every pair of floats.
-/

namespace Shader.IR

/-- The law `FoldFPMul32` assumes: a product multiplied by the reciprocal of its second factor is
its first factor. -/
def Env.CancelsReciprocal (env : Env) : Prop :=
  ∀ a b, env.fpMul32 (env.fpMul32 a b) (env.fpRecip32 b) = a

/-- An attribute reads the same at every vertex, as in a stage that reads one vertex. -/
def Env.OneVertex (env : Env) : Prop :=
  ∀ attr v w, env.attr attr v = env.attr attr w

/-- The law the fold of `PackHalf2x16(UnpackHalf2x16(x))` assumes: packing what was unpacked gives
the word back. -/
def Env.PacksUnpacked (env : Env) : Prop :=
  ∀ bits, env.packHalf2x16 (env.unpackHalf2x16 bits) = bits

/-- `UnpackHalf2x16` gives two floats, a value of its result type. -/
def Env.UnpacksToFloats (env : Env) : Prop :=
  ∀ bits, (Datum.composite (env.unpackHalf2x16 bits)).HasType (.composite .f32x2)

/-- The laws under which the floating-point folds that can be exact are. -/
structure Env.FloatLaws (env : Env) : Prop where
  cancelsReciprocal : env.CancelsReciprocal
  oneVertex : env.OneVertex
  packsUnpacked : env.PacksUnpacked

end Shader.IR

namespace Shader.Optimization

open Shader.IR

variable {p p' : Program} {Γ : Nat → Ty} {D : Dominance} {block inst : Nat}

/-! ## The interpolation fold -/

/-- The instructions `FoldFPMul32` walks from the product at `inst`, with what it checks of each:
the operands resolve to a product `lhsOp` and a reciprocal `rhsOp`, and the reciprocal's operand
and the product's second operand to two reads of one attribute. -/
structure InterpolationMatch (p : Program) (inst : Nat) where
  /-- `lhs_op`, the product `FPMul32(x, attr_b)`. -/
  lhsOp : Nat
  /-- `rhs_op`, the reciprocal `FPRecip32(attr_a)`. -/
  rhsOp : Nat
  /-- `lhs_mul_source`, the resolved second operand of the product. -/
  lhsMulSource : Value
  /-- `attr_a`, the read under the reciprocal. -/
  attrA : Nat
  /-- `attr_b`, the read under the product. -/
  attrB : Nat
  /-- The attribute both read. -/
  attr : Attribute
  lhsOp_resolves : p.resolve ((p.insts inst).arg 0) = .ok (.inst lhsOp)
  rhsOp_resolves : p.resolve ((p.insts inst).arg 1) = .ok (.inst rhsOp)
  lhsOp_op : (p.insts lhsOp).op = .fpMul32
  rhsOp_op : (p.insts rhsOp).op = .fpRecip32
  lhsMulSource_resolves : p.resolve ((p.insts lhsOp).arg 1) = .ok lhsMulSource
  attrA_resolves : p.resolve ((p.insts rhsOp).arg 0) = .ok (.inst attrA)
  attrB_resolves : p.resolve lhsMulSource = .ok (.inst attrB)
  attrA_op : (p.insts attrA).op = .getAttribute
  attrB_op : (p.insts attrB).op = .getAttribute
  attrA_reads : p.attr ((p.insts attrA).arg 0) = .ok attr
  attrB_reads : p.attr ((p.insts attrB).arg 0) = .ok attr

/-- `FoldFPMul32` leaves the program, or finds the interpolation idiom and replaces the product
by the first factor of `lhs_op`. -/
theorem foldFPMul32_matches : ∀ p', foldFPMul32 p inst = .ok p' → p' = p ∨
    ∃ m : InterpolationMatch p inst, p' = p.replaceUsesWith inst ((p.insts m.lhsOp).arg 0) := by
  unfold foldFPMul32
  refine forall_ok_ite (forall_ok_pure (.inl rfl)) ?_
  refine forall_ok_bind fun _ => forall_ok_ite (forall_ok_pure (.inl rfl)) ?_
  refine forall_ok_bind fun _ => forall_ok_ite (forall_ok_pure (.inl rfl)) ?_
  refine forall_ok_bind_with fun lhsOp lhs => forall_ok_bind_with fun rhsOp rhs => ?_
  refine forall_ok_ite_with (fun _ => forall_ok_pure (.inl rfl)) fun areOps => ?_
  refine forall_ok_bind_with fun lhsMulSource source => ?_
  refine forall_ok_bind fun _ => forall_ok_ite (forall_ok_pure (.inl rfl)) ?_
  refine forall_ok_bind fun _ => forall_ok_ite (forall_ok_pure (.inl rfl)) ?_
  refine forall_ok_bind_with fun attrA aRes => forall_ok_bind_with fun attrB bRes => ?_
  refine forall_ok_ite_with (fun _ => forall_ok_pure (.inl rfl)) fun areReads => ?_
  refine forall_ok_bind_with fun a aReads => forall_ok_bind_with fun b bReads => ?_
  simp only [not_or, not_not, ne_eq] at areOps areReads
  refine forall_ok_ite_with (fun same => forall_ok_pure (.inr ⟨⟨lhsOp, rhsOp, lhsMulSource,
    attrA, attrB, a, Program.instRecursive_eq_ok.mp lhs, Program.instRecursive_eq_ok.mp rhs,
    areOps.1, areOps.2, source, Program.instRecursive_eq_ok.mp aRes,
    Program.instRecursive_eq_ok.mp bRes, areReads.1, areReads.2, aReads, same ▸ bReads⟩, rfl⟩))
    fun _ => forall_ok_pure (.inl rfl)

section Laws

variable {env : Env} {ρ : Nat → Datum}

/-- Where attributes read the same at every vertex, a value that resolves to a read of `attr`
has the attribute's value. -/
theorem denote_of_getAttribute (consistent : p.Consistent env ρ) (oneVertex : env.OneVertex)
    {value : Value} {read : Nat} {attr : Attribute} (resolves : p.resolve value = .ok (.inst read))
    (isRead : (p.insts read).op = .getAttribute)
    (reads : p.attr ((p.insts read).arg 0) = .ok attr) :
    value.denote ρ = .scalar (.f32 (env.attr attr 0)) := by
  rw [resolve_denote consistent resolves, Value.denote_inst, consistent.eq_evalOp isRead (by simp)]
  simp only [evalOp, Program.denote_of_attr consistent reads, Datum.attr_scalar]
  rw [oneVertex]

/-- `FoldFPMul32` keeps every execution of a well-formed program in an environment where a
product by a reciprocal cancels and attributes read the same at every vertex: the product it
replaces is `x * a * (1 / a)` for the one value `a` both reads take. -/
theorem foldFPMul32_keepsValuationsIn (wf : p.WellFormed Γ D) (cancels : env.CancelsReciprocal)
    (oneVertex : env.OneVertex) (opcode : (p.insts inst).op = .fpMul32)
    (folded : foldFPMul32 p inst = .ok p') (consistent : p.Consistent env ρ)
    (typedBelow : ∀ id < p.count, (ρ id).HasType (Γ id)) : p'.Consistent env ρ := by
  rcases foldFPMul32_matches p' folded with rfl | ⟨m, rfl⟩
  · exact consistent
  refine consistent.replaceUsesWith ?_
  have attrA := denote_of_getAttribute consistent oneVertex m.attrA_resolves m.attrA_op
    m.attrA_reads
  have attrB := (resolve_denote consistent m.lhsMulSource_resolves).trans
    (denote_of_getAttribute consistent oneVertex m.attrB_resolves m.attrB_op m.attrB_reads)
  have x := Datum.eq_of_hasType_f32 (wf.typed.arg_hasType wf.closed typedBelow m.lhsOp_op rfl 0)
  calc ρ inst
      = .scalar (.f32 (env.fpMul32 (env.fpMul32 (((p.insts m.lhsOp).arg 0).denote ρ).f32
          (env.attr m.attr 0)) (env.fpRecip32 (env.attr m.attr 0)))) := by
        rw [consistent.eq_evalOp opcode (by simp)]
        simp only [evalOp, resolve_denote consistent m.lhsOp_resolves,
          resolve_denote consistent m.rhsOp_resolves, Value.denote_inst,
          consistent.eq_evalOp m.lhsOp_op (by simp), consistent.eq_evalOp m.rhsOp_op (by simp),
          attrA, attrB, Datum.f32_scalar]
    _ = ((p.insts m.lhsOp).arg 0).denote ρ := by rw [cancels, ← x]

/-- `FoldInverseFunc` on a `PackHalf2x16` keeps every execution of a well-formed program in an
environment where packing what was unpacked gives the word back. -/
theorem foldInverseFunc_packHalf2x16_keepsValuationsIn (wf : p.WellFormed Γ D)
    (packs : env.PacksUnpacked) (opcode : (p.insts inst).op = .packHalf2x16)
    (folded : foldInverseFunc p inst .unpackHalf2x16 = .ok p') (consistent : p.Consistent env ρ)
    (typedBelow : ∀ id < p.count, (ρ id).HasType (Γ id)) : p'.Consistent env ρ := by
  rcases foldInverseFunc_cases p' folded with rfl | ⟨arg, resolves, isUnpack, rfl⟩
  · exact consistent
  refine consistent.replaceUsesWith ?_
  rw [consistent.eq_evalOp opcode (by simp)]
  simp only [evalOp, resolve_denote consistent resolves, Value.denote_inst,
    consistent.eq_evalOp isUnpack (by simp), Datum.lanes_composite]
  rw [packs]
  exact (Datum.eq_of_hasType_u32 (wf.typed.arg_hasType wf.closed typedBelow isUnpack rfl 0)).symm

end Laws

/-! ## The whole pass under the laws -/

/-- A visit is lawful when it is exact, or when it applies `FoldFPMul32` or the fold of a
`PackHalf2x16`, whose laws an environment may have. -/
def lawfulVisit (p : Program) (block inst : Nat) : Bool :=
  exactVisit p block inst || (p.insts inst).op = .fpMul32 || (p.insts inst).op = .packHalf2x16

/-- Whether every visit a run of `ConstantPropagationPass` on `p` makes is lawful. -/
def lawfulRun (p : Program) : Bool :=
  checkedRun lawfulVisit p

theorem lawfulVisit_extendsUnder {env : Env} (laws : env.FloatLaws) :
    ExtendsUnder env lawfulVisit := by
  intro p p' Γ D block inst wf inArena lawful folded ρ consistent typedBelow
  simp only [lawfulVisit, Bool.or_eq_true, decide_eq_true_eq] at lawful
  rcases lawful with (exact | isMul) | isPack
  · exact constantPropagation_extendsExecutions wf inArena exact folded env ρ consistent
      typedBelow
  · rw [constantPropagation, isMul] at folded
    exact ⟨ρ, fun _ _ => rfl, foldFPMul32_keepsValuationsIn wf laws.cancelsReciprocal
      laws.oneVertex isMul folded consistent typedBelow⟩
  · rw [constantPropagation, isPack] at folded
    exact ⟨ρ, fun _ _ => rfl, foldInverseFunc_packHalf2x16_keepsValuationsIn wf
      laws.packsUnpacked isPack folded consistent typedBelow⟩

/-- In an environment with the floating-point laws, a run of `ConstantPropagationPass` on a
well-formed program whose visits are all lawful preserves the meaning of the program: every
execution in that environment, with the instructions of the arena typed, extends to an execution
of the result that gives every instruction there was its value, and every conditional branch is
still one, taking the same target. -/
theorem constantPropagationPass_preserves_executions_under_floatLaws (wf : p.WellFormed Γ D)
    {env : Env} (laws : env.FloatLaws) (lawful : lawfulRun p = true)
    (passed : constantPropagationPass p = .ok p') :
    ∀ ρ, p.Consistent env ρ → (∀ id < p.count, (ρ id).HasType (Γ id)) →
      ∃ ρ' : Nat → Datum, (∀ id < p.count, ρ' id = ρ id) ∧ p'.Consistent env ρ' ∧
        ∀ id < p.count, (p.insts id).op = .branchConditional →
          (p'.insts id).op = .branchConditional ∧
            p'.branchTarget ρ' id = p.branchTarget ρ id := by
  intro ρ consistent typedBelow
  obtain ⟨ρ', sim⟩ := Simulates.run (lawfulVisit_extendsUnder laws) wf lawful passed consistent
    typedBelow
  exact ⟨ρ', sim.agree, sim.consistent, sim.branches⟩

/-- An environment in which multiplication is exclusive or and the reciprocal of a word is the
word, so that a product by a reciprocal cancels; unpacking puts the word in the first lane and
packing takes it back. `attr` gives the attribute contents. -/
def exclusiveOrEnv (attr : Attribute → BitVec 32 → BitVec 32) : Env where
  reg _ := 0
  pred _ := false
  attr := attr
  cbuf _ _ := 0
  fpMul32 := (· ^^^ ·)
  fpRecip32 := id
  packHalf2x16
    | .f32 bits :: _ => bits
    | _ => 0
  unpackHalf2x16 bits := [.f32 bits, .f32 0]
  other _ _ := .scalar .void

theorem exclusiveOrEnv_cancelsReciprocal (attr : Attribute → BitVec 32 → BitVec 32) :
    (exclusiveOrEnv attr).CancelsReciprocal := fun a b => by
  simp [exclusiveOrEnv, BitVec.xor_assoc]

/-- `%0 = GetAttribute a0, 0`, `%1 = GetAttribute a0, 0`, `%2 = FPMul32 1.0, %0`,
`%3 = FPRecip32 %1`, `%4 = FPMul32 %2, %3`: the constant `1.0` interpolated by an attribute and
divided by it again. -/
def interpolation : Program :=
  .ofInsts
    [{ op := .getAttribute, args := [.imm (.attribute ⟨0⟩), .imm (.u32 0)] },
     { op := .getAttribute, args := [.imm (.attribute ⟨0⟩), .imm (.u32 0)] },
     { op := .fpMul32, args := [.imm (.f32 0x3f800000), .inst 0] },
     { op := .fpRecip32, args := [.inst 1] },
     { op := .fpMul32, args := [.inst 2, .inst 3] }]

/-- The types of `interpolation`'s instructions. -/
def interpolationTypes (id : Nat) : Ty :=
  [.f32, .f32, .f32, .f32, .f32].getD id .void

theorem interpolation_wellFormed : interpolation.WellFormed interpolationTypes .straightLine where
  typed | 0 | 1 | 2 | 3 | 4 | _ + 5 => ⟨rfl, rfl⟩
  closed | 0 | 1 | 2 | 3 | 4 | _ + 5 => by simp [interpolation, Program.ofInsts, Value.RefersBelow]
  dominated
    | 0 | 1 | 2 | 3 | 4 | _ + 5 => by
      simp [interpolation, Program.ofInsts, Value.AvailableAt, Dominance.straightLine]
  extractsInRange
    | 0, _, extract | 1, _, extract | 2, _, extract | 3, _, extract | 4, _, extract
    | _ + 5, _, extract => by simp [interpolation, Program.ofInsts] at extract
  allocated _ _ member := List.mem_range.mp member

/-- What the pass makes of `interpolation`: the quotient an `Identity` of `1.0`. -/
def interpolationFolded : Program :=
  interpolation.replaceUsesWith 4 (.imm (.f32 0x3f800000))

/-- The pass cancels the interpolation, which `exactRun` rejects and `lawfulRun` accepts, and in
an environment with the laws every execution carries over. -/
theorem interpolation_pass_preserves_executions :
    interpolation.WellFormed interpolationTypes .straightLine ∧
      (exclusiveOrEnv fun _ _ => 2).FloatLaws ∧ exactRun interpolation = false ∧
      lawfulRun interpolation = true ∧
      constantPropagationPass interpolation = .ok interpolationFolded ∧
      ∀ ρ, interpolation.Consistent (exclusiveOrEnv fun _ _ => 2) ρ →
        (∀ id < interpolation.count, (ρ id).HasType (interpolationTypes id)) →
        ∃ ρ' : Nat → Datum, (∀ id < interpolation.count, ρ' id = ρ id) ∧
          interpolationFolded.Consistent (exclusiveOrEnv fun _ _ => 2) ρ' ∧
          ∀ id < interpolation.count, (interpolation.insts id).op = .branchConditional →
            (interpolationFolded.insts id).op = .branchConditional ∧
              interpolationFolded.branchTarget ρ' id = interpolation.branchTarget ρ id :=
  have laws : (exclusiveOrEnv fun _ _ => 2).FloatLaws :=
    ⟨exclusiveOrEnv_cancelsReciprocal _, fun _ _ _ => rfl, fun _ => rfl⟩
  ⟨interpolation_wellFormed, laws, rfl, rfl, rfl,
    constantPropagationPass_preserves_executions_under_floatLaws interpolation_wellFormed laws rfl
      rfl⟩

/-! ## The vertex the interpolation fold does not compare -/

/-- `FoldFPMul32` compares the attributes the two reads take but not their vertices: setting the
vertex operand of a read before the fold is setting it after. -/
theorem foldFPMul32_setArg_vertex (opcode : (p.insts inst).op = .fpMul32) {read : Nat}
    (isRead : (p.insts read).op = .getAttribute) (vertex : Value) :
    foldFPMul32 (p.setArg read 1 vertex) inst =
      (fun p' => p'.setArg read 1 vertex) <$> foldFPMul32 p inst := by
  have ne : read ≠ inst := by
    rintro rfl
    simp [opcode] at isRead
  have op : ∀ n, ((p.setArg read 1 vertex).insts n).op = (p.insts n).op := fun n => by
    by_cases here : n = read
    · simp [here, Program.setArg]
    · rw [p.setArg_insts_of_ne 1 vertex here]
  have first : ∀ n, ((p.setArg read 1 vertex).insts n).arg 0 = (p.insts n).arg 0 := fun n => by
    by_cases here : n = read
    · simp only [here, Program.setArg, Program.setInst_insts_self]
      exact Inst.arg_setArg_of_ne _ _ (by decide)
    · rw [p.setArg_insts_of_ne 1 vertex here]
  have resolves : ∀ value, (p.setArg read 1 vertex).resolve value = p.resolve value :=
    Program.resolve_setInst (by rw [isRead]; nofun) (by simp [isRead])
  have isImmediate : ∀ value, (p.setArg read 1 vertex).isImmediate value = p.isImmediate value :=
    fun _ => by simp only [Program.isImmediate, resolves]
  have instRecursive : ∀ value,
      (p.setArg read 1 vertex).instRecursive value = p.instRecursive value :=
    fun _ => by simp only [Program.instRecursive, resolves]
  have attr : ∀ value, (p.setArg read 1 vertex).attr value = p.attr value :=
    fun _ => by simp only [Program.attr, resolves]
  unfold foldFPMul32
  simp only [p.setArg_insts_of_ne 1 vertex ne.symm, op, first, resolves, isImmediate,
    instRecursive, attr, map_bind, map_pure, p.setArg_replaceUsesWith_of_ne ne,
    apply_ite (Functor.map fun p' : Program => p'.setArg read 1 vertex)]
  -- What is left is the second operand of `lhs_op`, read once `lhs_op` is known to be a product,
  -- which no read is.
  refine ite_congr rfl (fun _ => rfl) fun _ => bind_congr fun _ => ite_congr rfl (fun _ => rfl)
    fun _ => bind_congr fun _ => ite_congr rfl (fun _ => rfl) fun _ => bind_congr fun lhsOp =>
    bind_congr fun _ => ite_congr rfl (fun _ => rfl) fun areOps => ?_
  rw [p.setArg_insts_of_ne 1 vertex (by rintro rfl; simp [isRead] at areOps)]

/-- The two reads of `interpolation` at two vertices: the second reads vertex `1`. -/
def twoVertexInterpolation : Program :=
  interpolation.setArg 1 1 (.imm (.u32 1))

/-- At two vertices the fold still fires. In the exclusive-or environment whose attribute reads
`v + 1` at vertex `v`, where a product by a reciprocal cancels, the program has an execution, and
the folded program has none that keeps the values of the arena. -/
theorem twoVertexInterpolation_loses_execution :
    foldFPMul32 twoVertexInterpolation 4 = .ok (interpolationFolded.setArg 1 1 (.imm (.u32 1))) ∧
      (exclusiveOrEnv fun _ vertex => vertex + 1).CancelsReciprocal ∧
      ∃ ρ, twoVertexInterpolation.Consistent (exclusiveOrEnv fun _ vertex => vertex + 1) ρ ∧
        ∀ ρ', (∀ id < twoVertexInterpolation.count, ρ' id = ρ id) →
          ¬(interpolationFolded.setArg 1 1 (.imm (.u32 1))).Consistent
            (exclusiveOrEnv fun _ vertex => vertex + 1) ρ' := by
  refine ⟨by rw [twoVertexInterpolation, foldFPMul32_setArg_vertex rfl rfl]; rfl,
    exclusiveOrEnv_cancelsReciprocal _,
    fun id => [.scalar (.f32 1), .scalar (.f32 2), .scalar (.f32 0x3f800001), .scalar (.f32 2),
      .scalar (.f32 0x3f800003)].getD id (.scalar .void), ?_, fun ρ' agree => ?_⟩
  · intro id
    match id with
    | 0 | 1 | 2 | 3 | 4 | _ + 5 => rfl
  · rw [interpolationFolded, interpolation.setArg_replaceUsesWith_of_ne (show 1 ≠ 4 by decide)]
    exact Program.not_consistent_replaceUsesWith trivial (by decide) (by decide) agree

/-! ## Unpacking what was packed -/

/-- `UnpackHalf2x16` does not undo `PackHalf2x16` on every pair of floats: two pairs pack to one
word, and at most one of them unpacks to itself. -/
theorem exists_unpackHalf2x16_packHalf2x16_ne (pack : List Imm → BitVec 32)
    (unpack : BitVec 32 → List Imm) :
    ∃ a b : BitVec 32, unpack (pack [.f32 a, .f32 b]) ≠ [.f32 a, .f32 b] := by
  let word : Fin (2 ^ 32) × Fin 2 → Fin (2 ^ 32) := fun pair =>
    (pack [.f32 (.ofFin pair.1), .f32 (.ofFin (pair.2.castLE (by decide)))]).toFin
  obtain ⟨x, y, distinct, collide⟩ := Fintype.exists_ne_map_eq_of_card_lt word (by
    rw [Fintype.card_prod, Fintype.card_fin, Fintype.card_fin]; omega)
  by_contra! undoes
  apply distinct
  have same := congrArg unpack (BitVec.eq_of_toFin_eq collide)
  rw [undoes, undoes] at same
  simp only [List.cons.injEq, Imm.f32.injEq, BitVec.ofFin.injEq, Fin.castLE_inj, and_true] at same
  exact Prod.ext same.1 same.2

/-- `%0 = GetAttribute a0, 0`, `%1 = GetAttribute a1, 0`, `%2 = CompositeConstructF32x2 %0, %1`,
`%3 = PackHalf2x16 %2`, `%4 = UnpackHalf2x16 %3`: a pair of attributes packed to halves and
unpacked again. -/
def halfRoundTrip : Program :=
  .ofInsts
    [{ op := .getAttribute, args := [.imm (.attribute ⟨0⟩), .imm (.u32 0)] },
     { op := .getAttribute, args := [.imm (.attribute ⟨1⟩), .imm (.u32 0)] },
     { op := .compositeConstruct .f32x2, args := [.inst 0, .inst 1] },
     { op := .packHalf2x16, args := [.inst 2] },
     { op := .unpackHalf2x16, args := [.inst 3] }]

/-- The types of `halfRoundTrip`'s instructions. -/
def halfRoundTripTypes (id : Nat) : Ty :=
  [.f32, .f32, .composite .f32x2, .u32, .composite .f32x2].getD id .void

theorem halfRoundTrip_wellFormed : halfRoundTrip.WellFormed halfRoundTripTypes .straightLine where
  typed | 0 | 1 | 2 | 3 | 4 | _ + 5 => ⟨rfl, rfl⟩
  closed | 0 | 1 | 2 | 3 | 4 | _ + 5 => by simp [halfRoundTrip, Program.ofInsts, Value.RefersBelow]
  dominated
    | 0 | 1 | 2 | 3 | 4 | _ + 5 => by
      simp [halfRoundTrip, Program.ofInsts, Value.AvailableAt, Dominance.straightLine]
  extractsInRange
    | 0, _, extract | 1, _, extract | 2, _, extract | 3, _, extract | 4, _, extract
    | _ + 5, _, extract => by simp [halfRoundTrip, Program.ofInsts] at extract
  allocated _ _ member := List.mem_range.mp member

/-- What the pass makes of `halfRoundTrip`: the unpack an `Identity` of the pair. -/
def halfRoundTripFolded : Program :=
  halfRoundTrip.replaceUsesWith 4 (.inst 2)

/-- No environment makes the fold of `UnpackHalf2x16(PackHalf2x16(v))` into `v` exact. The pass
folds the unpack of the well-formed `halfRoundTrip` into the pair it packed. Whatever
`PackHalf2x16` and `UnpackHalf2x16` are, as long as unpacking gives two floats, some attribute
contents give the program a typed execution that the folded program has no extension of. -/
theorem unpackHalf2x16_fold_loses_execution {env : Env} (unpacks : env.UnpacksToFloats) :
    halfRoundTrip.WellFormed halfRoundTripTypes .straightLine ∧
      constantPropagationPass halfRoundTrip = .ok halfRoundTripFolded ∧
      ∃ (attr : Attribute → BitVec 32 → BitVec 32) (ρ : Nat → Datum),
        halfRoundTrip.Consistent { env with attr } ρ ∧
        (∀ id < halfRoundTrip.count, (ρ id).HasType (halfRoundTripTypes id)) ∧
        ∀ ρ', (∀ id < halfRoundTrip.count, ρ' id = ρ id) →
          ¬halfRoundTripFolded.Consistent { env with attr } ρ' := by
  obtain ⟨a, b, returns⟩ :=
    exists_unpackHalf2x16_packHalf2x16_ne env.packHalf2x16 env.unpackHalf2x16
  let pair : List Imm := [.f32 a, .f32 b]
  refine ⟨halfRoundTrip_wellFormed, rfl, fun attr _ => if attr = ⟨0⟩ then a else b,
    fun id => [.scalar (.f32 a), .scalar (.f32 b), .composite pair,
      .scalar (.u32 (env.packHalf2x16 pair)),
      .composite (env.unpackHalf2x16 (env.packHalf2x16 pair))].getD id (env.other 0 []),
    ?_, ?_, fun ρ' agree => ?_⟩
  · intro id
    match id with
    | 0 | 1 | 2 | 3 | 4 | _ + 5 => rfl
  · intro id below
    match id, below with
    | 0, _ | 1, _ | 3, _ => rfl
    | 2, _ => exact ⟨rfl, by simp [pair, Imm.type, CompositeType.laneType]⟩
    | 4, _ => exact unpacks _
    | _ + 5, below => simp [halfRoundTrip, Program.ofInsts] at below
  · exact Program.not_consistent_replaceUsesWith (show 2 < halfRoundTrip.count by decide)
      (by decide) (fun same => returns (Datum.composite.inj same)) agree

/-- In the exclusive-or environment, whose unpacking gives two floats, the fold of the unpack loses
an execution. -/
theorem exclusiveOrEnv_unpack_fold_loses_execution :
    (exclusiveOrEnv fun _ _ => 0).UnpacksToFloats ∧
      halfRoundTrip.WellFormed halfRoundTripTypes .straightLine ∧
      constantPropagationPass halfRoundTrip = .ok halfRoundTripFolded ∧
      ∃ (attr : Attribute → BitVec 32 → BitVec 32) (ρ : Nat → Datum),
        halfRoundTrip.Consistent { exclusiveOrEnv fun _ _ => 0 with attr } ρ ∧
        (∀ id < halfRoundTrip.count, (ρ id).HasType (halfRoundTripTypes id)) ∧
        ∀ ρ', (∀ id < halfRoundTrip.count, ρ' id = ρ id) →
          ¬halfRoundTripFolded.Consistent { exclusiveOrEnv fun _ _ => 0 with attr } ρ' :=
  have unpacks : (exclusiveOrEnv fun _ _ => 0).UnpacksToFloats := fun _ =>
    ⟨rfl, by simp [exclusiveOrEnv, Imm.type, CompositeType.laneType]⟩
  ⟨unpacks, unpackHalf2x16_fold_loses_execution unpacks⟩

end Shader.Optimization

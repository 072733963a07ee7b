import Uzuy.Shader.Optimization.Invariant
import Uzuy.Shader.Optimization.Locality

/-!
# The whole pass keeps programs well formed

A run of the pass keeps a program well formed, under the same types and the same dominance for
the instructions it had. The only instructions it adds are the products of the XMAD fold, each
emitted right before the add it replaces: under a dominance that orders every block, the product
is dominated by what dominates the add and dominates the add, which becomes an `Identity` of it,
and the dominance still orders every block. What a fold takes on trust is the lane index of an
extract: an index past the lane count reads an argument slot of the construct that holds `Void`.
-/

namespace Shader.Optimization

open Shader.IR

variable {p p' q q' : Program} {Γ Γq : Nat → Ty} {D Dq : Dominance} {block inst : Nat}

/-! ## One call -/

/-- An `Identity` is left as it is: `ConstantPropagation` has no case for it. -/
theorem constantPropagation_identity (opcode : (p.insts inst).op = .identity) :
    constantPropagation p block inst = .ok p := by
  rw [constantPropagation, opcode]
  rfl

/-- A call of `ConstantPropagation` that emits an instruction is the XMAD fold: the add becomes an
`Identity` of the product, and the program is well formed under the types that give the product
`u32` and the dominance that places it right before the add. -/
theorem constantPropagation_emits (wf : p.WellFormed Γ D) (inArena : inst < p.count)
    (folded : constantPropagation p block inst = .ok p') (grew : p'.count ≠ p.count) :
    p'.WellFormed (Function.update Γ p.count .u32) (D.insertBefore p.count inst) ∧
      (p'.insts inst).op = .identity ∧ (p'.insts inst).args = [.inst p.count] := by
  rcases (constantPropagation_localRewrite inArena folded).layout with ⟨count, -⟩ | ⟨opcode, -⟩
  · exact absurd count grew
  rw [constantPropagation, opcode] at folded
  rcases foldAdd_cases folded with rfl | ⟨notFolded, p₁, step, rest⟩
  · exact absurd rfl grew
  rcases rest with rfl | ⟨rfl, ⟨-, rfl⟩ | ⟨-, matched, product⟩⟩
  · exact absurd step.count_eq grew
  · exact absurd (by simpa using step.count_eq) grew
  cases matched
  · obtain rfl : p' = p₁ := foldXmadMultiply_declined _ product rfl
    exact absurd step.count_eq grew
  obtain ⟨m, rfl⟩ := foldXmadMultiply_eq_ok_true product
  replace step : CommutativeStep CommutativeOp.iAdd32.type CommutativeOp.iAdd32.immFn p inst
    (true, p₁) := step
  rw [← step.count_eq]
  exact ⟨m.wellFormed (step.wellFormed opcode wf) (step.op_eq.trans opcode)
    (step.count_eq ▸ inArena), by simp [Program.replaceUsesWith], by simp [Program.replaceUsesWith]⟩

/-! ## The run -/

/-- What a run of the pass keeps of the well-formed program `p` it started from, in the program
`q` it has reached. -/
structure Placed (p : Program) (Γ : Nat → Ty) (D : Dominance) (q : Program) (Γq : Nat → Ty)
    (Dq : Dominance) : Prop where
  /-- `q` is well formed under the types `Γq` and the dominance `Dq`. -/
  wellFormed : q.WellFormed Γq Dq
  /-- The dominance orders every block. -/
  ordersBlocks : q.OrdersBlocks Dq
  count_le : p.count ≤ q.count
  /-- The instructions of `p` keep their types. -/
  types : ∀ id < p.count, Γq id = Γ id
  /-- The instructions of `p` keep their dominance. -/
  dominance : ∀ a < p.count, ∀ b < p.count, Dq.dominates a b ↔ D.dominates a b
  /-- Every instruction past those of `p` is an `IMul32` typed `u32`, emitted for an add of `p`
  that is now an `Identity` of it; it dominates the add and is dominated by what dominates it. -/
  products : ∀ n, p.count ≤ n → n < q.count → Γq n = .u32 ∧ (q.insts n).op = .iMul32 ∧
    ∃ add < p.count, (q.insts add).op = .identity ∧ (q.insts add).args = [.inst n] ∧
      Dq.dominates n add ∧ ∀ a < p.count, D.dominates a add → Dq.dominates a n

theorem Placed.start (wf : p.WellFormed Γ D) (ordered : p.OrdersBlocks D) :
    Placed p Γ D p Γ D :=
  ⟨wf, ordered, le_rfl, fun _ _ => rfl, fun _ _ _ _ => Iff.rfl,
    fun _ old below => absurd below (Nat.not_lt.mpr old)⟩

/-- A call that rewrites an instruction of `p` other than an `Identity`, and keeps the types and
the dominance of the instructions `q` has, keeps what a run keeps, once what it emits is an
`IMul32` placed right before the visited add. -/
theorem Placed.extend {Γ' : Nat → Ty} {D' : Dominance} (placed : Placed p Γ D q Γq Dq)
    (rewrite : LocalRewrite q block inst q') (old : inst < p.count)
    (notIdentity : (q.insts inst).op ≠ .identity) (wellFormed : q'.WellFormed Γ' D')
    (ordersBlocks : q'.OrdersBlocks D') (count_le : q.count ≤ q'.count)
    (types : ∀ id < q.count, Γ' id = Γq id)
    (dominance : ∀ a < q.count, ∀ b < q.count, D'.dominates a b ↔ Dq.dominates a b)
    (emitted : ∀ n, q.count ≤ n → n < q'.count → Γ' n = .u32 ∧ (q'.insts n).op = .iMul32 ∧
      (q'.insts inst).op = .identity ∧ (q'.insts inst).args = [.inst n] ∧
        D'.dominates n inst ∧ ∀ a < p.count, D.dominates a inst → D'.dominates a n) :
    Placed p Γ D q' Γ' D' := by
  have grown := placed.count_le
  refine ⟨wellFormed, ordersBlocks, grown.trans count_le,
    fun id below => (types id (by omega)).trans (placed.types id below),
    fun a ha b hb => (dominance a (by omega) b (by omega)).trans (placed.dominance a ha b hb),
    fun n fresh below => ?_⟩
  rcases Nat.lt_or_ge n q.count with earlier | latest
  · obtain ⟨typed, op, add, addOld, identity, replaced, dominates, dominated⟩ :=
      placed.products n fresh earlier
    have kept : q'.insts add = q.insts add :=
      rewrite.frame add (by omega) fun same => notIdentity (same ▸ identity)
    exact ⟨(types n earlier).trans typed,
      (congrArg Inst.op (rewrite.frame n earlier (by omega))).trans op, add, addOld,
      kept.symm ▸ identity, kept.symm ▸ replaced, (dominance n earlier add (by omega)).mpr dominates,
      fun a ha dom => (dominance a (by omega) n earlier).mpr (dominated a ha dom)⟩
  · obtain ⟨typed, op, identity, replaced, dominates, dominated⟩ := emitted n latest below
    exact ⟨typed, op, inst, old, identity, replaced, dominates, dominated⟩

/-- One call of `ConstantPropagation` on an allocated instruction keeps what a run keeps. -/
theorem Placed.step (placed : Placed p Γ D q Γq Dq) (inArena : inst < q.count)
    (folded : constantPropagation q block inst = .ok q') : ∃ Γ' D', Placed p Γ D q' Γ' D' := by
  by_cases kept : p.count ≤ inst ∨ (q.insts inst).op = .identity
  · have unchanged : constantPropagation q block inst = .ok q := by
      rcases kept with fresh | identity
      · exact constantPropagation_iMul32 (placed.products inst fresh inArena).2.1
      · exact constantPropagation_identity identity
    obtain rfl := Except.ok.inj (folded.symm.trans unchanged)
    exact ⟨Γq, Dq, placed⟩
  have old : inst < p.count := Nat.lt_of_not_le fun fresh => kept (.inl fresh)
  have notIdentity : (q.insts inst).op ≠ .identity := fun identity => kept (.inr identity)
  have rewrite := constantPropagation_localRewrite inArena folded
  rcases rewrite.layout with ⟨count, blocks⟩ | ⟨-, count, product, args, blocks⟩
  · obtain ⟨-, Γ', D', wf', types, dominance⟩ :=
      constantPropagation_wellFormed placed.wellFormed inArena folded
    refine ⟨Γ', D', placed.extend rewrite old notIdentity wf' (fun n => ?_) count.ge types
      dominance fun n latest below => absurd below (by omega)⟩
    rw [blocks]
    exact placed.ordersBlocks.of_agree placed.wellFormed.allocated dominance n
  obtain ⟨wf', identity, replaced⟩ :=
    constantPropagation_emits placed.wellFormed inArena folded (by omega)
  refine ⟨_, _, placed.extend rewrite old notIdentity wf' (fun n => ?_) (by omega)
    (fun id below => Function.update_noteq (Nat.ne_of_lt below) _ _)
    (fun a ha b hb => Dominance.insertBefore_dominates_iff (Nat.ne_of_lt ha) (Nat.ne_of_lt hb))
    fun n latest below => ?_⟩
  · rw [blocks]
    exact placed.ordersBlocks.prependNewInst placed.wellFormed.allocated block inst .iMul32 args n
  obtain rfl : n = q.count := by omega
  have grown := placed.count_le
  exact ⟨Function.update_same _ _ _, product, identity, replaced,
    Or.inr (Or.inr ⟨rfl, by omega, .inl rfl⟩),
    fun a ha dom => Or.inr (Or.inl ⟨by omega, rfl, (placed.dominance a ha inst old).mpr dom⟩)⟩

/-- `%0 = CompositeConstructF32x2 #1.0, #2.0`, `%1 = CompositeExtractF32x2 %0, #index`,
`%2 = FPRecip32 %1`. -/
def extractLane (index : BitVec 32) : Program :=
  .ofInsts
    [{ op := .compositeConstruct .f32x2, args := [.imm (.f32 0x3F800000), .imm (.f32 0x40000000)] },
     { op := .compositeExtract .f32x2, args := [.inst 0, .imm (.u32 index)] },
     { op := .fpRecip32, args := [.inst 1] }]

/-- The types of `extractLane`'s instructions. -/
def extractLaneTypes (id : Nat) : Ty :=
  [.composite .f32x2, .f32, .f32].getD id .void

theorem extractLane_wellTyped (index : BitVec 32) : (extractLane index).WellTyped extractLaneTypes
  | 0 | 1 | 2 | _ + 3 => ⟨rfl, rfl⟩

theorem extractLane_closed (index : BitVec 32) : (extractLane index).Closed
  | 0 | 1 | 2 | _ + 3 => by simp [extractLane, Program.ofInsts, Value.RefersBelow]

theorem extractLane_dominated (index : BitVec 32) : (extractLane index).Dominated .straightLine
  | 0 | 1 | 2 | _ + 3 => by
    simp [extractLane, Program.ofInsts, Value.AvailableAt, Dominance.straightLine]

theorem extractLane_allocated (index : BitVec 32) : (extractLane index).Allocated :=
  fun _ _ member => List.mem_range.mp member

theorem extractLane_one_extractsInRange : (extractLane 1).ExtractsInRange
  | 1, _, rfl => ⟨1, rfl, by decide⟩
  | 0, _, extract | 2, _, extract | _ + 3, _, extract => by
    simp [extractLane, Program.ofInsts] at extract

end Shader.Optimization

import Uzuy.Shader.Optimization.Soundness

/-!
# The pass preserves the meaning of a program

A run of `ConstantPropagationPass` is exact when none of the rules the semantics does not justify
replaces an instruction. On a well-formed program every visit of an exact run extends each
execution, keeps the program well formed and keeps the target of every branch, and the two loops
of the pass carry this along: the result has an execution that gives every instruction there was
its value, and every branch goes where it went.
-/

namespace Shader.Optimization

open Shader.IR

variable {p p' : Program} {Γ : Nat → Ty} {D : Dominance} {block inst : Nat}

/-! ## One visit -/

/-- The rules whose result the semantics does not justify, by the instruction they fire on: the
cancellation of `FoldISub32` after it swapped its operands, the extract of a whole word and the
extract of no bits, whose full-width shifts wrap, and the floating-point folds, which assume laws
the environment's `FPMul32`, `PackHalf2x16` and `UnpackHalf2x16` need not have. -/
def inexactRule (p : Program) (inst : Nat) : Bool :=
  match (p.insts inst).op with
  | .iSub32 =>
      match p.resolve ((p.insts inst).arg 1) with
      | .ok (.inst add) => (p.insts add).op = .iAdd32
      | _ => false
  | .bitFieldUExtract =>
      match p.u32 ((p.insts inst).arg 2) with
      | .ok count => count = 32
      | .error _ => false
  | .bitFieldSExtract =>
      match p.u32 ((p.insts inst).arg 2) with
      | .ok count => count = 0
      | .error _ => false
  | .fpMul32 | .packHalf2x16 | .unpackHalf2x16 => true
  | _ => false

/-- A visit is exact when no such rule replaces the instruction. -/
def exactVisit (p : Program) (block inst : Nat) : Bool :=
  !inexactRule p inst || match constantPropagation p block inst with
    | .ok p' => (p'.insts inst).op ≠ .identity
    | .error _ => true

/-- `ConstantPropagation` extends every execution of a well-formed program on an exact visit. -/
theorem constantPropagation_extendsExecutions (wf : p.WellFormed Γ D) (inArena : inst < p.count)
    (exact : exactVisit p block inst = true) (folded : constantPropagation p block inst = .ok p') :
    p.ExtendsExecutions Γ p' := by
  have kept : inexactRule p inst = true → (p'.insts inst).op ≠ .identity := fun inexact => by
    simpa [exactVisit, inexact, folded] using exact
  have comparison : ∀ {op : Opcode} {fn : BitVec 32 → BitVec 32 → Imm},
      foldBinary32 p inst fn = .ok p' → (p.insts inst).op = op → (∀ type, op ≠ .phi type) →
      (∀ env arg, evalOp env op arg = .scalar (fn (arg 0).u32 (arg 1).u32)) →
      p.ExtendsExecutions Γ p' := fun folded opcode notPhi computes =>
    (foldBinary32_keepsValuations opcode notPhi computes folded).extendsExecutions
  rw [constantPropagation] at folded
  cases opcode : (p.insts inst).op <;> rw [opcode] at folded <;>
    simp only [inexactRule, opcode] at kept
  case getRegister => exact (foldGetRegister_keepsValuations opcode p' folded).extendsExecutions
  case getPred => exact (foldGetPred_keepsValuations opcode p' folded).extendsExecutions
  case iAdd32 =>
    exact foldAdd_extendsExecutions .iAdd32 (fun _ _ => rfl) BitVec.add_zero (fun _ => rfl) wf
      opcode inArena folded
  case iAdd64 =>
    exact foldAdd_extendsExecutions .iAdd64 (fun _ _ => rfl) BitVec.add_zero
      (fun u32 => absurd u32 Bool.false_ne_true) wf opcode inArena folded
  case iSub32 =>
    refine (foldISub32_keepsValuations wf opcode (fun ⟨add, resolves, isAdd⟩ => kept ?_)
      folded).extendsExecutions
    simp [resolves, isAdd]
  case bitCastF32U32 =>
    refine (foldBitCast_keepsValuations wf opcode (by rfl) (by rfl)
      (fun imm casts env ρ consistent => ?_) (fun _ _ _ typed same => ?_) folded).extendsExecutions
    · obtain ⟨a, reads, rfl⟩ := map_eq_ok.mp casts
      simp [Program.eval, opcode, evalOp, Program.denote_of_u32 consistent reads]
    · simp only [evalOp, same, Datum.f32_scalar, Datum.u32_scalar]
      exact (Datum.eq_of_hasType_f32 typed).symm
  case bitCastU32F32 =>
    refine (foldBitCast_keepsValuations wf opcode (by rfl) (by rfl)
      (fun imm casts env ρ consistent => ?_) (fun _ _ _ typed same => ?_) folded).extendsExecutions
    · obtain ⟨a, reads, rfl⟩ := map_eq_ok.mp casts
      simp [Program.eval, opcode, evalOp, Program.denote_of_f32 consistent reads]
    · simp only [evalOp, same, Datum.f32_scalar, Datum.u32_scalar]
      exact (Datum.eq_of_hasType_u32 typed).symm
  case packHalf2x16 | unpackHalf2x16 =>
    exact (foldInverseFunc_keepsValuations (kept trivial) folded).extendsExecutions
  case select => exact (foldSelect_keepsValuations opcode p' folded).extendsExecutions
  case fpMul32 => exact (foldFPMul32_keepsValuations (kept trivial) folded).extendsExecutions
  case logicalAnd => exact (foldLogicalAnd_keepsValuations wf opcode folded).extendsExecutions
  case logicalOr => exact (foldLogicalOr_keepsValuations wf opcode folded).extendsExecutions
  case logicalNot => exact (foldLogicalNot_keepsValuations wf opcode p' folded).extendsExecutions
  case sLessThan | uLessThan | sLessThanEqual | uLessThanEqual | sGreaterThan | uGreaterThan
      | sGreaterThanEqual | uGreaterThanEqual | iEqual | iNotEqual =>
    exact comparison folded opcode (by simp) fun _ _ => rfl
  case bitFieldUExtract =>
    exact (foldBitFieldUExtract_keepsValuations opcode (fun reads => kept (by simp [reads]))
      folded).extendsExecutions
  case bitFieldSExtract =>
    exact (foldBitFieldSExtract_keepsValuations opcode (fun reads => kept (by simp [reads]))
      folded).extendsExecutions
  case branchConditional =>
    exact (foldBranchConditional_keepsValuations wf opcode folded).extendsExecutions
  case compositeExtract =>
    exact (foldCompositeExtract_keepsValuations wf opcode folded).extendsExecutions
  all_goals
    obtain rfl := pure_eq_ok.mp folded
    exact (Program.KeepsValuations.refl Γ _).extendsExecutions

section Branch

variable {q : Program} {env : Env} {ρ σ : Nat → Datum}

/-- A branch takes the target its operands give it. -/
theorem branchTarget_congr {id : Nat} (same : q.insts id = p.insts id)
    (args : ∀ index, ((p.insts id).arg index).denote σ = ((p.insts id).arg index).denote ρ) :
    q.branchTarget σ id = p.branchTarget ρ id := by
  simp only [Program.branchTarget, same, args]

/-- `ConstantPropagation` keeps every branch a branch, taking the same target in an execution
extended from one of the program: the visited branch may lose a negation of its condition, and
then its targets are swapped. -/
theorem constantPropagation_branchTarget (wf : p.WellFormed Γ D) (inArena : inst < p.count)
    (folded : constantPropagation p block inst = .ok p') (consistent : p.Consistent env ρ)
    (agree : ∀ id < p.count, σ id = ρ id) {id : Nat} (below : id < p.count)
    (isBranch : (p.insts id).op = .branchConditional) :
    (p'.insts id).op = .branchConditional ∧ p'.branchTarget σ id = p.branchTarget ρ id := by
  have reads : ∀ value : Value, value.RefersBelow p.count → value.denote σ = value.denote ρ :=
    fun _ => Value.denote_congr_of_refersBelow agree
  by_cases here : id = inst
  swap
  · have same := (constantPropagation_localRewrite inArena folded).frame id below here
    exact ⟨same ▸ isBranch, branchTarget_congr same fun index => reads _ (wf.closed.arg id index)⟩
  subst here
  rw [constantPropagation, isBranch] at folded
  rcases foldBranchConditional_cases p' folded with rfl | ⟨cond, resolves, isNot, rfl⟩
  · exact ⟨isBranch, branchTarget_congr rfl fun index => reads _ (wf.closed.arg id index)⟩
  obtain ⟨_, _, _, triple⟩ := List.length_eq_three.mp (wf.typed.args_length isBranch rfl)
  rw [p.setArg_setArg_setArg_of_triple triple]
  refine ⟨by simp [isBranch], ?_⟩
  rw [Program.branchTarget, Program.setInst_insts_self]
  show (if (((p.insts cond).arg 0).denote σ).u1 then ((p.insts id).arg 2).denote σ
    else ((p.insts id).arg 1).denote σ) = p.branchTarget ρ id
  rw [Program.branchTarget, resolve_denote consistent resolves, Value.denote_inst,
    consistent.eq_evalOp isNot (by simp), reads _ (wf.closed.arg cond 0),
    reads _ (wf.closed.arg id 1), reads _ (wf.closed.arg id 2)]
  cases condition : (((p.insts cond).arg 0).denote ρ).u1 <;> simp [evalOp, condition]

end Branch

/-! ## The whole pass -/

/-- Whether every call a loop of `foldlM` makes passes `check`, which sees the state and the
element of the call. -/
def allCalls {α β ε : Type} (f : β → α → Except ε β) (check : β → α → Bool) : List α → β → Bool
  | [], _ => true
  | a :: l, b => check b a && match f b a with
    | .ok b' => allCalls f check l b'
    | .error _ => true

/-- Whether every visit a run of `ConstantPropagationPass` on `p` makes is exact. -/
def exactRun (p : Program) : Bool :=
  allCalls
    (fun p block => (p.blocks block).foldlM (fun p inst => constantPropagation p block inst) p)
    (fun p block => allCalls (fun p inst => constantPropagation p block inst)
      (fun p inst => exactVisit p block inst) (p.blocks block) p)
    p.postOrderBlocks.reverse p

/-- Whether every visit a run of `ConstantPropagationPass` on `p` makes passes `check`, which sees
the program the visit starts from, the block and the instruction. -/
def checkedRun (check : Program → Nat → Nat → Bool) (p : Program) : Bool :=
  allCalls
    (fun p block => (p.blocks block).foldlM (fun p inst => constantPropagation p block inst) p)
    (fun p block => allCalls (fun p inst => constantPropagation p block inst)
      (fun p inst => check p block inst) (p.blocks block) p)
    p.postOrderBlocks.reverse p

/-- Every visit of a well-formed program that passes `check` extends each execution in `env` in
which the instructions of the arena have their types. -/
def ExtendsUnder (env : Env) (check : Program → Nat → Nat → Bool) : Prop :=
  ∀ {p p' : Program} {Γ : Nat → Ty} {D : Dominance} {block inst : Nat}, p.WellFormed Γ D →
    inst < p.count → check p block inst = true → constantPropagation p block inst = .ok p' →
    ∀ ρ, p.Consistent env ρ → (∀ id < p.count, (ρ id).HasType (Γ id)) →
      ∃ ρ' : Nat → Datum, (∀ id < p.count, ρ' id = ρ id) ∧ p'.Consistent env ρ'

theorem exactVisit_extendsUnder (env : Env) : ExtendsUnder env exactVisit :=
  fun wf inArena exact folded => constantPropagation_extendsExecutions wf inArena exact folded env

/-- An invariant that every checked step keeps, for the members of the list, holds after a loop
whose calls all pass the check. -/
theorem foldlM_invariant_of_allCalls {α β ε : Type} {f : β → α → Except ε β}
    {check : β → α → Bool} {Inv : β → Prop} {l : List α}
    (step : ∀ b, Inv b → ∀ a ∈ l, check b a = true → ∀ b', f b a = .ok b' → Inv b') :
    ∀ b, Inv b → allCalls f check l b = true → ∀ b', l.foldlM f b = .ok b' → Inv b' := by
  induction l with
  | nil => exact fun b holds _ b' done => pure_eq_ok.mp done ▸ holds
  | cons a l ih =>
      intro b holds checked b' done
      obtain ⟨b₁, first, rest⟩ := bind_eq_ok.mp done
      simp only [allCalls, first, Bool.and_eq_true] at checked
      exact ih (fun b h a' mem => step b h a' (List.mem_cons_of_mem _ mem)) b₁
        (step b holds a (List.mem_cons_self _ _) checked.1 b₁ first) checked.2 b' rest

/-- What a run of the pass from `p`, with an execution `ρ`, keeps in the program `q` it has
reached and an execution `σ` of it: `q` is well formed with `σ` typed on its arena, `σ` gives the
instructions of `p` their values, and every branch of `p` is still a branch taking the same
target. -/
structure Simulates (p : Program) (env : Env) (ρ : Nat → Datum) (q : Program) (σ : Nat → Datum) :
    Prop where
  wellFormed : ∃ Γ D, q.WellFormed Γ D ∧ ∀ id < q.count, (σ id).HasType (Γ id)
  consistent : q.Consistent env σ
  grown : p.count ≤ q.count
  agree : ∀ id < p.count, σ id = ρ id
  branches : ∀ id < p.count, (p.insts id).op = .branchConditional →
    (q.insts id).op = .branchConditional ∧ q.branchTarget σ id = p.branchTarget ρ id

namespace Simulates

variable {q q' : Program} {env : Env} {ρ σ : Nat → Datum}

theorem start (wf : p.WellFormed Γ D) (consistent : p.Consistent env ρ)
    (typedBelow : ∀ id < p.count, (ρ id).HasType (Γ id)) : Simulates p env ρ p ρ :=
  ⟨⟨Γ, D, wf, typedBelow⟩, consistent, le_rfl, fun _ _ => rfl, fun _ _ isBranch => ⟨isBranch, rfl⟩⟩

/-- After a local rewrite, an execution that keeps the values of the old arena is typed on the
new one: an instruction the XMAD fold emits is an `IMul32`, whose value is a `u32`. -/
theorem typedBelow_of_localRewrite {Γ' : Nat → Ty} {D' : Dominance} {σ' : Nat → Datum}
    (rewrite : LocalRewrite q block inst q') (wf' : q'.WellFormed Γ' D')
    (consistent' : q'.Consistent env σ') (typedBelow : ∀ id < q.count, (σ' id).HasType (Γ' id)) :
    ∀ id < q'.count, (σ' id).HasType (Γ' id) := by
  intro id below
  by_cases old : id < q.count
  · exact typedBelow id old
  rcases rewrite.layout with ⟨count, -⟩ | ⟨-, count, product, -⟩
  · omega
  obtain rfl : id = q.count := by omega
  rw [consistent'.eq_evalOp product (by simp), wf'.typed.resultType product rfl]
  rfl

variable {check : Program → Nat → Nat → Bool} (sound : ExtendsUnder env check)
include sound

/-- One visit that passes a sound check keeps the simulation. -/
theorem visit (sim : Simulates p env ρ q σ) (inArena : inst < q.count)
    (checked : check q block inst = true) (folded : constantPropagation q block inst = .ok q') :
    ∃ σ', Simulates p env ρ q' σ' := by
  obtain ⟨Γ, D, wf, typedBelow⟩ := sim.wellFormed
  obtain ⟨σ', agree, consistent'⟩ := sound wf inArena checked folded σ sim.consistent typedBelow
  obtain ⟨-, Γ', D', wf', types, -⟩ := constantPropagation_wellFormed wf inArena folded
  have rewrite := constantPropagation_localRewrite inArena folded
  refine ⟨σ', ⟨Γ', D', wf', typedBelow_of_localRewrite rewrite wf' consistent' fun id below => ?_⟩,
    consistent', sim.grown.trans rewrite.count_le,
    fun id below => (agree id (lt_of_lt_of_le below sim.grown)).trans (sim.agree id below),
    fun id below isBranch => ?_⟩
  · rw [agree id below, types id below]
    exact typedBelow id below
  obtain ⟨stillBranch, target⟩ := sim.branches id below isBranch
  obtain ⟨stillBranch', target'⟩ := constantPropagation_branchTarget wf inArena folded
    sim.consistent agree (lt_of_lt_of_le below sim.grown) stillBranch
  exact ⟨stillBranch', target'.trans target⟩

/-- The loop over one block keeps the simulation when each of its visits passes the check. -/
theorem sweep (allocated : ∀ inst ∈ q.blocks block, inst < q.count) :
    ∀ r, (q.count ≤ r.count ∧ ∃ σ, Simulates p env ρ r σ) →
      allCalls (fun p inst => constantPropagation p block inst)
        (fun p inst => check p block inst) (q.blocks block) r = true →
      ∀ r', (q.blocks block).foldlM (fun p inst => constantPropagation p block inst) r = .ok r' →
        q.count ≤ r'.count ∧ ∃ σ', Simulates p env ρ r' σ' :=
  foldlM_invariant_of_allCalls fun _ ⟨grown, _, sim⟩ inst member checked _ folded =>
    have inArena := lt_of_lt_of_le (allocated inst member) grown
    ⟨grown.trans (constantPropagation_localRewrite inArena folded).count_le,
      sim.visit sound inArena checked folded⟩

/-- A run of the pass from a well-formed program whose visits all pass a sound check keeps the
simulation from its start to its end. -/
theorem run (wf : p.WellFormed Γ D) (checked : checkedRun check p = true)
    (passed : constantPropagationPass p = .ok p') (consistent : p.Consistent env ρ)
    (typedBelow : ∀ id < p.count, (ρ id).HasType (Γ id)) : ∃ ρ', Simulates p env ρ p' ρ' := by
  have blocks : ∀ q, (∃ σ, Simulates p env ρ q σ) → ∀ block ∈ p.postOrderBlocks.reverse,
      allCalls (fun p inst => constantPropagation p block inst)
        (fun p inst => check p block inst) (q.blocks block) q = true →
      ∀ q', (q.blocks block).foldlM (fun p inst => constantPropagation p block inst) q = .ok q' →
        ∃ σ', Simulates p env ρ q' σ' := fun q ⟨σ, sim⟩ block _ checked q' swept => by
    obtain ⟨Γ, D, wf, -⟩ := sim.wellFormed
    exact (sweep sound (wf.allocated block) q ⟨le_rfl, σ, sim⟩ checked q' swept).2
  exact foldlM_invariant_of_allCalls blocks p ⟨ρ, .start wf consistent typedBelow⟩ checked p' passed

end Simulates

/-- On a well-formed program, a run of `ConstantPropagationPass` whose visits are all exact
preserves the meaning of the program: every execution of it, with the instructions of the arena
typed, extends to an execution of the result that gives every instruction there was its value,
and every conditional branch is still one, taking the same target. -/
theorem constantPropagationPass_preserves_executions (wf : p.WellFormed Γ D)
    (exact : exactRun p = true) (passed : constantPropagationPass p = .ok p') :
    ∀ env ρ, p.Consistent env ρ → (∀ id < p.count, (ρ id).HasType (Γ id)) →
      ∃ ρ' : Nat → Datum, (∀ id < p.count, ρ' id = ρ id) ∧ p'.Consistent env ρ' ∧
        ∀ id < p.count, (p.insts id).op = .branchConditional →
          (p'.insts id).op = .branchConditional ∧ p'.branchTarget ρ' id = p.branchTarget ρ id := by
  intro env ρ consistent typedBelow
  obtain ⟨ρ', sim⟩ := Simulates.run (exactVisit_extendsUnder env) wf exact passed consistent
    typedBelow
  exact ⟨ρ', sim.agree, sim.consistent, sim.branches⟩

/-- `%0 = GetPred P1`, `%1 = LogicalNot %0`, `%2 = BranchConditional %1, label 1, label 2`. -/
def negatedBranch : Program :=
  .ofInsts
    [{ op := .getPred, args := [.imm (.pred ⟨1⟩)] },
     { op := .logicalNot, args := [.inst 0] },
     { op := .branchConditional, args := [.inst 1, .imm (.label 1), .imm (.label 2)] }]

/-- The types of `negatedBranch`'s instructions. -/
def negatedBranchTypes (id : Nat) : Ty :=
  [.u1, .u1, .void].getD id .void

theorem negatedBranch_wellFormed : negatedBranch.WellFormed negatedBranchTypes .straightLine where
  typed | 0 | 1 | 2 | _ + 3 => ⟨rfl, rfl⟩
  closed | 0 | 1 | 2 | _ + 3 => by simp [negatedBranch, Program.ofInsts, Value.RefersBelow]
  dominated
    | 0 | 1 | 2 | _ + 3 => by
      simp [negatedBranch, Program.ofInsts, Value.AvailableAt, Dominance.straightLine]
  extractsInRange
    | 0, _, extract | 1, _, extract | 2, _, extract | _ + 3, _, extract => by
      simp [negatedBranch, Program.ofInsts] at extract
  allocated _ _ member := List.mem_range.mp member

/-- What the pass makes of `negatedBranch`: `%2 = BranchConditional %0, label 2, label 1`. -/
def negatedBranchFolded : Program :=
  ((negatedBranch.setArg 2 0 (.inst 0)).setArg 2 1 (.imm (.label 2))).setArg 2 2 (.imm (.label 1))

/-- The pass removes the negation and swaps the targets, and the branch goes where it went. -/
theorem negatedBranch_pass_preserves_executions :
    negatedBranch.WellFormed negatedBranchTypes .straightLine ∧ exactRun negatedBranch = true ∧
      constantPropagationPass negatedBranch = .ok negatedBranchFolded ∧
      ∀ env ρ, negatedBranch.Consistent env ρ →
        (∀ id < negatedBranch.count, (ρ id).HasType (negatedBranchTypes id)) →
        ∃ ρ' : Nat → Datum, (∀ id < negatedBranch.count, ρ' id = ρ id) ∧
          negatedBranchFolded.Consistent env ρ' ∧
          ∀ id < negatedBranch.count, (negatedBranch.insts id).op = .branchConditional →
            (negatedBranchFolded.insts id).op = .branchConditional ∧
              negatedBranchFolded.branchTarget ρ' id = negatedBranch.branchTarget ρ id :=
  ⟨negatedBranch_wellFormed, rfl, rfl,
    constantPropagationPass_preserves_executions negatedBranch_wellFormed rfl rfl⟩

end Shader.Optimization

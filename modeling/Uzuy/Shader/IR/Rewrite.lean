import Uzuy.Shader.IR.Resolve

/-!
# What the arena updates keep

A fold changes the program by replacing one instruction (`SetArg`, `ReplaceUsesWith` and
`ReplaceOpcode` all do) and by emitting a new one. Replacing an instruction keeps an execution,
the typing and the closedness of the arena as soon as the new instruction keeps them; emitting
one extends an execution by the new instruction's value.
-/

namespace Shader.IR

theorem Value.denote_hasType {Γ : Nat → Ty} {ρ : Nat → Datum} (typed : TypedBy Γ ρ)
    (value : Value) : (value.denote ρ).HasType (value.typeIn Γ) := by
  cases value with
  | imm imm => exact rfl
  | inst id => exact typed id

/-- A value of an arena whose instructions have their types has its type. -/
theorem Value.denote_hasType_of_refersBelow {Γ : Nat → Ty} {ρ : Nat → Datum} {count : Nat}
    (typed : ∀ id < count, (ρ id).HasType (Γ id)) {value : Value} (below : value.RefersBelow count) :
    (value.denote ρ).HasType (value.typeIn Γ) := by
  cases value with
  | imm imm => exact rfl
  | inst id => exact typed id below

theorem Value.denote_update_of_refersBelow {ρ : Nat → Datum} {count : Nat} {value : Value}
    (below : value.RefersBelow count) (datum : Datum) :
    value.denote (Function.update ρ count datum) = value.denote ρ := by
  cases value with
  | imm => rfl
  | inst id => exact Function.update_noteq (Nat.ne_of_lt below) _ _

/-- A value of an arena reads the same under two valuations that agree on the arena. -/
theorem Value.denote_congr_of_refersBelow {ρ σ : Nat → Datum} {count : Nat}
    (agree : ∀ id < count, σ id = ρ id) {value : Value} (below : value.RefersBelow count) :
    value.denote σ = value.denote ρ := by
  cases value with
  | imm => rfl
  | inst id => exact agree id below

theorem Inst.arg_mem_or_void (inst : Inst) (index : Nat) :
    inst.arg index ∈ inst.args ∨ inst.arg index = .imm .void := by
  rcases Nat.lt_or_ge index inst.args.length with inside | outside
  · rw [Inst.arg, List.getD_eq_getElem _ _ inside]
    exact .inl (List.getElem_mem ..)
  · exact .inr (List.getD_eq_default _ _ outside)

namespace Program

variable {p : Program} {id other : Nat} {inst : Inst}

theorem Closed.arg (closed : p.Closed) (id index : Nat) :
    ((p.insts id).arg index).RefersBelow p.count := by
  rcases (p.insts id).arg_mem_or_void index with member | void
  · exact closed id _ member
  · rw [void]
    trivial

/-- In a closed arena, following `Identity` chains from an allocated instruction stays among the
allocated ones. -/
theorem Closed.resolveWith_refersBelow (closed : p.Closed) {fuel : Nat} {value result : Value}
    (below : value.RefersBelow p.count) (resolved : resolveWith p.insts fuel value = .ok result) :
    result.RefersBelow p.count :=
  resolveWith_of_step (fun id _ _ => closed.arg id 0) below resolved

theorem resolve_setInst (before : (p.insts id).op ≠ .identity) (after : inst.op ≠ .identity)
    (value : Value) : (p.setInst id inst).resolve value = p.resolve value :=
  resolveWith_congr (fun _ ne => setInst_insts_of_ne _ _ ne) before (by simpa using after) _ value

/-! ## Executions -/

/-- `p'` keeps every execution of `p` in which the instructions of the arena have the types `Γ`
gives them: each is an execution of `p'` as it is. -/
def KeepsValuations (Γ : Nat → Ty) (p p' : Program) : Prop :=
  ∀ env ρ, p.Consistent env ρ → (∀ id < p.count, (ρ id).HasType (Γ id)) → p'.Consistent env ρ

theorem KeepsValuations.refl (Γ : Nat → Ty) (p : Program) : p.KeepsValuations Γ p :=
  fun _ _ consistent _ => consistent

theorem KeepsValuations.trans {Γ : Nat → Ty} {q r : Program} (first : p.KeepsValuations Γ q)
    (count : q.count = p.count) (second : q.KeepsValuations Γ r) : p.KeepsValuations Γ r :=
  fun env ρ consistent typedBelow =>
    second env ρ (first env ρ consistent typedBelow) (count ▸ typedBelow)

/-- Every execution of `p` in which the instructions of the arena have their types extends to an
execution of `p'` that gives those instructions the same values. -/
def ExtendsExecutions (Γ : Nat → Ty) (p p' : Program) : Prop :=
  ∀ env ρ, p.Consistent env ρ → (∀ id < p.count, (ρ id).HasType (Γ id)) →
    ∃ ρ' : Nat → Datum, (∀ id < p.count, ρ' id = ρ id) ∧ p'.Consistent env ρ'

theorem KeepsValuations.extendsExecutions {Γ : Nat → Ty} {p' : Program}
    (keeps : p.KeepsValuations Γ p') : p.ExtendsExecutions Γ p' :=
  fun env ρ consistent typedBelow => ⟨ρ, fun _ _ => rfl, keeps env ρ consistent typedBelow⟩

/-- An instruction that is not a phi in `p'` evaluates there to what it did in `p`, in every
execution of `p'` that extends one of `p`. -/
theorem ExtendsExecutions.eval_eq {Γ : Nat → Ty} {p' : Program} {inst : Nat}
    (extended : p.ExtendsExecutions Γ p') (inArena : inst < p.count)
    (notPhi : ∀ type, (p'.insts inst).op ≠ .phi type) :
    ∀ env ρ, p.Consistent env ρ → (∀ id < p.count, (ρ id).HasType (Γ id)) →
      ∃ ρ' : Nat → Datum, (∀ id < p.count, ρ' id = ρ id) ∧ p'.Consistent env ρ' ∧
        p'.eval env ρ' inst = ρ inst := by
  intro env ρ consistent typedBelow
  obtain ⟨ρ', agree, consistent'⟩ := extended env ρ consistent typedBelow
  refine ⟨ρ', agree, consistent', ?_⟩
  rw [← (Program.satisfies_iff notPhi).mp (consistent' inst), agree inst inArena]

section Execution

variable {env : Env} {ρ : Nat → Datum}

theorem satisfies_setInst_of_ne (ne : other ≠ id) :
    (p.setInst id inst).Satisfies env ρ other ↔ p.Satisfies env ρ other := by
  simp only [Satisfies, eval, setInst_insts_of_ne _ _ ne]

/-- Replacing one instruction keeps an execution in which the new instruction's equation holds. -/
theorem Consistent.setInst (consistent : p.Consistent env ρ)
    (satisfied : (p.setInst id inst).Satisfies env ρ id) : (p.setInst id inst).Consistent env ρ := by
  intro other
  by_cases here : other = id
  · exact here ▸ satisfied
  · exact (satisfies_setInst_of_ne here).mpr (consistent other)

theorem Consistent.replaceUsesWith (consistent : p.Consistent env ρ) {value : Value}
    (same : ρ id = value.denote ρ) : (p.replaceUsesWith id value).Consistent env ρ :=
  consistent.setInst (by simpa [Satisfies, eval, evalOp, Inst.arg] using same)

/-- In an execution of the program whose instruction `id` is replaced by `value`, `id` takes the
value of `value`. -/
theorem Consistent.eq_replacement {value : Value}
    (consistent : (p.replaceUsesWith id value).Consistent env ρ) : ρ id = value.denote ρ := by
  rw [consistent.eq_evalOp (show ((p.replaceUsesWith id value).insts id).op = .identity by
    simp [Program.replaceUsesWith]) (by simp)]
  simp [evalOp, Program.replaceUsesWith, Inst.arg]

/-- Replacing an instruction by a value of the arena that differs from it in an execution loses
the execution: no valuation that keeps the values of the arena is one of the result. -/
theorem not_consistent_replaceUsesWith {ρ' : Nat → Datum} {value : Value}
    (below : value.RefersBelow p.count) (inArena : id < p.count) (differs : ρ id ≠ value.denote ρ)
    (agree : ∀ n < p.count, ρ' n = ρ n) : ¬(p.replaceUsesWith id value).Consistent env ρ' :=
  fun consistent => differs <| by
    rw [← agree id inArena, ← Value.denote_congr_of_refersBelow agree below,
      consistent.eq_replacement]

/-- Emitting an instruction whose operands are allocated extends an execution of a closed
program by the value the new instruction computes. -/
theorem Consistent.prependNewInst (consistent : p.Consistent env ρ) (closed : p.Closed)
    (block before : Nat) (op : Opcode) {args : List Value}
    (bounded : ∀ value ∈ args, value.RefersBelow p.count) :
    (p.prependNewInst block before op args).2.Consistent env (Function.update ρ p.count
      (evalOp env op fun index => (args.getD index (.imm .void)).denote ρ)) := by
  have unchanged : ∀ value : Value, value.RefersBelow p.count → ∀ datum,
      value.denote (Function.update ρ p.count datum) = value.denote ρ :=
    fun _ below => Value.denote_update_of_refersBelow below
  intro id
  by_cases fresh : id = p.count
  · subst fresh
    have slot : ∀ index, (args.getD index (.imm .void)).RefersBelow p.count := fun index =>
      (Inst.arg_mem_or_void { op, args } index).elim (bounded _) (fun void => by
        simp only [Inst.arg] at void
        rw [void]
        trivial)
    have emitted := p.prependNewInst_insts_self block before op args
    unfold Satisfies eval
    rw [emitted]
    split
    · trivial
    · simp only [Inst.arg, unchanged _ (slot _), Function.update_same]
  · have equation := consistent id
    simp only [Satisfies, eval, Program.prependNewInst, if_neg fresh, Function.update_noteq fresh,
      unchanged _ (closed.arg id _)] at equation ⊢
    exact equation

end Execution

/-! ## Typing -/

section Typing

variable {Γ : Nat → Ty}

theorem typedAt_setInst_of_ne (ne : other ≠ id) :
    (p.setInst id inst).TypedAt Γ other ↔ p.TypedAt Γ other := by
  simp only [TypedAt, setInst_insts_of_ne _ _ ne]

/-- Replacing one instruction keeps the typing when the new instruction is typed. -/
theorem WellTyped.setInst (typed : p.WellTyped Γ) (typedAt : (p.setInst id inst).TypedAt Γ id) :
    (p.setInst id inst).WellTyped Γ := by
  intro other
  by_cases here : other = id
  · exact here ▸ typedAt
  · exact (typedAt_setInst_of_ne here).mpr (typed other)

theorem WellTyped.replaceUsesWith (typed : p.WellTyped Γ) {value : Value}
    (same : value.typeIn Γ = Γ id) : (p.replaceUsesWith id value).WellTyped Γ :=
  typed.setInst (by simpa [TypedAt] using same)

end Typing

/-! ## Closedness -/

theorem Closed.setInst (closed : p.Closed)
    (bounded : ∀ value ∈ inst.args, value.RefersBelow p.count) : (p.setInst id inst).Closed := by
  intro other
  by_cases here : other = id
  · subst here
    simpa using bounded
  · simpa [setInst_insts_of_ne _ _ here] using closed other

theorem Closed.replaceUsesWith (closed : p.Closed) {value : Value}
    (below : value.RefersBelow p.count) : (p.replaceUsesWith id value).Closed :=
  closed.setInst (by simpa using below)

end Program

end Shader.IR

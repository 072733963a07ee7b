import Uzuy.Shader.Optimization.ConstantPropagation
import Uzuy.Shader.IR.Acyclic

/-!
# Folding composite extracts

`FoldCompositeExtractImpl` walks from an extract's operand through `CompositeInsert`s whose index
is an immediate other than the extracted lane, and stops at the first instruction that decides
the lane: a `CompositeConstruct`, whose argument it returns, or an insert of that lane, whose
object it returns. Any other stop returns nothing. The walk is determined by where it starts, so
a walk that stops passes each instruction at most once and, in a closed arena, takes fewer steps
than there are instructions.

Each recursive call moves to the composite operand of an insert, which the insert depends on. On
a closed program whose uses outside phis are acyclic, as in SSA form, every walk therefore stops
within the arena's bound, and more fuel does not change what it returns.
-/

namespace Shader.Optimization

open Shader.IR

/-! ## One step of the walk -/

section Step

variable {p : Program} {insert construct : Opcode} {i : BitVec 32} {fuel : Nat} {value : Value}
  {id : Nat}

theorem implWith_construct (resolves : p.resolve value = .ok (.inst id))
    (isConstruct : (p.insts id).op = construct) :
    foldCompositeExtractImplWith p insert construct i fuel value =
      .ok (some ((p.insts id).arg i.toNat)) := by
  rw [foldCompositeExtractImplWith]
  simp [Program.instRecursive_eq_ok.mpr resolves, isConstruct]

theorem implWith_imm {imm : Imm} (resolves : p.resolve value = .ok (.imm imm)) :
    foldCompositeExtractImplWith p insert construct i fuel value =
      .error (.badRead imm.type .ref) := by
  rw [foldCompositeExtractImplWith]
  simp [Program.instRecursive, resolves, bind, Except.bind, throw, throwThe, MonadExceptOf.throw]

variable (resolves : p.resolve value = .ok (.inst id)) (notConstruct : (p.insts id).op ≠ construct)
include resolves notConstruct

theorem implWith_other (notInsert : (p.insts id).op ≠ insert) :
    foldCompositeExtractImplWith p insert construct i fuel value = .ok none := by
  rw [foldCompositeExtractImplWith]
  simp [Program.instRecursive_eq_ok.mpr resolves, notConstruct, notInsert]

variable (isInsert : (p.insts id).op = insert)
include isInsert

theorem implWith_index_inst {index : Nat}
    (index_resolves : p.resolve ((p.insts id).arg 2) = .ok (.inst index)) :
    foldCompositeExtractImplWith p insert construct i fuel value = .ok none := by
  rw [foldCompositeExtractImplWith]
  simp [Program.instRecursive_eq_ok.mpr resolves, isInsert, isInsert ▸ notConstruct,
    Program.isImmediate_eq_ok_false.mpr ⟨_, index_resolves⟩]

theorem implWith_index_error {error : Exception}
    (immediate : p.isImmediate ((p.insts id).arg 2) = .ok true)
    (read : p.u32 ((p.insts id).arg 2) = .error error) :
    foldCompositeExtractImplWith p insert construct i fuel value = .error error := by
  rw [foldCompositeExtractImplWith]
  simp [Program.instRecursive_eq_ok.mpr resolves, isInsert, isInsert ▸ notConstruct, immediate,
    read, bind, Except.bind]

theorem implWith_hit (index_resolves : p.resolve ((p.insts id).arg 2) = .ok (.imm (.u32 i))) :
    foldCompositeExtractImplWith p insert construct i fuel value =
      .ok (some ((p.insts id).arg 1)) := by
  rw [foldCompositeExtractImplWith]
  simp [Program.instRecursive_eq_ok.mpr resolves, isInsert, isInsert ▸ notConstruct,
    Program.isImmediate_eq_ok_true.mpr ⟨_, index_resolves⟩, Program.u32_eq_ok.mpr index_resolves]

variable {index : BitVec 32}
  (index_resolves : p.resolve ((p.insts id).arg 2) = .ok (.imm (.u32 index))) (miss : index ≠ i)
include index_resolves miss

theorem implWith_miss_imm {imm : Imm} (composite : p.resolve ((p.insts id).arg 0) = .ok (.imm imm)) :
    foldCompositeExtractImplWith p insert construct i fuel value = .ok none := by
  rw [foldCompositeExtractImplWith]
  simp [Program.instRecursive_eq_ok.mpr resolves, isInsert, isInsert ▸ notConstruct,
    Program.isImmediate_eq_ok_true.mpr ⟨_, index_resolves⟩, Program.u32_eq_ok.mpr index_resolves,
    Ne.symm miss, Program.isImmediate_eq_ok_true.mpr ⟨_, composite⟩]

theorem implWith_miss {next : Nat} (composite : p.resolve ((p.insts id).arg 0) = .ok (.inst next)) :
    foldCompositeExtractImplWith p insert construct i (fuel + 1) value =
      foldCompositeExtractImplWith p insert construct i fuel ((p.insts id).arg 0) := by
  rw [foldCompositeExtractImplWith]
  simp [Program.instRecursive_eq_ok.mpr resolves, isInsert, isInsert ▸ notConstruct,
    Program.isImmediate_eq_ok_true.mpr ⟨_, index_resolves⟩, Program.u32_eq_ok.mpr index_resolves,
    Ne.symm miss, Program.isImmediate_eq_ok_false.mpr ⟨_, composite⟩]

theorem implWith_miss_diverges {next : Nat}
    (composite : p.resolve ((p.insts id).arg 0) = .ok (.inst next)) :
    foldCompositeExtractImplWith p insert construct i 0 value = .error .diverges := by
  rw [foldCompositeExtractImplWith]
  simp [Program.instRecursive_eq_ok.mpr resolves, isInsert, isInsert ▸ notConstruct,
    Program.isImmediate_eq_ok_true.mpr ⟨_, index_resolves⟩, Program.u32_eq_ok.mpr index_resolves,
    Ne.symm miss, Program.isImmediate_eq_ok_false.mpr ⟨_, composite⟩, throw, throwThe,
    MonadExceptOf.throw]

end Step

/-! ## Insert paths -/

/-- `value` leads through the `CompositeInsert`s of type `type` listed in `inserts`, each with
its handle and immediate index, to `next`: the first resolves from `value`, each later one from
the composite operand of the one before, and `next` is the composite operand of the last. -/
inductive InsertPath (p : Program) (type : CompositeType) :
    Value → List (Nat × BitVec 32) → Value → Prop
  | nil (value : Value) : InsertPath p type value [] value
  | cons {value next : Value} {id : Nat} {index : BitVec 32} {inserts : List (Nat × BitVec 32)}
      (resolves : p.resolve value = .ok (.inst id))
      (isInsert : (p.insts id).op = .compositeInsert type)
      (index_resolves : p.resolve ((p.insts id).arg 2) = .ok (.imm (.u32 index)))
      (rest : InsertPath p type ((p.insts id).arg 0) inserts next) :
      InsertPath p type value ((id, index) :: inserts) next

/-- Lane `i` of the composite that the inserts `inserts` build on the construct `construct`: the
object of the nearest insert with index `i`, or else the construct's `i`-th argument. -/
def laneAt (p : Program) (inserts : List (Nat × BitVec 32)) (construct : Nat) (i : BitVec 32) :
    Value :=
  match inserts.find? (fun insert => insert.2 = i) with
  | some (id, _) => (p.insts id).arg 1
  | none => (p.insts construct).arg i.toNat

/-- Nothing continues a walk from `next`: it does not resolve to an insert of type `type` with an
immediate index. -/
def Stops (p : Program) (type : CompositeType) (next : Value) : Prop :=
  ∀ id index, p.resolve next = .ok (.inst id) → (p.insts id).op = .compositeInsert type →
    p.resolve ((p.insts id).arg 2) ≠ .ok (.imm (.u32 index))

/-- The ways the walk stops without deciding the lane: at an insert whose index is not an
immediate, at an immediate composite operand of the last insert passed, or at an instruction that
is neither an insert nor a construct of the type. -/
def Undecided (p : Program) (type : CompositeType) (inserts : List (Nat × BitVec 32))
    (next : Value) : Prop :=
  (∃ id index, p.resolve next = .ok (.inst id) ∧ (p.insts id).op = .compositeInsert type ∧
      p.resolve ((p.insts id).arg 2) = .ok (.inst index)) ∨
    (inserts ≠ [] ∧ ∃ imm, p.resolve next = .ok (.imm imm)) ∨
    (∃ id, p.resolve next = .ok (.inst id) ∧ (p.insts id).op ≠ .compositeInsert type ∧
      (p.insts id).op ≠ .compositeConstruct type)

variable {p : Program} {type : CompositeType} {value next : Value}
  {inserts : List (Nat × BitVec 32)} {i : BitVec 32}

theorem laneAt_nil (construct : Nat) : laneAt p [] construct i = (p.insts construct).arg i.toNat :=
  rfl

theorem laneAt_cons (id construct : Nat) (index : BitVec 32) :
    laneAt p ((id, index) :: inserts) construct i =
      if index = i then (p.insts id).arg 1 else laneAt p inserts construct i := by
  by_cases hit : index = i <;> simp [laneAt, List.find?_cons, hit]

theorem stops_of_construct {construct : Nat} (ends : p.resolve next = .ok (.inst construct))
    (isConstruct : (p.insts construct).op = .compositeConstruct type) : Stops p type next :=
  fun id _ resolves isInsert => by
    obtain rfl : construct = id := Value.inst.inj (Except.ok.inj (ends.symm.trans resolves))
    simp [isConstruct] at isInsert

theorem Undecided.stops (undecided : Undecided p type inserts next) : Stops p type next := by
  intro id index resolves isInsert index_resolves
  rcases undecided with ⟨id', _, resolves', _, index_resolves'⟩ | ⟨-, _, immediate⟩ |
    ⟨id', resolves', notInsert, -⟩
  · obtain rfl : id = id' := Value.inst.inj (Except.ok.inj (resolves.symm.trans resolves'))
    simp [index_resolves] at index_resolves'
  · simp [resolves] at immediate
  · obtain rfl : id = id' := Value.inst.inj (Except.ok.inj (resolves.symm.trans resolves'))
    exact notInsert isInsert

namespace InsertPath

theorem start_cases (path : InsertPath p type value inserts next) :
    inserts = [] ∧ value = next ∨ ∃ id, p.resolve value = .ok (.inst id) := by
  cases path with
  | nil => exact .inl ⟨rfl, rfl⟩
  | cons resolves => exact .inr ⟨_, resolves⟩

theorem suffix {front : List (Nat × BitVec 32)}
    (path : InsertPath p type value (front ++ inserts) next) :
    ∃ start, InsertPath p type start inserts next := by
  induction front generalizing value with
  | nil => exact ⟨value, path⟩
  | cons insert front ih =>
      cases path with
      | cons _ _ _ rest => exact ih rest

/-- The walk is determined by where it starts: two paths from one value that both stop pass the
same inserts. -/
theorem eq_of_stops (path : InsertPath p type value inserts next) (stops : Stops p type next)
    {inserts' : List (Nat × BitVec 32)} {next' : Value}
    (path' : InsertPath p type value inserts' next') (stops' : Stops p type next') :
    inserts = inserts' := by
  induction path generalizing inserts' with
  | nil =>
      cases path' with
      | nil => rfl
      | cons resolves isInsert index_resolves => exact absurd index_resolves (stops _ _ resolves isInsert)
  | cons resolves isInsert index_resolves _ ih =>
      cases path' with
      | nil => exact absurd index_resolves (stops' _ _ resolves isInsert)
      | cons resolves' _ index_resolves' rest' =>
          obtain rfl : _ = _ := Value.inst.inj (Except.ok.inj (resolves.symm.trans resolves'))
          obtain rfl : _ = _ :=
            Imm.u32.inj (Value.imm.inj (Except.ok.inj (index_resolves.symm.trans index_resolves')))
          rw [ih stops rest']

/-- A path that stops passes each instruction at most once. -/
theorem nodup (path : InsertPath p type value inserts next) (stops : Stops p type next) :
    (inserts.map Prod.fst).Nodup := by
  induction path with
  | nil => exact List.nodup_nil
  | @cons value next id index inserts resolves isInsert index_resolves rest ih =>
      refine List.nodup_cons.mpr ⟨fun repeated => ?_, ih stops⟩
      obtain ⟨⟨_, index'⟩, member, rfl⟩ := List.mem_map.mp repeated
      obtain ⟨front, back, rfl⟩ := List.append_of_mem member
      obtain ⟨start, again⟩ := suffix rest
      cases again with
      | cons _ _ _ rest' =>
          have same := congrArg List.length (eq_of_stops rest stops rest' stops)
          simp at same
          omega

/-- In a closed arena, a path from an allocated instruction stays among the allocated ones. -/
theorem lt_count (closed : p.Closed) (below : value.RefersBelow p.count)
    (path : InsertPath p type value inserts next) : ∀ insert ∈ inserts, insert.1 < p.count := by
  induction path with
  | nil => simp
  | cons resolves _ _ _ ih =>
      have here := closed.resolveWith_refersBelow below resolves
      simp only [List.mem_cons, forall_eq_or_imp]
      exact ⟨here, ih (closed.arg _ 0)⟩

/-- In a closed arena, a path that stops from an allocated instruction passes fewer inserts than
there are instructions. -/
theorem length_le (closed : p.Closed) (below : value.RefersBelow p.count)
    (path : InsertPath p type value inserts next) (stops : Stops p type next) :
    inserts.length ≤ p.count := by
  have within : inserts.map Prod.fst ⊆ List.range p.count := fun id member => by
    obtain ⟨insert, inserted, rfl⟩ := List.mem_map.mp member
    exact List.mem_range.mpr (path.lt_count closed below insert inserted)
  simpa using (List.subperm_of_subset (path.nodup stops) within).length_le

/-! ## The walk on a path -/

/-- On a path that ends at a construct of its type, the walk, given fuel for the inserts it
passes, returns the lane the path builds. -/
theorem implWith_of_construct (path : InsertPath p type value inserts next) {construct : Nat}
    (ends : p.resolve next = .ok (.inst construct))
    (isConstruct : (p.insts construct).op = .compositeConstruct type) {fuel : Nat}
    (enough : inserts.length ≤ fuel) :
    foldCompositeExtractImplWith p (.compositeInsert type) (.compositeConstruct type) i fuel value =
      .ok (some (laneAt p inserts construct i)) := by
  induction path generalizing fuel with
  | nil => exact implWith_construct ends isConstruct
  | @cons value next id index inserts resolves isInsert index_resolves rest ih =>
      have notConstruct : (p.insts id).op ≠ .compositeConstruct type := by simp [isInsert]
      rw [laneAt_cons]
      by_cases hit : index = i
      · subst hit
        rw [if_pos rfl]
        exact implWith_hit resolves notConstruct isInsert index_resolves
      rw [if_neg hit]
      obtain ⟨fuel, rfl⟩ : ∃ rest, fuel = rest + 1 :=
        ⟨fuel - 1, by simp only [List.length_cons] at enough; omega⟩
      obtain ⟨composite, composite_resolves⟩ :
          ∃ composite, p.resolve ((p.insts id).arg 0) = .ok (.inst composite) := by
        rcases rest.start_cases with ⟨-, start⟩ | found
        · exact ⟨construct, start ▸ ends⟩
        · exact found
      rw [implWith_miss resolves notConstruct isInsert index_resolves hit composite_resolves]
      exact ih ends (by simpa using enough)

/-- On a path of inserts of other lanes to a stop that does not decide the lane, the walk, given
fuel for the inserts it passes, returns nothing. -/
theorem implWith_of_undecided (path : InsertPath p type value inserts next)
    (misses : ∀ insert ∈ inserts, insert.2 ≠ i) (undecided : Undecided p type inserts next)
    {fuel : Nat} (enough : inserts.length ≤ fuel) :
    foldCompositeExtractImplWith p (.compositeInsert type) (.compositeConstruct type) i fuel value =
      .ok none := by
  induction path generalizing fuel with
  | nil =>
      rcases undecided with ⟨id, _, resolves, isInsert, index_resolves⟩ | ⟨nonempty, -⟩ |
        ⟨id, resolves, notInsert, notConstruct⟩
      · exact implWith_index_inst resolves (by simp [isInsert]) isInsert index_resolves
      · exact absurd rfl nonempty
      · exact implWith_other resolves notConstruct notInsert
  | @cons value next id index inserts resolves isInsert index_resolves rest ih =>
      have notConstruct : (p.insts id).op ≠ .compositeConstruct type := by simp [isInsert]
      have miss : index ≠ i := misses _ (List.mem_cons_self _ _)
      have misses' : ∀ insert ∈ inserts, insert.2 ≠ i :=
        fun insert member => misses insert (List.mem_cons_of_mem _ member)
      obtain ⟨fuel, rfl⟩ : ∃ rest, fuel = rest + 1 :=
        ⟨fuel - 1, by simp only [List.length_cons] at enough; omega⟩
      rcases rest.start_cases with ⟨rfl, rfl⟩ | ⟨composite, composite_resolves⟩
      · rcases undecided with ⟨id', index', resolves', isInsert', index_resolves'⟩ |
          ⟨-, imm, immediate⟩ | ⟨id', resolves', notInsert, notConstruct'⟩
        · rw [implWith_miss resolves notConstruct isInsert index_resolves miss resolves']
          exact ih misses' (.inl ⟨id', index', resolves', isInsert', index_resolves'⟩)
            (Nat.zero_le _)
        · exact implWith_miss_imm resolves notConstruct isInsert index_resolves miss immediate
        · rw [implWith_miss resolves notConstruct isInsert index_resolves miss resolves']
          exact ih misses' (.inr (.inr ⟨id', resolves', notInsert, notConstruct'⟩)) (Nat.zero_le _)
      · rw [implWith_miss resolves notConstruct isInsert index_resolves miss composite_resolves]
        refine ih misses' ?_ (by simpa using enough)
        rcases undecided with blocked | ⟨-, imm, immediate⟩ | other
        · exact .inl blocked
        · refine .inr (.inl ⟨fun empty => ?_, imm, immediate⟩)
          subst empty
          cases rest
          simp [composite_resolves] at immediate
        · exact .inr (.inr other)

end InsertPath

/-! ## Lane values -/

variable {Γ : Nat → Ty} {id : Nat}

/-- A typed insert has a composite of its type and an object of its lane type. -/
theorem insert_operand_types (typed : p.TypedAt Γ id) (isInsert : (p.insts id).op = .compositeInsert type) :
    ((p.insts id).arg 0).typeIn Γ = .composite type ∧ ((p.insts id).arg 1).typeIn Γ = type.laneType := by
  rw [Program.typedAt_iff (by simp [isInsert]) (by simp [isInsert]), isInsert] at typed
  obtain ⟨-, typing⟩ := typed
  change _ = [.composite type, type.laneType, .u32] at typing
  obtain ⟨a, rest, args_eq, a_type, typing⟩ := List.map_eq_cons_iff.mp typing
  obtain ⟨b, _, rfl, b_type, -⟩ := List.map_eq_cons_iff.mp typing
  simp [Inst.arg, args_eq, a_type, b_type]

/-- A typed construct has an argument of its lane type for each lane. -/
theorem construct_operand_type (typed : p.TypedAt Γ id)
    (isConstruct : (p.insts id).op = .compositeConstruct type) {lane : Nat} (below : lane < type.lanes) :
    ((p.insts id).arg lane).typeIn Γ = type.laneType := by
  rw [Program.typedAt_iff (by simp [isConstruct]) (by simp [isConstruct]), isConstruct] at typed
  obtain ⟨-, typing⟩ := typed
  change _ = List.replicate type.lanes type.laneType at typing
  obtain ⟨length, every⟩ := List.eq_replicate_iff.mp typing
  rw [List.length_map] at length
  have inside : lane < (p.insts id).args.length := length ▸ below
  rw [Inst.arg, List.getD_eq_getElem _ _ inside]
  exact every _ (List.mem_map_of_mem _ (List.getElem_mem ..))

/-- In every execution of a typed program, the lane a path builds on a construct is that lane of
the composite the path starts from. -/
theorem laneAt_denote {env : Env} {ρ : Nat → Datum} (typed : p.WellTyped Γ)
    (consistent : p.Consistent env ρ) (typedBy : TypedBy Γ ρ)
    (path : InsertPath p type value inserts next) {construct : Nat}
    (ends : p.resolve next = .ok (.inst construct))
    (isConstruct : (p.insts construct).op = .compositeConstruct type) (lane : i.toNat < type.lanes) :
    (laneAt p inserts construct i).denote ρ = .scalar ((value.denote ρ).lanes.getD i.toNat .void) := by
  induction path with
  | nil =>
      rw [laneAt_nil, resolve_denote consistent ends, Value.denote_inst,
        consistent.eq_evalOp isConstruct (by simp)]
      simp only [evalOp, Datum.lanes_composite, List.getD_eq_getElem?_getD, List.getElem?_map,
        List.getElem?_range lane, Option.map_some', Option.getD_some]
      exact Datum.eq_scalar_of_hasType_laneType (construct_operand_type (typed _) isConstruct lane ▸
        Value.denote_hasType typedBy _)
  | @cons value next id index inserts resolves isInsert index_resolves rest ih =>
      obtain ⟨composite_type, object_type⟩ := insert_operand_types (typed _) isInsert
      obtain ⟨-, length⟩ := Datum.eq_composite_of_hasType (composite_type ▸ Value.denote_hasType typedBy _)
      rw [laneAt_cons, resolve_denote consistent resolves, Value.denote_inst,
        consistent.eq_evalOp isInsert (by simp)]
      simp only [evalOp, Datum.lanes_composite, resolve_denote consistent index_resolves,
        Value.denote_imm, Datum.u32_scalar, List.getD_eq_getElem?_getD, List.getElem?_set]
      by_cases hit : index = i
      · subst hit
        simp only [if_true, length, lane, if_true, Option.getD_some]
        exact Datum.eq_scalar_of_hasType_laneType (object_type ▸ Value.denote_hasType typedBy _)
      · rw [if_neg hit, if_neg (fun same => hit (BitVec.eq_of_toNat_eq same)), ih ends,
          List.getD_eq_getElem?_getD]

/-- `FoldCompositeExtract` on an extract of an instruction by an immediate index replaces the
extract by what the walk returns, if anything. -/
theorem foldCompositeExtract_of_impl {inst : Nat} {construct insert : Opcode} {id : Nat}
    (operand : p.resolve ((p.insts inst).arg 0) = .ok (.inst id))
    (index : p.resolve ((p.insts inst).arg 1) = .ok (.imm (.u32 i))) {result : Option Value}
    (walked : foldCompositeExtractImpl p ((p.insts inst).arg 0) insert construct i = .ok result) :
    foldCompositeExtract p inst construct insert = .ok (result.elim p (p.replaceUsesWith inst)) := by
  cases result <;>
    simp [foldCompositeExtract, Program.isImmediate_eq_ok_false.mpr ⟨_, operand⟩,
      Program.isImmediate_eq_ok_true.mpr ⟨_, index⟩, Program.u32_eq_ok.mpr index, walked]

/-- An extract of lane `i` whose composite operand leads through inserts of its type to `next`.
When `next` is a construct of that type, `FoldCompositeExtractImpl` returns the lane the path
builds, the extract is replaced by it, and in every execution of a typed program it has the
extract's value. When the walk reaches a stop that does not decide lane `i`, it returns nothing
and the extract is left as it was. -/
theorem foldCompositeExtractImpl_insertPath {inst : Nat}
    (opcode : (p.insts inst).op = .compositeExtract type)
    (index : p.resolve ((p.insts inst).arg 1) = .ok (.imm (.u32 i))) (closed : p.Closed)
    (path : InsertPath p type ((p.insts inst).arg 0) inserts next) :
    (∀ construct, p.resolve next = .ok (.inst construct) →
      (p.insts construct).op = .compositeConstruct type →
        foldCompositeExtractImpl p ((p.insts inst).arg 0) (.compositeInsert type)
            (.compositeConstruct type) i = .ok (some (laneAt p inserts construct i)) ∧
          foldCompositeExtract p inst (.compositeConstruct type) (.compositeInsert type) =
            .ok (p.replaceUsesWith inst (laneAt p inserts construct i)) ∧
          ∀ Γ, p.WellTyped Γ → i.toNat < type.lanes → ∀ env ρ, p.Consistent env ρ →
            TypedBy Γ ρ → (laneAt p inserts construct i).denote ρ = ρ inst) ∧
    ((∀ insert ∈ inserts, insert.2 ≠ i) → Undecided p type inserts next →
      foldCompositeExtractImpl p ((p.insts inst).arg 0) (.compositeInsert type)
          (.compositeConstruct type) i = .ok none ∧
        foldCompositeExtract p inst (.compositeConstruct type) (.compositeInsert type) = .ok p) := by
  have below := closed.arg inst 0
  refine ⟨fun construct ends isConstruct => ?_, fun misses undecided => ?_⟩
  · have walked : foldCompositeExtractImpl p ((p.insts inst).arg 0) (.compositeInsert type)
        (.compositeConstruct type) i = .ok (some (laneAt p inserts construct i)) :=
      path.implWith_of_construct ends isConstruct
        (path.length_le closed below (stops_of_construct ends isConstruct))
    obtain ⟨start, operand⟩ : ∃ start, p.resolve ((p.insts inst).arg 0) = .ok (.inst start) := by
      rcases path.start_cases with ⟨-, same⟩ | found
      · exact ⟨construct, same ▸ ends⟩
      · exact found
    refine ⟨walked, foldCompositeExtract_of_impl operand index walked,
      fun Γ typed lane env ρ consistent typedBy => ?_⟩
    rw [laneAt_denote typed consistent typedBy path ends isConstruct lane,
      consistent.eq_evalOp opcode (by simp)]
    simp [evalOp, resolve_denote consistent index]
  · have walked := path.implWith_of_undecided misses undecided
      (path.length_le closed below undecided.stops)
    obtain ⟨start, operand⟩ : ∃ start, p.resolve ((p.insts inst).arg 0) = .ok (.inst start) := by
      rcases path.start_cases with ⟨rfl, same⟩ | found
      · rcases undecided with ⟨id, _, resolves, -⟩ | ⟨nonempty, -⟩ | ⟨id, resolves, -⟩
        · exact ⟨id, same ▸ resolves⟩
        · exact absurd rfl nonempty
        · exact ⟨id, same ▸ resolves⟩
      · exact found
    exact ⟨walked, foldCompositeExtract_of_impl operand index walked⟩

/-- `%0 = CompositeConstructF32x2 #1.0, #2.0`, `%1 = CompositeInsertF32x2 %0, #3.0, #1`,
`%2 = CompositeExtractF32x2 %1, #0`. -/
def insertedPair : Program :=
  .ofInsts
    [{ op := .compositeConstruct .f32x2, args := [.imm (.f32 0x3F800000), .imm (.f32 0x40000000)] },
     { op := .compositeInsert .f32x2, args := [.inst 0, .imm (.f32 0x40400000), .imm (.u32 1)] },
     { op := .compositeExtract .f32x2, args := [.inst 1, .imm (.u32 0)] }]

theorem insertedPair_closed : insertedPair.Closed
  | 0 | 1 | 2 | _ + 3 => by simp [insertedPair, Program.ofInsts, Value.RefersBelow]

theorem insertedPair_dominated : insertedPair.Dominated .straightLine
  | 0 | 1 | 2 | _ + 3 => by
    simp [insertedPair, Program.ofInsts, Value.AvailableAt, Dominance.straightLine]

theorem insertedPair_extracts_construct_lane :
    (insertedPair.insts 2).op = .compositeExtract .f32x2 ∧
      insertedPair.resolve ((insertedPair.insts 2).arg 1) = .ok (.imm (.u32 0)) ∧
      insertedPair.Closed ∧
      InsertPath insertedPair .f32x2 ((insertedPair.insts 2).arg 0) [(1, 1)] (.inst 0) ∧
      (∀ construct, insertedPair.resolve (.inst 0) = .ok (.inst construct) →
        (insertedPair.insts construct).op = .compositeConstruct .f32x2 →
          foldCompositeExtractImpl insertedPair ((insertedPair.insts 2).arg 0)
              (.compositeInsert .f32x2) (.compositeConstruct .f32x2) 0 =
            .ok (some (laneAt insertedPair [(1, 1)] construct 0)) ∧
          foldCompositeExtract insertedPair 2 (.compositeConstruct .f32x2)
              (.compositeInsert .f32x2) =
            .ok (insertedPair.replaceUsesWith 2 (laneAt insertedPair [(1, 1)] construct 0)) ∧
          ∀ Γ, insertedPair.WellTyped Γ → (0 : BitVec 32).toNat < CompositeType.f32x2.lanes →
            ∀ env ρ, insertedPair.Consistent env ρ → TypedBy Γ ρ →
              (laneAt insertedPair [(1, 1)] construct 0).denote ρ = ρ 2) ∧
      ((∀ insert ∈ [((1 : Nat), (1 : BitVec 32))], insert.2 ≠ 0) →
        Undecided insertedPair .f32x2 [(1, 1)] (.inst 0) →
        foldCompositeExtractImpl insertedPair ((insertedPair.insts 2).arg 0)
            (.compositeInsert .f32x2) (.compositeConstruct .f32x2) 0 = .ok none ∧
          foldCompositeExtract insertedPair 2 (.compositeConstruct .f32x2)
            (.compositeInsert .f32x2) = .ok insertedPair) :=
  have path : InsertPath insertedPair .f32x2 ((insertedPair.insts 2).arg 0) [(1, 1)] (.inst 0) :=
    .cons rfl rfl rfl (.nil _)
  ⟨rfl, rfl, insertedPair_closed, path,
    foldCompositeExtractImpl_insertPath rfl rfl insertedPair_closed path⟩

/-! ## Termination

Each recursive call of the walk moves to the composite operand of an insert, which the insert
depends on. In a closed acyclic program a chain of such moves passes each instruction at most
once, so the walk never uses up the arena's bound, and more fuel does not change its result. -/

section Termination

variable {p : Program} {type : CompositeType} {i : BitVec 32}

/-- One call of the walk on a value of a closed acyclic program either stops, with a result that
does not depend on the fuel and is not a divergence, or recurses on the composite operand of an
insert of another immediate lane, which resolves to an instruction the insert depends on. -/
theorem implWith_stops_or_recurses (closed : p.Closed) (acyclic : p.Acyclic) {value : Value}
    (below : value.RefersBelow p.count) :
    (∃ result, result ≠ .error .diverges ∧ ∀ fuel,
        foldCompositeExtractImplWith p (.compositeInsert type) (.compositeConstruct type) i fuel
          value = result) ∨
      ∃ id next index, p.resolve value = .ok (.inst id) ∧
        (p.insts id).op = .compositeInsert type ∧
        p.resolve ((p.insts id).arg 2) = .ok (.imm (.u32 index)) ∧ index ≠ i ∧
        p.resolve ((p.insts id).arg 0) = .ok (.inst next) ∧ Relation.TransGen p.Uses id next ∧
        foldCompositeExtractImplWith p (.compositeInsert type) (.compositeConstruct type) i 0
          value = .error .diverges ∧
        ∀ fuel, foldCompositeExtractImplWith p (.compositeInsert type) (.compositeConstruct type) i
          (fuel + 1) value =
            foldCompositeExtractImplWith p (.compositeInsert type) (.compositeConstruct type) i fuel
              ((p.insts id).arg 0) := by
  obtain ⟨resolved, resolves⟩ := acyclic.resolve_ok closed below
  rcases resolved with imm | id
  · exact .inl ⟨_, by nofun, fun _ => implWith_imm resolves⟩
  by_cases isConstruct : (p.insts id).op = .compositeConstruct type
  · exact .inl ⟨_, by nofun, fun _ => implWith_construct resolves isConstruct⟩
  by_cases isInsert : (p.insts id).op = .compositeInsert type
  swap
  · exact .inl ⟨_, by nofun, fun _ => implWith_other resolves isConstruct isInsert⟩
  obtain ⟨index, index_resolves⟩ := acyclic.resolve_ok closed (closed.arg id 2)
  rcases index with imm | index
  swap
  · exact .inl ⟨_, by nofun, fun _ =>
      implWith_index_inst resolves isConstruct isInsert index_resolves⟩
  rcases read : p.u32 ((p.insts id).arg 2) with error | index
  · exact .inl ⟨_,
      fun same => Program.u32_ne_diverges ⟨_, index_resolves⟩ (Except.error.inj same ▸ read),
      fun _ => implWith_index_error resolves isConstruct isInsert
        (Program.isImmediate_eq_ok_true.mpr ⟨_, index_resolves⟩) read⟩
  replace index_resolves := Program.u32_eq_ok.mp read
  by_cases hit : index = i
  · subst hit
    exact .inl ⟨_, by nofun, fun _ => implWith_hit resolves isConstruct isInsert index_resolves⟩
  obtain ⟨composite, composite_resolves⟩ := acyclic.resolve_ok closed (closed.arg id 0)
  rcases composite with imm | next
  · exact .inl ⟨_, by nofun, fun _ =>
      implWith_miss_imm resolves isConstruct isInsert index_resolves hit composite_resolves⟩
  exact .inr ⟨id, next, index, resolves, isInsert, index_resolves, hit, composite_resolves,
    Program.transGen_of_resolve_arg (fun _ phi => nomatch isInsert.symm.trans phi)
      composite_resolves,
    implWith_miss_diverges resolves isConstruct isInsert index_resolves hit composite_resolves,
    fun _ => implWith_miss resolves isConstruct isInsert index_resolves hit composite_resolves⟩

section Run

variable (closed : p.Closed) (acyclic : p.Acyclic)
include closed acyclic

/-- A walk that runs out of fuel has passed a chain of one more insert than its fuel, each
depending on the next. -/
theorem implWith_diverges_chain {fuel : Nat} {value : Value} (below : value.RefersBelow p.count)
    (diverged : foldCompositeExtractImplWith p (.compositeInsert type) (.compositeConstruct type) i
      fuel value = .error .diverges) :
    ∃ start ids, p.resolve value = .ok (.inst start) ∧ ids.length = fuel + 1 ∧
      List.Chain (Relation.TransGen p.Uses) start ids := by
  induction fuel generalizing value with
  | zero =>
      rcases implWith_stops_or_recurses closed acyclic below with
        ⟨result, returns, stops⟩ | ⟨id, next, -, resolves, -, -, -, -, depends, -⟩
      · exact absurd ((stops 0).symm.trans diverged) returns
      · exact ⟨id, [next], resolves, rfl, .cons depends .nil⟩
  | succ fuel ih =>
      rcases implWith_stops_or_recurses closed acyclic below with
        ⟨result, returns, stops⟩ |
          ⟨id, next, -, resolves, -, -, -, composite, depends, -, recurses⟩
      · exact absurd ((stops _).symm.trans diverged) returns
      · rw [recurses] at diverged
        obtain ⟨start, ids, resolves', length, chain⟩ := ih (closed.arg id 0) diverged
        obtain rfl : start = next := Value.inst.inj (Except.ok.inj (resolves'.symm.trans composite))
        exact ⟨id, start :: ids, resolves, congrArg (· + 1) length, .cons depends chain⟩

/-- The walk from a value of a closed acyclic program never uses up the arena's bound. -/
theorem implWith_count_ne_diverges {value : Value} (below : value.RefersBelow p.count) :
    foldCompositeExtractImplWith p (.compositeInsert type) (.compositeConstruct type) i p.count
      value ≠ .error .diverges := fun diverged => by
  obtain ⟨start, ids, resolves, length, chain⟩ :=
    implWith_diverges_chain closed acyclic below diverged
  have shorter := acyclic.length_lt closed (closed.resolveWith_refersBelow below resolves) chain
  omega

/-- A walk that returns within its fuel returns the same with more. -/
theorem implWith_add {fuel : Nat} {value : Value} (below : value.RefersBelow p.count)
    (returns : foldCompositeExtractImplWith p (.compositeInsert type) (.compositeConstruct type) i
      fuel value ≠ .error .diverges) (more : Nat) :
    foldCompositeExtractImplWith p (.compositeInsert type) (.compositeConstruct type) i
      (fuel + more) value =
        foldCompositeExtractImplWith p (.compositeInsert type) (.compositeConstruct type) i fuel
          value := by
  induction fuel generalizing value with
  | zero =>
      rcases implWith_stops_or_recurses closed acyclic below with
        ⟨result, -, stops⟩ | ⟨-, -, -, -, -, -, -, -, -, diverges, -⟩
      · rw [stops, stops]
      · exact absurd diverges returns
  | succ fuel ih =>
      rcases implWith_stops_or_recurses closed acyclic below with
        ⟨result, -, stops⟩ | ⟨id, -, -, -, -, -, -, -, -, -, recurses⟩
      · rw [stops, stops]
      · rw [recurses] at returns
        rw [Nat.add_right_comm, recurses, recurses, ih (closed.arg id 0) returns]

end Run

/-- On a closed program whose uses outside phis are acyclic, `FoldCompositeExtractImpl`
terminates from every value of the program and for every lane: it never uses up its bound, and
more fuel gives the same result. A call either returns without recursing, at a result that does
not depend on the fuel, or recurses on the composite operand of an insert of another immediate
lane, which resolves to an instruction that the insert depends on. -/
theorem foldCompositeExtractImpl_terminates (closed : p.Closed) (acyclic : p.Acyclic)
    (type : CompositeType) (i : BitVec 32) {value : Value} (below : value.RefersBelow p.count) :
    foldCompositeExtractImpl p value (.compositeInsert type) (.compositeConstruct type) i ≠
        .error .diverges ∧
      (∀ fuel, p.count ≤ fuel →
        foldCompositeExtractImplWith p (.compositeInsert type) (.compositeConstruct type) i fuel
          value =
            foldCompositeExtractImpl p value (.compositeInsert type) (.compositeConstruct type) i) ∧
      ((∃ result, result ≠ .error .diverges ∧ ∀ fuel,
          foldCompositeExtractImplWith p (.compositeInsert type) (.compositeConstruct type) i fuel
            value = result) ∨
        ∃ id next index, p.resolve value = .ok (.inst id) ∧
          (p.insts id).op = .compositeInsert type ∧
          p.resolve ((p.insts id).arg 2) = .ok (.imm (.u32 index)) ∧ index ≠ i ∧
          p.resolve ((p.insts id).arg 0) = .ok (.inst next) ∧ Relation.TransGen p.Uses id next ∧
          ∀ fuel, foldCompositeExtractImplWith p (.compositeInsert type) (.compositeConstruct type)
            i (fuel + 1) value =
              foldCompositeExtractImplWith p (.compositeInsert type) (.compositeConstruct type) i
                fuel ((p.insts id).arg 0)) := by
  refine ⟨implWith_count_ne_diverges closed acyclic below, fun fuel enough => ?_, ?_⟩
  · obtain ⟨more, rfl⟩ := Nat.exists_eq_add_of_le enough
    exact implWith_add closed acyclic below (implWith_count_ne_diverges closed acyclic below) more
  · rcases implWith_stops_or_recurses closed acyclic below with stops |
      ⟨id, next, index, resolves, isInsert, index_resolves, miss, composite, depends, -, recurses⟩
    · exact .inl stops
    · exact .inr ⟨id, next, index, resolves, isInsert, index_resolves, miss, composite, depends,
        recurses⟩

/-- From the insert of lane 1 in `insertedPair`, the walk for lane 0 recurses to the construct. -/
theorem insertedPair_walk_terminates :
    insertedPair.Closed ∧ insertedPair.Acyclic ∧ (Value.inst 1).RefersBelow insertedPair.count ∧
      foldCompositeExtractImpl insertedPair (.inst 1) (.compositeInsert .f32x2)
          (.compositeConstruct .f32x2) 0 ≠ .error .diverges ∧
      (∀ fuel, insertedPair.count ≤ fuel →
        foldCompositeExtractImplWith insertedPair (.compositeInsert .f32x2)
            (.compositeConstruct .f32x2) 0 fuel (.inst 1) =
          foldCompositeExtractImpl insertedPair (.inst 1) (.compositeInsert .f32x2)
            (.compositeConstruct .f32x2) 0) ∧
      ((∃ result, result ≠ .error .diverges ∧ ∀ fuel,
          foldCompositeExtractImplWith insertedPair (.compositeInsert .f32x2)
            (.compositeConstruct .f32x2) 0 fuel (.inst 1) = result) ∨
        ∃ id next index, insertedPair.resolve (.inst 1) = .ok (.inst id) ∧
          (insertedPair.insts id).op = .compositeInsert .f32x2 ∧
          insertedPair.resolve ((insertedPair.insts id).arg 2) = .ok (.imm (.u32 index)) ∧
          index ≠ 0 ∧ insertedPair.resolve ((insertedPair.insts id).arg 0) = .ok (.inst next) ∧
          Relation.TransGen insertedPair.Uses id next ∧
          ∀ fuel, foldCompositeExtractImplWith insertedPair (.compositeInsert .f32x2)
              (.compositeConstruct .f32x2) 0 (fuel + 1) (.inst 1) =
            foldCompositeExtractImplWith insertedPair (.compositeInsert .f32x2)
              (.compositeConstruct .f32x2) 0 fuel ((insertedPair.insts id).arg 0)) :=
  have acyclic := insertedPair_dominated.acyclic
  ⟨insertedPair_closed, acyclic, (by decide : 1 < 3),
    foldCompositeExtractImpl_terminates insertedPair_closed acyclic .f32x2 0 (by decide : 1 < 3)⟩

end Termination

end Shader.Optimization

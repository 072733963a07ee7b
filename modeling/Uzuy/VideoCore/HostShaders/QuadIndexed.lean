import Mathlib.Data.BitVec
import Mathlib.Tactic.IntervalCases

/-!
# The quad index shader

`video_core/host_shaders/vulkan_quad_indexed.comp` turns the index buffer of a quad list or a quad
strip into that of a triangle list, for hosts that draw no quads. Invocation `primitive` reads the
four indices of its quad, packed in the input buffer as 8-, 16- or 32-bit values (`index_shift`
0, 1 or 2), and writes the six of its two triangles from `6 * primitive` on. GLSL `int` and
`uint` are 32-bit words, and an operation GLSL leaves undefined (a shift out of range, a
`bitfieldExtract` past the word, an access past a buffer) makes the invocation `none`.
-/

namespace VideoCore.HostShaders

/-- `PushConstants`; the `int`s `index_shift` and `is_strip` are held as their bits. -/
structure PushConstants where
  /-- Added to every index. -/
  baseVertex : BitVec 32
  /-- `0`: `uint8` indices, `1`: `uint16`, `2`: `uint32`. -/
  indexShift : BitVec 32
  /-- `0`: quads, otherwise a quad strip. -/
  isStrip : BitVec 32
  deriving DecidableEq, Repr

/-- `quads_swizzle`: the triangles `0 1 2` and `0 2 3` of a quad. -/
def quadsSwizzle : List (BitVec 32) := [0, 1, 2, 0, 2, 3]

/-- `quad_strip_swizzle`. -/
def quadStripSwizzle : List (BitVec 32) := [0, 3, 1, 0, 2, 3]

/-- Modelled from the spec: GLSL `a << b` on `int`, undefined for a shift by a negative amount or
by 32 or more. -/
def shiftLeft (a b : BitVec 32) : Option (BitVec 32) :=
  if b.toNat < 32 then some (a <<< b.toNat) else none

/-- Modelled from the spec: GLSL `a >> b` on `int`, which shifts the sign bit in. -/
def shiftRight (a b : BitVec 32) : Option (BitVec 32) :=
  if b.toNat < 32 then some (a.sshiftRight b.toNat) else none

/-- Modelled from the spec: GLSL `bitfieldExtract` on a `uint`, the `bits` bits of `value` from
bit `offset` on, zero-extended; undefined when `offset + bits` passes 32, as it does for a negative
`offset` or `bits`. -/
def bitfieldExtract (value offset bits : BitVec 32) : Option (BitVec 32) :=
  if offset.toNat + bits.toNat ≤ 32 then
    some (BitVec.ofNat 32 (value.toNat / 2 ^ offset.toNat % 2 ^ bits.toNat))
  else none

/-- `main` for `gl_GlobalInvocationID.x`: the writes it makes to `output_indexes`, in order, where
`outputLength` is `output_indexes.length()`. -/
def main (pc : PushConstants) (inputIndexes : List (BitVec 32)) (outputLength : Nat)
    (globalInvocationId : BitVec 32) : Option (List (Nat × BitVec 32)) :=
  let primitive := globalInvocationId
  if (BitVec.ofNat 32 outputLength).sle (primitive * 6) then pure [] else do
  let indexSize ← shiftLeft 8 pc.indexShift
  let flippedShift := 2 - pc.indexShift
  let mask := (← shiftLeft 1 flippedShift) - 1
  (List.range 6).mapM fun vertex => do
    let offset := if pc.isStrip = 0 then primitive * 4 + quadsSwizzle.getD vertex 0
      else primitive * 2 + quadStripSwizzle.getD vertex 0
    let intOffset ← shiftRight offset flippedShift
    let bitOffset := (offset &&& mask) * indexSize
    let packedInput ← inputIndexes[intOffset.toNat]?
    let index ← bitfieldExtract packedInput bitOffset indexSize
    let position := (primitive * 6 + BitVec.ofNat 32 vertex).toNat
    if position < outputLength then pure (position, index + pc.baseVertex) else none

/-! ## Reading a packed index -/

/-- Modelled from the spec: index `k` of a buffer of `width`-bit indices packed little-endian in
32-bit words, the `width` bits of the buffer from bit `k * width` on. -/
def packedIndex (inputIndexes : List (BitVec 32)) (width k : Nat) : Option (BitVec 32) :=
  inputIndexes[k * width / 32]?.map fun word =>
    BitVec.ofNat 32 (word.toNat / 2 ^ (k * width % 32) % 2 ^ width)

/-- With `f` the `flipped_shift` of a width `w`, the word `offset >> f` and the field at
`(offset & mask) * w` of it hold index `offset` of the packed buffer. -/
theorem read_packedIndex (inputIndexes : List (BitVec 32)) {f w : Nat}
    (widths : f = 0 ∧ w = 32 ∨ f = 1 ∧ w = 16 ∨ f = 2 ∧ w = 8) {offset : BitVec 32}
    {β : Type} (k : BitVec 32 → Option β) :
    (do
      let packedInput ← inputIndexes[(offset >>> f).toNat]?
      let index ← bitfieldExtract packedInput
        ((offset &&& BitVec.ofNat 32 (2 ^ f) - 1) * BitVec.ofNat 32 w) (BitVec.ofNat 32 w)
      k index) = (packedIndex inputIndexes w offset.toNat).bind k := by
  have scale : 2 ^ f * w = 32 := by rcases widths with ⟨rfl, rfl⟩ | ⟨rfl, rfl⟩ | ⟨rfl, rfl⟩ <;> rfl
  have width : (BitVec.ofNat 32 w).toNat = w := by
    rcases widths with ⟨rfl, rfl⟩ | ⟨rfl, rfl⟩ | ⟨rfl, rfl⟩ <;> rfl
  have mask : (BitVec.ofNat 32 (2 ^ f) - 1).toNat = 2 ^ f - 1 := by
    rcases widths with ⟨rfl, -⟩ | ⟨rfl, -⟩ | ⟨rfl, -⟩ <;> rfl
  -- A word holds `2 ^ f` indices of `w` bits: index `n` is field `n % 2 ^ f` of word `n / 2 ^ f`.
  have quotient : ∀ n, n * w / 32 = n / 2 ^ f := fun n => by
    rw [← scale, Nat.mul_div_mul_right _ _ (Nat.pos_of_ne_zero (by rintro rfl; simp at scale))]
  have field : ∀ n, n * w % 32 = n % 2 ^ f * w := fun n => by
    rw [← scale, Nat.mul_mod_mul_right]
  have fits : ∀ n, n * w % 32 + w ≤ 32 := fun n => by
    rw [field, ← Nat.succ_mul, ← scale]
    exact Nat.mul_le_mul_right w (Nat.mod_lt n (Nat.two_pow_pos f))
  have word : (offset >>> f).toNat = offset.toNat * w / 32 := by
    rw [BitVec.toNat_ushiftRight, Nat.shiftRight_eq_div_pow, quotient]
  have bit : ((offset &&& BitVec.ofNat 32 (2 ^ f) - 1) * BitVec.ofNat 32 w).toNat =
      offset.toNat * w % 32 := by
    rw [BitVec.toNat_mul, BitVec.toNat_and, mask, Nat.and_pow_two_sub_one_eq_mod, width, ← field,
      Nat.mod_eq_of_lt (by omega)]
  rw [word, packedIndex]
  cases inputIndexes[offset.toNat * w / 32]? with
  | none => rfl
  | some packedInput =>
    simp only [Option.map_some', Option.some_bind, bitfieldExtract, bit, width, if_pos (fits _)]
    rfl

/-! ## `mapM` in `Option` -/

/-- `mapM` reads its function on the members of the list only. -/
theorem mapM_congr_of_mem {α β : Type} {f g : α → Option β} :
    ∀ {l : List α}, (∀ a ∈ l, f a = g a) → l.mapM f = l.mapM g
  | [], _ => rfl
  | a :: l, same => by
    rw [List.mapM_cons, List.mapM_cons, same a (List.mem_cons_self _ _),
      mapM_congr_of_mem fun b mem => same b (List.mem_cons_of_mem _ mem)]

theorem mapM_some {α β : Type} (f : α → β) :
    ∀ l : List α, l.mapM (fun a => some (f a)) = some (l.map f)
  | [] => rfl
  | a :: l => by rw [List.mapM_cons, mapM_some f l]; rfl

/-- `mapM` fails when its function fails on a member. -/
theorem mapM_eq_none_of_mem {α β : Type} {f : α → Option β} {a : α} (fails : f a = none) :
    ∀ {l : List α}, a ∈ l → l.mapM f = none
  | b :: l, member => by
    rw [List.mapM_cons]
    rcases List.mem_cons.mp member with rfl | later
    · rw [fails]
      rfl
    · rw [mapM_eq_none_of_mem fails later]
      cases f b <;> rfl

/-- What `mapM` returns comes from its function on the members. -/
theorem mem_of_mapM {α β : Type} {f : α → Option β} :
    ∀ {l : List α} {bs : List β}, l.mapM f = some bs → ∀ b ∈ bs, ∃ a ∈ l, f a = some b
  | [], bs, mapped, b, member => by
    cases (Option.some.inj mapped : [] = bs)
    cases member
  | a :: l, bs, mapped, b, member => by
    simp only [List.mapM_cons, Option.bind_eq_bind, Option.bind_eq_some] at mapped
    obtain ⟨head, first, rest, later, done⟩ := mapped
    obtain rfl : head :: rest = bs := Option.some.inj done
    rcases List.mem_cons.mp member with rfl | member
    · exact ⟨a, List.mem_cons_self _ _, first⟩
    · obtain ⟨a', member', found⟩ := mem_of_mapM later b member
      exact ⟨a', List.mem_cons_of_mem _ member', found⟩

/-! ## One invocation -/

/-- The index a triangle-list vertex takes in the quad list or quad strip: corner `vertex` of the
two triangles of quad `primitive`. -/
def sourceIndex (isStrip : Bool) (primitive vertex : Nat) : Nat :=
  if isStrip then 2 * primitive + (quadStripSwizzle.getD vertex 0).toNat
  else 4 * primitive + (quadsSwizzle.getD vertex 0).toNat

/-- What `main` computes from `index_shift` before its loop, for the shifts 0, 1 and 2: the index
size `8 << index_shift`, the mask's `1 << flipped_shift`, and `flipped_shift`. -/
theorem setup {s : BitVec 32} (valid : s.toNat ≤ 2) :
    shiftLeft 8 s = some (BitVec.ofNat 32 (8 * 2 ^ s.toNat)) ∧
      shiftLeft 1 (2 - s) = some (BitVec.ofNat 32 (2 ^ (2 - s.toNat))) ∧
      (2 - s).toNat = 2 - s.toNat ∧
      (2 - s.toNat = 0 ∧ 8 * 2 ^ s.toNat = 32 ∨ 2 - s.toNat = 1 ∧ 8 * 2 ^ s.toNat = 16 ∨
        2 - s.toNat = 2 ∧ 8 * 2 ^ s.toNat = 8) := by
  obtain rfl | rfl | rfl : s = 0 ∨ s = 1 ∨ s = 2 := by bv_omega
  all_goals decide

/-- On words below `2 ^ 31` the signed comparison is the comparison of their values. -/
theorem sle_eq_of_lt {x y : BitVec 32} (hx : x.toNat < 2 ^ 31) (hy : y.toNat < 2 ^ 31) :
    x.sle y = decide (x.toNat ≤ y.toNat) := by
  simp only [BitVec.sle, BitVec.toInt_eq_toNat_cond]
  congr 1
  split <;> split <;> simp <;> omega

/-- The corners `quads_swizzle` and `quad_strip_swizzle` name are among the four a quad has. -/
theorem swizzle_le {vertex : Nat} (corner : vertex < 6) :
    (quadsSwizzle.getD vertex 0).toNat ≤ 3 ∧ (quadStripSwizzle.getD vertex 0).toNat ≤ 3 := by
  interval_cases vertex <;> decide

/-- On numbers below `2 ^ 31`, the guard `primitive * 6 >= output_indexes.length()` compares
them. -/
theorem guard_eq {outputLength p : Nat} (length : outputLength < 2 ^ 31)
    (bound : 6 * p < 2 ^ 31) :
    (BitVec.ofNat 32 outputLength).sle (BitVec.ofNat 32 p * 6) = decide (outputLength ≤ 6 * p) := by
  have first : (BitVec.ofNat 32 p * 6).toNat = 6 * p := by bv_omega
  have last : (BitVec.ofNat 32 outputLength).toNat = outputLength := by bv_omega
  rw [sle_eq_of_lt (by omega) (by omega), first, last]

/-- GLSL's `>>` on a nonnegative `int` is the logical shift. -/
theorem shiftRight_of_lt {x s : BitVec 32} (nonnegative : x.toNat < 2 ^ 31)
    (inRange : s.toNat < 32) : shiftRight x s = some (x >>> s.toNat) := by
  rw [shiftRight, if_pos inRange, BitVec.sshiftRight_eq_of_msb_false]
  simpa [BitVec.msb_eq_decide] using nonnegative

/-- Corner `vertex` of invocation `primitive` writes at `primitive * 6 + vertex`. -/
theorem position_toNat {p v : Nat} (bound : 6 * p + 6 ≤ 2 ^ 32) (corner : v < 6) :
    (BitVec.ofNat 32 p * 6 + BitVec.ofNat 32 v).toNat = 6 * p + v := by
  bv_omega

/-- The offset `main` computes for corner `vertex` of quad `primitive` is the source index the
corner names, a nonnegative `int`. -/
theorem offset_toNat (isStrip : BitVec 32) {p v : Nat} (bound : 6 * p < 2 ^ 31) (corner : v < 6) :
    (if isStrip = 0 then BitVec.ofNat 32 p * 4 + quadsSwizzle.getD v 0
      else BitVec.ofNat 32 p * 2 + quadStripSwizzle.getD v 0).toNat =
        sourceIndex (isStrip ≠ 0) p v ∧
      (if isStrip = 0 then BitVec.ofNat 32 p * 4 + quadsSwizzle.getD v 0
        else BitVec.ofNat 32 p * 2 + quadStripSwizzle.getD v 0).toNat < 2 ^ 31 := by
  have corners := swizzle_le corner
  suffices offset : _ = sourceIndex (isStrip ≠ 0) p v from
    ⟨offset, by rw [offset]; unfold sourceIndex; split <;> omega⟩
  by_cases strip : isStrip = 0
  · rw [if_pos strip, sourceIndex, if_neg (by simpa using strip)]
    bv_omega
  · rw [if_neg strip, sourceIndex, if_pos (by simpa using strip)]
    bv_omega

/-- An invocation whose first index lies in the output buffer writes, for each corner, the packed
index the corner names, plus `base_vertex`, at `6 * primitive + corner`, where that lies in the
buffer. -/
theorem main_eq {pc : PushConstants} {inputIndexes : List (BitVec 32)} {outputLength p : Nat}
    (valid : pc.indexShift.toNat ≤ 2) (length : outputLength < 2 ^ 31)
    (runs : 6 * p < outputLength) :
    main pc inputIndexes outputLength (BitVec.ofNat 32 p) = (List.range 6).mapM fun v =>
      (packedIndex inputIndexes (8 * 2 ^ pc.indexShift.toNat)
        (sourceIndex (pc.isStrip ≠ 0) p v)).bind fun index =>
          if 6 * p + v < outputLength then some (6 * p + v, index + pc.baseVertex) else none := by
  obtain ⟨indexSize, mask, flipped, widths⟩ := setup valid
  rw [main, guard_eq length (by omega), if_neg (by simpa using runs)]
  simp only [indexSize, mask]
  refine mapM_congr_of_mem fun v member => ?_
  have corner := List.mem_range.mp member
  obtain ⟨offset, small⟩ := offset_toNat pc.isStrip (show 6 * p < 2 ^ 31 by omega) corner
  have inRange : (2 - pc.indexShift).toNat < 32 := by omega
  rw [shiftRight_of_lt small inRange, flipped]
  refine (read_packedIndex inputIndexes widths _).trans ?_
  simp only [offset, position_toNat (show 6 * p + 6 ≤ 2 ^ 32 by omega) corner]
  rfl

/-- An invocation whose six writes fall in the buffer writes the triangle-list indices of its
quad. -/
theorem main_of_lt {pc : PushConstants} {inputIndexes : List (BitVec 32)} {outputLength p : Nat}
    (valid : pc.indexShift.toNat ≤ 2) (length : outputLength < 2 ^ 31)
    (inside : 6 * p + 6 ≤ outputLength) {index : Nat → BitVec 32}
    (reads : ∀ v < 6, packedIndex inputIndexes (8 * 2 ^ pc.indexShift.toNat)
      (sourceIndex (pc.isStrip ≠ 0) p v) = some (index v)) :
    main pc inputIndexes outputLength (BitVec.ofNat 32 p) =
      some ((List.range 6).map fun v => (6 * p + v, index v + pc.baseVertex)) := by
  rw [main_eq valid length (by omega), ← mapM_some]
  refine mapM_congr_of_mem fun v member => ?_
  have corner := List.mem_range.mp member
  rw [reads v corner, Option.some_bind, if_pos (by omega)]

/-- An invocation at or past the end of the output buffer writes nothing. -/
theorem main_of_ge {pc : PushConstants} {inputIndexes : List (BitVec 32)} {outputLength p : Nat}
    (length : outputLength < 2 ^ 31) (bound : 6 * p < 2 ^ 31) (past : outputLength ≤ 6 * p) :
    main pc inputIndexes outputLength (BitVec.ofNat 32 p) = some [] := by
  rw [main, guard_eq length bound, if_pos (decide_eq_true past)]
  rfl

/-- The guard tests only the first of an invocation's six indices: when the output buffer ends
inside the six, the invocation writes past its end. -/
theorem main_writes_past_end {pc : PushConstants} {inputIndexes : List (BitVec 32)}
    {outputLength p : Nat} (valid : pc.indexShift.toNat ≤ 2) (length : outputLength < 2 ^ 31)
    (runs : 6 * p < outputLength) (short : outputLength < 6 * p + 6)
    (reads : ∀ v < 6, (packedIndex inputIndexes (8 * 2 ^ pc.indexShift.toNat)
      (sourceIndex (pc.isStrip ≠ 0) p v)).isSome) :
    main pc inputIndexes outputLength (BitVec.ofNat 32 p) = none := by
  rw [main_eq valid length runs]
  refine mapM_eq_none_of_mem ?_ (List.mem_range.mpr (show outputLength - 6 * p < 6 by omega))
  obtain ⟨index, found⟩ := Option.isSome_iff_exists.mp (reads (outputLength - 6 * p) (by omega))
  rw [found, Option.some_bind, if_neg (by omega)]

/-- With the four indices `0, 1, 2, 3` as `uint16`, an output buffer of seven indices ends inside
the second invocation's six. -/
theorem secondQuad_writes_past_end :
    main ⟨0, 1, 0⟩ [0x00010000, 0x00030002, 0x00050004, 0x00070006] 7 (BitVec.ofNat 32 1) =
      none :=
  main_writes_past_end (by decide) (by decide) (by decide) (by decide) (by decide)

/-- Whatever the push constants and the buffers, invocation `primitive` writes only the indices
`6 * primitive` to `6 * primitive + 5`: no two invocations write the same index. -/
theorem main_writes_own_range {pc : PushConstants} {inputIndexes : List (BitVec 32)}
    {outputLength p : Nat} (bound : 6 * p + 6 ≤ 2 ^ 32) {writes : List (Nat × BitVec 32)}
    (ran : main pc inputIndexes outputLength (BitVec.ofNat 32 p) = some writes) :
    ∀ w ∈ writes, 6 * p ≤ w.1 ∧ w.1 < 6 * p + 6 := by
  by_cases past : (BitVec.ofNat 32 outputLength).sle (BitVec.ofNat 32 p * 6) = true
  · simp only [main, past, if_true] at ran
    cases (Option.some.inj ran : [] = writes)
    exact nofun
  rw [main, if_neg past] at ran
  simp only [Option.bind_eq_bind, Option.bind_eq_some] at ran
  obtain ⟨indexSize, -, m, -, mapped⟩ := ran
  intro w member
  obtain ⟨v, corner, body⟩ := mem_of_mapM mapped w member
  have v_lt : v < 6 := List.mem_range.mp corner
  simp only [Option.bind_eq_bind, Option.bind_eq_some] at body
  obtain ⟨_, -, _, -, _, -, body⟩ := body
  split at body
  · cases (Option.some.inj body)
    rw [position_toNat bound v_lt]
    omega
  · cases body

/-- The second invocation over the `uint16` indices `0, …, 7` writes indices 6 to 11. -/
theorem secondQuad_writes_own_range :
    main ⟨0, 1, 0⟩ [0x00010000, 0x00030002, 0x00050004, 0x00070006] 12 (BitVec.ofNat 32 1) =
        some [(6, 4), (7, 5), (8, 6), (9, 4), (10, 6), (11, 7)] ∧
      ∀ w ∈ ([(6, 4), (7, 5), (8, 6), (9, 4), (10, 6), (11, 7)] : List (Nat × BitVec 32)),
        6 * 1 ≤ w.1 ∧ w.1 < 6 * 1 + 6 :=
  have ran : main ⟨0, 1, 0⟩ [0x00010000, 0x00030002, 0x00050004, 0x00070006] 12
      (BitVec.ofNat 32 1) = some [(6, 4), (7, 5), (8, 6), (9, 4), (10, 6), (11, 7)] := by decide
  ⟨ran, main_writes_own_range (by decide) ran⟩

/-! ## The dispatch -/

/-- The number of vertices of `quads` quads: four a quad in a list, two a quad and two more in a
strip. -/
def vertexCount (isStrip : Bool) (quads : Nat) : Nat :=
  if isStrip then 2 * quads + 2 else 4 * quads

/-- A quad of the dispatch reads one of the vertices of the quads. -/
theorem sourceIndex_lt {isStrip : Bool} {primitive quads vertex : Nat} (inside : primitive < quads)
    (corner : vertex < 6) : sourceIndex isStrip primitive vertex < vertexCount isStrip quads := by
  have corners := swizzle_le corner
  unfold sourceIndex vertexCount
  split <;> omega

/-- Modelled from the spec: the writes a dispatch of the invocations `0, …, count - 1` makes,
one invocation's after the other's, or `none` when one of them does what GLSL leaves undefined. -/
def dispatchWrites (pc : PushConstants) (inputIndexes : List (BitVec 32)) (outputLength : Nat) :
    Nat → Option (List (Nat × BitVec 32))
  | 0 => some []
  | count + 1 => do
    let earlier ← dispatchWrites pc inputIndexes outputLength count
    let writes ← main pc inputIndexes outputLength (BitVec.ofNat 32 count)
    pure (earlier ++ writes)

/-- A dispatch of `count` invocations over `quads` quads makes, in order, the writes of the
triangle list of its first `min count quads` quads. -/
theorem dispatchWrites_eq {pc : PushConstants} {inputIndexes : List (BitVec 32)} {quads : Nat}
    (valid : pc.indexShift.toNat ≤ 2) (length : 6 * quads < 2 ^ 31) {index : Nat → BitVec 32}
    (reads : ∀ l < 6 * quads, packedIndex inputIndexes (8 * 2 ^ pc.indexShift.toNat)
      (sourceIndex (pc.isStrip ≠ 0) (l / 6) (l % 6)) = some (index l)) :
    ∀ count, 6 * count < 2 ^ 31 → dispatchWrites pc inputIndexes (6 * quads) count =
      some ((List.range (6 * min count quads)).map fun l => (l, index l + pc.baseVertex))
  | 0, _ => by simp [dispatchWrites]
  | count + 1, bound => by
    rw [dispatchWrites, dispatchWrites_eq valid length reads count (by omega), Option.bind_eq_bind,
      Option.some_bind]
    by_cases inside : count < quads
    · have own : ∀ v < 6, packedIndex inputIndexes (8 * 2 ^ pc.indexShift.toNat)
          (sourceIndex (pc.isStrip ≠ 0) count v) = some (index (6 * count + v)) := fun v lt => by
        have quotient : (6 * count + v) / 6 = count := by omega
        have remainder : (6 * count + v) % 6 = v := by omega
        simpa only [quotient, remainder] using reads (6 * count + v) (by omega)
      rw [main_of_lt valid length (by omega) own, Option.some_bind, min_eq_left inside.le,
        min_eq_left inside, Nat.mul_succ, List.range_add, List.map_append, List.map_map]
      rfl
    · rw [main_of_ge length (by omega) (by omega), Option.some_bind, List.append_nil,
        min_eq_right (by omega), min_eq_right (by omega)]
      rfl

/-- The output buffer after the writes `ws`, in order. -/
def applyWrites (ws : List (Nat × BitVec 32)) (output : Nat → BitVec 32) : Nat → BitVec 32 :=
  ws.foldl (fun output w => Function.update output w.1 w.2) output

/-- An index no write names keeps its contents. -/
theorem applyWrites_of_not_mem {l : Nat} :
    ∀ {ws : List (Nat × BitVec 32)} {output : Nat → BitVec 32}, l ∉ ws.map Prod.fst →
      applyWrites ws output l = output l
  | [], _, _ => rfl
  | w :: ws, output, absent => by
    simp only [List.map_cons, List.mem_cons, not_or] at absent
    rw [applyWrites, List.foldl_cons, ← applyWrites, applyWrites_of_not_mem absent.2,
      Function.update_noteq absent.1]

/-- With no index written twice, an index holds what its write wrote. -/
theorem applyWrites_of_mem {l : Nat} {x : BitVec 32} :
    ∀ {ws : List (Nat × BitVec 32)} {output : Nat → BitVec 32}, (ws.map Prod.fst).Nodup →
      (l, x) ∈ ws → applyWrites ws output l = x
  | w :: ws, output, distinct, member => by
    rw [List.map_cons, List.nodup_cons] at distinct
    rw [applyWrites, List.foldl_cons, ← applyWrites]
    rcases List.mem_cons.mp member with rfl | later
    · rw [applyWrites_of_not_mem distinct.1, Function.update_same]
    · exact applyWrites_of_mem distinct.2 later

/-- Run over the quads of an index buffer that holds their vertices, with a triangle list's room
for them, a dispatch of at least one invocation a quad writes every index of the triangle list:
whatever order the writes of the invocations interleave in, index `l` holds the source index that
corner `l % 6` of quad `l / 6` names, plus `base_vertex`, and the buffer past the list is left as
it was. -/
theorem dispatch_writes_triangleList {pc : PushConstants} {inputIndexes : List (BitVec 32)}
    {quads count : Nat} (valid : pc.indexShift.toNat ≤ 2) (length : 6 * quads < 2 ^ 31)
    (covers : quads ≤ count) (bound : 6 * count < 2 ^ 31)
    (holds : vertexCount (pc.isStrip ≠ 0) quads * (8 * 2 ^ pc.indexShift.toNat) ≤
      32 * inputIndexes.length) :
    ∃ writes, dispatchWrites pc inputIndexes (6 * quads) count = some writes ∧
      ∀ ws, ws.Perm writes → ∀ output l,
        (l < 6 * quads → some (applyWrites ws output l) =
          (packedIndex inputIndexes (8 * 2 ^ pc.indexShift.toNat)
            (sourceIndex (pc.isStrip ≠ 0) (l / 6) (l % 6))).map (· + pc.baseVertex)) ∧
        (6 * quads ≤ l → applyWrites ws output l = output l) := by
  have found : ∀ l < 6 * quads, packedIndex inputIndexes (8 * 2 ^ pc.indexShift.toNat)
      (sourceIndex (pc.isStrip ≠ 0) (l / 6) (l % 6)) =
        some ((packedIndex inputIndexes (8 * 2 ^ pc.indexShift.toNat)
          (sourceIndex (pc.isStrip ≠ 0) (l / 6) (l % 6))).getD 0) := fun l inside => by
    have lt : sourceIndex (pc.isStrip ≠ 0) (l / 6) (l % 6) * (8 * 2 ^ pc.indexShift.toNat) <
        vertexCount (pc.isStrip ≠ 0) quads * (8 * 2 ^ pc.indexShift.toNat) :=
      Nat.mul_lt_mul_of_pos_right (sourceIndex_lt (by omega) (by omega))
        (Nat.mul_pos (by decide) (Nat.two_pow_pos _))
    have word : sourceIndex (pc.isStrip ≠ 0) (l / 6) (l % 6) * (8 * 2 ^ pc.indexShift.toNat) / 32 <
        inputIndexes.length := by
      rw [Nat.div_lt_iff_lt_mul (by decide)]
      omega
    rw [packedIndex, List.getElem?_eq_getElem word]
    rfl
  refine ⟨_, dispatchWrites_eq valid length found count bound, fun ws perm output l => ?_⟩
  rw [min_eq_right covers] at perm
  have distinct : (ws.map Prod.fst).Nodup := by
    rw [(perm.map Prod.fst).nodup_iff, List.map_map]
    simpa [Function.comp_def] using List.nodup_range (6 * quads)
  refine ⟨fun inside => ?_, fun past => applyWrites_of_not_mem fun member => ?_⟩
  · have written := perm.mem_iff.mpr (List.mem_map.mpr ⟨l, List.mem_range.mpr inside, rfl⟩)
    rw [applyWrites_of_mem distinct written, found l inside]
    rfl
  · rw [(perm.map Prod.fst).mem_iff, List.map_map] at member
    simp at member
    omega

/-- One quad of `uint16` indices `0, 1, 2, 3` and `base_vertex` 100, dispatched in a workgroup of
1024 invocations. -/
theorem oneQuad_writes_triangleList :
    ∃ writes, dispatchWrites ⟨100, 1, 0⟩ [0x00010000, 0x00030002] (6 * 1) 1024 = some writes ∧
      ∀ ws, ws.Perm writes → ∀ output l,
        (l < 6 * 1 → some (applyWrites ws output l) =
          (packedIndex [0x00010000, 0x00030002] (8 * 2 ^ (1 : BitVec 32).toNat)
            (sourceIndex ((0 : BitVec 32) ≠ 0) (l / 6) (l % 6))).map (· + 100)) ∧
        (6 * 1 ≤ l → applyWrites ws output l = output l) :=
  dispatch_writes_triangleList (by decide) (by decide) (by decide) (by decide) (by decide)

end VideoCore.HostShaders

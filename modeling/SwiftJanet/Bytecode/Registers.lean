import Mathlib.Tactic.ByContra
import SwiftJanet.Bytecode.Instruction

/-!
# The register allocator

A bit for each register, in chunks that are made when they are needed; the registers from 240 to 255 are reserved.

`used`: the registers that are taken, whether their chunk was made or not. Each operation is described by what it does to
them (`used_touch`, `used_free`, `check_eq`), and a register that is handed out is the lowest one that was not taken
(`alloc_spec`).

`Registers`: the allocator, and what its caller holds. Whatever the caller does, as long as it gives back only what it
holds, no register is handed out twice, and the frame is large enough for all of them (`registers_distinct`).
-/

namespace SwiftJanet.Bytecode

/-- `JanetcRegisterTemp`. -/
abbrev RegisterTemp := Fin 8

/-- `JanetcRegisterAllocator`. -/
structure RegisterAllocator where
  chunks : List (BitVec 32)
  max : Nat
  regtemps : BitVec 32
deriving DecidableEq, Repr

namespace RegisterAllocator

/-- `janetc_regalloc_init`. -/
def init : RegisterAllocator := ⟨[], 0, 0#32⟩

/-- `ithbit`. -/
def ithbit (i : Nat) : BitVec 32 := 1#32 <<< i

/-- The chunk that `pushchunk` makes. -/
def newChunk (count : Nat) : BitVec 32 := if count = 7 then 0xFFFF0000#32 else 0#32

/-- `pushchunk`. -/
def pushchunk (ra : RegisterAllocator) : RegisterAllocator :=
  { ra with chunks := ra.chunks ++ [newChunk ra.chunks.length] }

/-- Make chunks until there is one for the register: `while (chunk >= ra->count) pushchunk(ra)`. -/
def grow (ra : RegisterAllocator) : Nat → RegisterAllocator
  | 0 => ra
  | n + 1 => grow ra.pushchunk n

/-- The chunks up to that of a register are made. -/
def reach (ra : RegisterAllocator) (reg : Nat) : RegisterAllocator := ra.grow (reg / 32 + 1 - ra.chunks.length)

/-- Change the chunk of a register. -/
def onChunk (ra : RegisterAllocator) (reg : Nat) (f : BitVec 32 → BitVec 32) : RegisterAllocator :=
  { ra with chunks := ra.chunks.modify (reg / 32) f }

/-- `janetc_regalloc_touch`. -/
def touch (ra : RegisterAllocator) (reg : Nat) : RegisterAllocator :=
  (ra.reach reg).onChunk reg (· ||| ithbit (reg % 32))

/-- `janetc_regalloc_free`. -/
def free (ra : RegisterAllocator) (reg : Nat) : RegisterAllocator := ra.onChunk reg (· &&& ~~~ithbit (reg % 32))

/-- `janetc_regalloc_check`, which makes the chunk of the register. -/
def check (ra : RegisterAllocator) (reg : Nat) : Bool × RegisterAllocator :=
  let ra := ra.reach reg
  ((ra.chunks.getD (reg / 32) 0#32) &&& ithbit (reg % 32) != 0#32, ra)

/-- `count_trailing_ones`. -/
def countTrailingOnes (block : BitVec 32) : Nat := ((List.range 32).find? fun i => !block.getLsbD i).getD 32

/-- The first register of the chunks that is free: the loop of `janetc_regalloc_1`. -/
def firstFree : Nat → List (BitVec 32) → Option Nat
  | _, [] => none
  | chunk, block :: chunks =>
    if block = BitVec.allOnes 32 then firstFree (chunk + 1) chunks else some (chunk * 32 + countTrailingOnes block)

/-- `janetc_regalloc_1`. -/
def alloc (ra : RegisterAllocator) : Nat × RegisterAllocator :=
  let (reg, ra) := match firstFree 0 ra.chunks with
    | some reg => (reg, ra)
    | none => (ra.chunks.length * 32, ra.pushchunk)
  let ra := ra.onChunk reg (· ||| ithbit (reg % 32))
  (reg, { ra with max := if reg > ra.max then reg else ra.max })

/-- `janetc_regalloc_temp`. To take a temporary register twice exits. A register that does not fit in a byte is left
taken, and a reserved one is handed out instead. -/
def temp (ra : RegisterAllocator) (nth : RegisterTemp) : Option (Nat × RegisterAllocator) :=
  if ra.regtemps &&& 1#32 <<< nth.val ≠ 0#32 then none
  else
    let oldmax := ra.max
    let (reg, ra) := { ra with regtemps := ra.regtemps ||| 1#32 <<< nth.val }.alloc
    if reg > 0xFF then
      let reg := 0xF0 + nth.val
      some (reg, { ra with max := if reg > oldmax then reg else oldmax })
    else some (reg, ra)

/-- `janetc_regalloc_freetemp`. -/
def freetemp (ra : RegisterAllocator) (reg : Nat) (nth : RegisterTemp) : RegisterAllocator :=
  let ra := { ra with regtemps := ra.regtemps &&& ~~~(1#32 <<< nth.val) }
  if reg < 0xF0 then ra.free reg else ra

/-! ## What is taken -/

/-- The registers that are always taken. -/
def reserved (reg : Nat) : Bool := 240 ≤ reg && reg ≤ 255

/-- The register is taken. -/
def used (ra : RegisterAllocator) (reg : Nat) : Bool :=
  (ra.chunks.getD (reg / 32) (newChunk (reg / 32))).getLsbD (reg % 32)

variable {ra : RegisterAllocator} {reg r n : Nat}

theorem getLsbD_newChunk : (newChunk (r / 32)).getLsbD (r % 32) = reserved r := by
  unfold newChunk reserved
  by_cases h7 : r / 32 = 7
  · rw [if_pos h7]
    have hbits : ∀ i < 32, (0xFFFF0000#32 : BitVec 32).getLsbD i = decide (16 ≤ i) := by decide
    rw [hbits _ (Nat.mod_lt _ (by omega)), Bool.eq_iff_iff, Bool.and_eq_true, decide_eq_true_iff, decide_eq_true_iff,
      decide_eq_true_iff]
    omega
  · rw [if_neg h7, BitVec.getLsbD_zero, eq_comm, Bool.and_eq_false_iff, decide_eq_false_iff_not, decide_eq_false_iff_not]
    omega

theorem used_init : init.used r = reserved r := getLsbD_newChunk

@[simp] theorem used_pushchunk : ra.pushchunk.used r = ra.used r := by
  unfold used pushchunk
  simp only [List.getD_eq_getElem?_getD]
  by_cases hlt : r / 32 < ra.chunks.length
  · rw [List.getElem?_append_left hlt]
  · rw [List.getElem?_append_right (by omega), List.getElem?_eq_none (by omega : ra.chunks.length ≤ r / 32)]
    rcases Nat.eq_or_lt_of_le (Nat.le_of_not_lt hlt) with heq | hgt
    · rw [heq, Nat.sub_self]
      rfl
    · rw [List.getElem?_eq_none (by simp only [List.length_singleton]; omega)]

theorem length_grow : ∀ {n : Nat} {ra : RegisterAllocator}, (ra.grow n).chunks.length = ra.chunks.length + n
  | 0, _ => rfl
  | n + 1, ra => by
    rw [grow, length_grow, pushchunk, List.length_append, List.length_singleton]
    omega

@[simp] theorem used_grow : ∀ {n : Nat} {ra : RegisterAllocator}, (ra.grow n).used r = ra.used r
  | 0, _ => rfl
  | n + 1, ra => by rw [grow, used_grow, used_pushchunk]

@[simp] theorem used_reach : (ra.reach reg).used r = ra.used r := used_grow

theorem lt_length_reach : reg / 32 < (ra.reach reg).chunks.length := by
  rw [reach, length_grow]
  omega

/-- What changing the chunk of a register does to what is taken. -/
theorem used_onChunk {f : BitVec 32 → BitVec 32} (hreg : reg / 32 < ra.chunks.length) :
    (ra.onChunk reg f).used r =
      if r / 32 = reg / 32 then (f (ra.chunks.getD (reg / 32) 0#32)).getLsbD (r % 32) else ra.used r := by
  unfold used onChunk
  simp only [List.getD_eq_getElem?_getD, List.getElem?_modify]
  by_cases hchunk : r / 32 = reg / 32
  · simp only [hchunk, if_true, List.getElem?_eq_getElem hreg, Option.map_eq_map, Option.map_some, Option.getD_some]
  · rw [if_neg hchunk]
    simp only [Ne.symm hchunk, if_false]
    cases ra.chunks[r / 32]? <;> rfl

theorem used_eq (hreg : reg / 32 < ra.chunks.length) (h : r / 32 = reg / 32) :
    ra.used r = (ra.chunks.getD (reg / 32) 0#32).getLsbD (r % 32) := by
  unfold used
  rw [h]
  simp only [List.getD_eq_getElem?_getD, List.getElem?_eq_getElem hreg, Option.getD_some]

theorem getLsbD_ithbit {i j : Nat} (hj : j < 32) : (ithbit i).getLsbD j = decide (i = j) := by
  simp only [ithbit, BitVec.getLsbD_shiftLeft, hj, decide_true, Bool.true_and, BitVec.getLsbD_one, Nat.zero_lt_succ]
  by_cases h : i = j
  · subst h
    simp
  · rw [decide_eq_false h]
    by_cases hlt : j < i
    · simp [hlt]
    · rw [Bool.and_eq_false_iff]
      right
      rw [decide_eq_false_iff_not]
      omega

/-- Setting the bit of a register takes it. -/
theorem used_set (hreg : reg / 32 < ra.chunks.length) :
    (ra.onChunk reg (· ||| ithbit (reg % 32))).used r = (decide (r = reg) || ra.used r) := by
  rw [used_onChunk hreg]
  by_cases hchunk : r / 32 = reg / 32
  · rw [if_pos hchunk, BitVec.getLsbD_or, getLsbD_ithbit (Nat.mod_lt _ (by omega)), used_eq hreg hchunk, Bool.or_comm]
    congr 1
    rw [decide_eq_decide]
    omega
  · rw [if_neg hchunk, decide_eq_false (by omega : ¬r = reg), Bool.false_or]

/-- **Touching a register takes it**, and no other. -/
theorem used_touch : (ra.touch reg).used r = (decide (r = reg) || ra.used r) := by
  rw [touch, used_set lt_length_reach, used_reach]

/-- To mask all bits but one tells that bit. -/
theorem and_ithbit {x : BitVec 32} {i : Nat} (hi : i < 32) : x &&& ithbit i ≠ 0#32 ↔ x.getLsbD i = true := by
  constructor
  · intro hne
    by_contra hbit
    refine hne (BitVec.eq_of_getLsbD_eq fun j hj => ?_)
    rw [BitVec.getLsbD_and, getLsbD_ithbit hj, BitVec.getLsbD_zero, Bool.and_eq_false_iff, decide_eq_false_iff_not]
    by_cases hij : i = j
    · left
      rw [← hij]
      simpa using hbit
    · exact Or.inr hij
  · intro hbit heq
    have hj := congrArg (fun y : BitVec 32 => y.getLsbD i) heq
    simp only [BitVec.getLsbD_and, getLsbD_ithbit hi, BitVec.getLsbD_zero, hbit, decide_true, Bool.and_self] at hj
    cases hj

/-- **Checking a register tells whether it is taken.** -/
theorem check_eq : (ra.check reg).1 = ra.used reg := by
  rw [← @used_reach ra reg reg, used_eq lt_length_reach rfl, check, Bool.eq_iff_iff, bne_iff_ne]
  exact and_ithbit (Nat.mod_lt _ (by omega))

@[simp] theorem used_check : (ra.check reg).2.used r = ra.used r := used_reach

/-- A register that is taken, and not because it is reserved, has its chunk. -/
theorem lt_length_of_used (h : ra.used reg = true) (hreserved : reserved reg = false) : reg / 32 < ra.chunks.length := by
  by_contra hlen
  unfold used at h
  rw [List.getD_eq_getElem?_getD, List.getElem?_eq_none (by omega), Option.getD_none, getLsbD_newChunk, hreserved] at h
  cases h

/-- **Freeing a register gives it back**, and no other. -/
theorem used_free (hreg : reg / 32 < ra.chunks.length) :
    (ra.free reg).used r = (decide (r ≠ reg) && ra.used r) := by
  rw [free, used_onChunk hreg]
  by_cases hchunk : r / 32 = reg / 32
  · rw [if_pos hchunk, BitVec.getLsbD_and, BitVec.getLsbD_not, getLsbD_ithbit (Nat.mod_lt _ (by omega)),
      used_eq hreg hchunk, Bool.and_comm, decide_eq_true (Nat.mod_lt r (by omega : 0 < 32)), Bool.true_and, ← decide_not]
    congr 1
    rw [decide_eq_decide]
    omega
  · rw [if_neg hchunk, decide_eq_true (by omega : r ≠ reg), Bool.true_and]

/-- The bit that `count_trailing_ones` finds. -/
theorem countTrailingOnes_spec {block : BitVec 32} (h : block ≠ BitVec.allOnes 32) :
    countTrailingOnes block < 32 ∧ block.getLsbD (countTrailingOnes block) = false ∧
      ∀ i < countTrailingOnes block, block.getLsbD i = true := by
  unfold countTrailingOnes
  cases hfind : (List.range 32).find? fun i => !block.getLsbD i with
  | none =>
    refine absurd (BitVec.eq_of_getLsbD_eq fun i hi => ?_) h
    have hbit := List.find?_eq_none.mp hfind i (List.mem_range.mpr hi)
    rw [BitVec.getLsbD_allOnes, decide_eq_true hi]
    simpa using hbit
  | some i =>
    obtain ⟨hbit, _, hi, hget, hbefore⟩ := List.find?_eq_some_iff_getElem.mp hfind
    rw [List.getElem_range] at hget
    subst hget
    rw [List.length_range] at hi
    refine ⟨hi, by simpa using hbit, fun j hj => ?_⟩
    have := hbefore j hj
    rw [List.getElem_range] at this
    simpa using this

/-- The chunk that `firstFree` finds. -/
theorem firstFree_eq_some : ∀ {chunks : List (BitVec 32)} {chunk reg : Nat}, firstFree chunk chunks = some reg →
    ∃ i block, chunks[i]? = some block ∧ block ≠ BitVec.allOnes 32 ∧
      reg = (chunk + i) * 32 + countTrailingOnes block ∧ ∀ j < i, chunks[j]? = some (BitVec.allOnes 32)
  | [], _, _, h => by cases h
  | block :: chunks, chunk, reg, h => by
    rw [firstFree] at h
    by_cases hblock : block = BitVec.allOnes 32
    · rw [if_pos hblock] at h
      obtain ⟨i, block', hget, hne, hreg, hbefore⟩ := firstFree_eq_some h
      refine ⟨i + 1, block', hget, hne, by rw [hreg]; omega, fun j hj => ?_⟩
      cases j with
      | zero => rw [hblock]; rfl
      | succ j => exact hbefore j (by omega)
    · rw [if_neg hblock] at h
      exact ⟨0, block, rfl, hblock, (Option.some.inj h).symm, fun j hj => absurd hj (Nat.not_lt_zero j)⟩

theorem firstFree_eq_none : ∀ {chunks : List (BitVec 32)} {chunk : Nat}, firstFree chunk chunks = none →
    ∀ i < chunks.length, chunks[i]? = some (BitVec.allOnes 32)
  | [], _, _, i, hi => absurd hi (Nat.not_lt_zero i)
  | block :: chunks, chunk, h, i, hi => by
    rw [firstFree] at h
    by_cases hblock : block = BitVec.allOnes 32
    · rw [if_pos hblock] at h
      cases i with
      | zero => rw [hblock]; rfl
      | succ i => exact firstFree_eq_none h i (by simpa using hi)
    · rw [if_neg hblock] at h
      cases h

/-- A register whose chunk is full is taken. -/
theorem used_of_full (h : ra.chunks[r / 32]? = some (BitVec.allOnes 32)) : ra.used r = true := by
  unfold used
  rw [List.getD_eq_getElem?_getD, h, Option.getD_some, BitVec.getLsbD_allOnes]
  exact decide_eq_true (Nat.mod_lt _ (by omega))

/-- **The register that is handed out is the lowest one that was not taken.** -/
theorem alloc_spec {ra' : RegisterAllocator} (h : ra.alloc = (reg, ra')) :
    ra.used reg = false ∧ (∀ r < reg, ra.used r = true) ∧ (∀ r, ra'.used r = (decide (r = reg) || ra.used r)) ∧
      (reg ≤ ra'.max ∧ ra.max ≤ ra'.max) ∧ ra'.regtemps = ra.regtemps := by
  have hmax : ∀ n m : Nat, n ≤ (if n > m then n else m) ∧ m ≤ (if n > m then n else m) := fun n m => by
    split <;> omega
  unfold alloc at h
  cases hfree : firstFree 0 ra.chunks with
  | some found =>
    rw [hfree] at h
    simp only [Prod.mk.injEq] at h
    obtain ⟨rfl, rfl⟩ := h
    obtain ⟨i, block, hget, hne, hreg, hbefore⟩ := firstFree_eq_some hfree
    obtain ⟨hlt, hbit, hbits⟩ := countTrailingOnes_spec hne
    have hi := (List.getElem?_eq_some_iff.mp hget).1
    have hchunk : found / 32 = i := by omega
    have hmod : found % 32 = countTrailingOnes block := by omega
    refine ⟨?_, fun r hr => ?_, fun r => used_set (by omega), hmax _ _, rfl⟩
    · unfold used
      rw [hchunk, hmod, List.getD_eq_getElem?_getD, hget, Option.getD_some, hbit]
    · rcases Nat.lt_or_eq_of_le (by omega : r / 32 ≤ i) with hlt' | heq
      · exact used_of_full (hbefore _ hlt')
      · unfold used
        rw [heq, List.getD_eq_getElem?_getD, hget, Option.getD_some, hbits _ (by omega)]
  | none =>
    rw [hfree] at h
    simp only [Prod.mk.injEq] at h
    obtain ⟨rfl, rfl⟩ := h
    have hfull := firstFree_eq_none hfree
    refine ⟨?_, fun r hr => ?_, fun r => ?_, hmax _ _, rfl⟩
    · unfold used
      rw [Nat.mul_div_cancel _ (by omega), List.getD_eq_getElem?_getD, List.getElem?_eq_none (by omega), Option.getD_none]
      have h240 := @getLsbD_newChunk (ra.chunks.length * 32)
      rw [Nat.mul_div_cancel _ (by omega)] at h240
      rw [h240, reserved, Bool.and_eq_false_iff, decide_eq_false_iff_not, decide_eq_false_iff_not]
      omega
    · exact used_of_full (hfull _ (by omega))
    · have hlen : ra.chunks.length * 32 / 32 < ra.pushchunk.chunks.length := by
        rw [pushchunk, List.length_append, List.length_singleton]
        omega
      exact (used_set hlen).trans (by rw [used_pushchunk])

end RegisterAllocator

/-! ## What a caller holds -/

/-- An allocator, with the registers that its caller holds: those for good, and the temporary ones. -/
structure Registers where
  ra : RegisterAllocator
  plain : List Nat
  temps : List (RegisterTemp × Nat)

namespace Registers

open RegisterAllocator

/-- What a caller asks for. -/
inductive Call where
  | alloc
  | free (reg : Nat)
  | touch (reg : Nat)
  | temp (nth : RegisterTemp)
  | freetemp (nth : RegisterTemp) (reg : Nat)

/-- All registers that the caller holds. -/
def held (s : Registers) : List Nat := s.plain ++ s.temps.map Prod.snd

/-- A call of a caller that gives back what it holds, and touches nothing beyond the frame. To touch a register that is
taken changes nothing; `janetc_free_regnear` gives a register that is held for good back as a temporary one. -/
def call (s : Registers) : Call → Option Registers
  | .alloc =>
    let (reg, ra) := s.ra.alloc
    some ⟨ra, reg :: s.plain, s.temps⟩
  | .free reg => if reg ∈ s.plain then some ⟨s.ra.free reg, s.plain.erase reg, s.temps⟩ else none
  | .touch reg =>
    if reg ∈ s.held ∨ reserved reg = true then some ⟨s.ra.touch reg, s.plain, s.temps⟩
    else if reg ≤ s.ra.max then some ⟨s.ra.touch reg, reg :: s.plain, s.temps⟩ else none
  | .temp nth => do
    let (reg, ra) ← s.ra.temp nth
    some ⟨ra, s.plain, (nth, reg) :: s.temps⟩
  | .freetemp nth reg =>
    if (nth, reg) ∈ s.temps then some ⟨s.ra.freetemp reg nth, s.plain, s.temps.erase (nth, reg)⟩
    else if reg ∈ s.plain ∧ nth ∉ s.temps.map Prod.fst then
      some ⟨s.ra.freetemp reg nth, if reg < 0xF0 then s.plain.erase reg else s.plain, s.temps⟩
    else none

/-- What holds whatever the caller does. -/
structure Good (s : Registers) : Prop where
  reserved : ∀ r, reserved r = true → s.ra.used r = true
  plain : ∀ r ∈ s.plain, s.ra.used r = true ∧ RegisterAllocator.reserved r = false
  temps : ∀ p ∈ s.temps, p.2 = 0xF0 + p.1.val ∨ (p.2 < 0xF0 ∧ s.ra.used p.2 = true)
  flags : ∀ nth : RegisterTemp, s.ra.regtemps.getLsbD nth.val = true ↔ nth ∈ s.temps.map Prod.fst
  tags : (s.temps.map Prod.fst).Nodup
  nodup : s.held.Nodup
  max : ∀ r ∈ s.held, r ≤ s.ra.max

variable {s s' : Registers} {c : Call} {reg : Nat} {nth : RegisterTemp}

theorem good_init : Good ⟨init, [], []⟩ where
  reserved _ h := used_init.trans h
  plain _ h := by cases h
  temps _ h := by cases h
  flags _ := by simp [init]
  tags := .nil
  nodup := .nil
  max _ h := by cases h

/-- A register that is held and fits below the reserved ones is taken. -/
theorem Good.used (h : s.Good) (hreg : reg ∈ s.held) (hreserved : RegisterAllocator.reserved reg = false) :
    s.ra.used reg = true := by
  rcases List.mem_append.mp hreg with hplain | htemp
  · exact (h.plain reg hplain).1
  · obtain ⟨p, hp, rfl⟩ := List.mem_map.mp htemp
    rcases h.temps p hp with heq | ⟨_, hused⟩
    · have := p.1.isLt
      simp only [RegisterAllocator.reserved, Bool.and_eq_false_iff, decide_eq_false_iff_not] at hreserved
      omega
    · exact hused

/-- A register that is not taken is not held. -/
theorem Good.fresh (h : s.Good) (hreg : s.ra.used reg = false) :
    RegisterAllocator.reserved reg = false ∧ reg ∉ s.held := by
  have hreserved : RegisterAllocator.reserved reg = false := by
    rw [Bool.eq_false_iff]
    intro hreserved
    rw [h.reserved reg hreserved] at hreg
    cases hreg
  refine ⟨hreserved, fun hheld => ?_⟩
  rw [h.used hheld hreserved] at hreg
  cases hreg

theorem mem_held_cons {plain : List Nat} {temps : List (RegisterTemp × Nat)} {ra : RegisterAllocator} {r : Nat} :
    r ∈ held ⟨ra, plain, (nth, reg) :: temps⟩ ↔ r = reg ∨ r ∈ held ⟨ra, plain, temps⟩ := by
  simp only [held, List.map_cons, List.mem_append, List.mem_cons]
  exact or_left_comm

theorem good_alloc (h : s.Good) {ra : RegisterAllocator} (halloc : s.ra.alloc = (reg, ra)) :
    Good ⟨ra, reg :: s.plain, s.temps⟩ := by
  obtain ⟨hfresh, _, hused, ⟨hmax, hmax'⟩, hflags⟩ := alloc_spec halloc
  obtain ⟨hreserved, hheld⟩ := h.fresh hfresh
  have hkept : ∀ {r}, s.ra.used r = true → ra.used r = true := fun hr => by rw [hused, hr, Bool.or_true]
  refine ⟨fun r hr => hkept (h.reserved r hr), fun r hr => ?_, fun p hp => ?_, fun nth => ?_, h.tags, ?_, fun r hr => ?_⟩
  · rcases List.mem_cons.mp hr with rfl | hr
    · exact ⟨by rw [hused, decide_eq_true rfl, Bool.true_or], hreserved⟩
    · exact ⟨hkept (h.plain r hr).1, (h.plain r hr).2⟩
  · exact (h.temps p hp).imp_right fun ⟨hlt, hp'⟩ => ⟨hlt, hkept hp'⟩
  · rw [← h.flags nth]
    exact Iff.of_eq (by rw [hflags])
  · exact List.nodup_cons.mpr ⟨hheld, h.nodup⟩
  · rcases List.mem_cons.mp hr with rfl | hr
    · exact hmax
    · exact Nat.le_trans (h.max r hr) hmax'

/-- What touching a register leaves as it was. -/
theorem touch_others {ra : RegisterAllocator} : (ra.touch reg).max = ra.max ∧ (ra.touch reg).regtemps = ra.regtemps := by
  have hgrow : ∀ {n : Nat} {ra : RegisterAllocator}, (ra.grow n).max = ra.max ∧ (ra.grow n).regtemps = ra.regtemps := by
    intro n
    induction n with
    | zero => exact fun {ra} => ⟨rfl, rfl⟩
    | succ n ih => exact fun {ra} => @ih ra.pushchunk
  exact @hgrow (reg / 32 + 1 - ra.chunks.length) ra

theorem used_touch_of_used {ra : RegisterAllocator} {r : Nat} (hr : ra.used r = true) : (ra.touch reg).used r = true := by
  rw [used_touch, hr, Bool.or_true]

/-- To touch what is taken keeps it. -/
theorem good_touch_taken (h : s.Good) : Good ⟨s.ra.touch reg, s.plain, s.temps⟩ where
  reserved r hr := used_touch_of_used (h.reserved r hr)
  plain r hr := ⟨used_touch_of_used (h.plain r hr).1, (h.plain r hr).2⟩
  temps p hp := (h.temps p hp).imp_right fun ⟨hlt, hp'⟩ => ⟨hlt, used_touch_of_used hp'⟩
  flags nth := by
    rw [← h.flags nth, ← (@touch_others reg s.ra).2]
  tags := h.tags
  nodup := h.nodup
  max r hr := Nat.le_trans (h.max r hr) (Nat.le_of_eq touch_others.1.symm)

theorem good_touch (h : s.Good) (hheld : reg ∉ s.held) (hreserved : RegisterAllocator.reserved reg = false)
    (hmax : reg ≤ s.ra.max) : Good ⟨s.ra.touch reg, reg :: s.plain, s.temps⟩ := by
  have htaken := @good_touch_taken s reg h
  refine ⟨htaken.reserved, fun r hr => ?_, htaken.temps, htaken.flags, h.tags, List.nodup_cons.mpr ⟨hheld, h.nodup⟩,
    fun r hr => ?_⟩
  · rcases List.mem_cons.mp hr with rfl | hr
    · exact ⟨by rw [used_touch, decide_eq_true rfl, Bool.true_or], hreserved⟩
    · exact htaken.plain r hr
  · rcases List.mem_cons.mp hr with rfl | hr
    · exact touch_others.1.symm ▸ hmax
    · exact htaken.max r hr

/-- What freeing a register leaves taken. -/
theorem used_of_free (h : s.ra.used reg = true) (hreserved : RegisterAllocator.reserved reg = false) {r : Nat}
    (hr : s.ra.used r = true) (hne : r ≠ reg) : (s.ra.free reg).used r = true := by
  rw [used_free (lt_length_of_used h hreserved), hr, decide_eq_true hne]
  rfl

theorem good_free (h : s.Good) (hreg : reg ∈ s.plain) : Good ⟨s.ra.free reg, s.plain.erase reg, s.temps⟩ := by
  obtain ⟨hused, hreserved⟩ := h.plain reg hreg
  obtain ⟨hplain, _, hdisjoint⟩ := List.nodup_append.mp h.nodup
  have hkept : ∀ {r}, s.ra.used r = true → r ≠ reg → (s.ra.free reg).used r = true := used_of_free hused hreserved
  have hsub : (s.plain.erase reg ++ s.temps.map Prod.snd).Sublist s.held := List.erase_sublist.append_right _
  refine ⟨fun r hr => ?_, fun r hr => ?_, fun p hp => ?_, h.flags, h.tags, h.nodup.sublist hsub,
    fun r hr => h.max r (hsub.subset hr)⟩
  · refine hkept (h.reserved r hr) fun heq => ?_
    rw [heq, hreserved] at hr
    cases hr
  · obtain ⟨hne, hr⟩ := hplain.mem_erase_iff.mp hr
    exact ⟨hkept (h.plain r hr).1 hne, (h.plain r hr).2⟩
  · refine (h.temps p hp).imp_right fun ⟨hlt, hp'⟩ => ⟨hlt, hkept hp' fun heq => ?_⟩
    exact hdisjoint reg hreg p.2 (List.mem_map_of_mem hp) heq.symm

theorem getLsbD_set_flag {x : BitVec 32} {nth nth' : RegisterTemp} :
    (x ||| 1#32 <<< nth.val).getLsbD nth'.val = (x.getLsbD nth'.val || decide (nth = nth')) := by
  rw [BitVec.getLsbD_or]
  congr 1
  exact (getLsbD_ithbit (by omega)).trans (decide_eq_decide.mpr Fin.val_inj)

theorem getLsbD_clear_flag {x : BitVec 32} {nth nth' : RegisterTemp} :
    (x &&& ~~~(1#32 <<< nth.val)).getLsbD nth'.val = (x.getLsbD nth'.val && !decide (nth = nth')) := by
  rw [BitVec.getLsbD_and, BitVec.getLsbD_not, decide_eq_true (by omega : nth'.val < 32), Bool.true_and]
  congr 2
  exact (getLsbD_ithbit (by omega)).trans (decide_eq_decide.mpr Fin.val_inj)

/-- A temporary register is handed out unless it is held. -/
theorem Good.temp_isSome (h : s.Good) : (∃ reg ra, s.ra.temp nth = some (reg, ra)) ↔ nth ∉ s.temps.map Prod.fst := by
  have hflag : s.ra.regtemps &&& 1#32 <<< nth.val ≠ 0#32 ↔ _ := and_ithbit (by omega)
  rw [← h.flags nth, ← hflag, RegisterAllocator.temp]
  by_cases hset : s.ra.regtemps &&& 1#32 <<< nth.val ≠ 0#32
  · rw [if_pos hset]
    exact ⟨fun ⟨_, _, h⟩ => (by cases h), fun h => absurd hset h⟩
  · rw [if_neg hset]
    refine ⟨fun _ => hset, fun _ => ?_⟩
    simp only
    split
    · exact ⟨_, _, rfl⟩
    · exact ⟨_, _, rfl⟩

theorem good_temp (h : s.Good) {ra : RegisterAllocator} (htemp : s.ra.temp nth = some (reg, ra)) :
    Good ⟨ra, s.plain, (nth, reg) :: s.temps⟩ := by
  have hnth := h.temp_isSome.mp ⟨reg, ra, htemp⟩
  have hnth' : ∀ p ∈ s.temps, p.1 ≠ nth := fun p hp heq => hnth (heq ▸ List.mem_map_of_mem hp)
  unfold RegisterAllocator.temp at htemp
  split at htemp
  · cases htemp
  · -- the allocator hands out a register, which may be too high
    obtain ⟨found, ra', halloc⟩ : ∃ found ra',
        { s.ra with regtemps := s.ra.regtemps ||| 1#32 <<< nth.val }.alloc = (found, ra') := ⟨_, _, rfl⟩
    rw [halloc] at htemp
    obtain ⟨hfresh, _, hused, ⟨hmax, hmax'⟩, hflags⟩ := alloc_spec halloc
    obtain ⟨hreserved, hheld⟩ := @Good.fresh s found h hfresh
    have hkept : ∀ {r}, s.ra.used r = true → ra'.used r = true := fun {r} hr => by
      rw [hused, Bool.or_eq_true]
      exact Or.inr hr
    have hgood : ∀ (reg max : Nat), (reg = 0xF0 + nth.val ∨ (reg < 0xF0 ∧ ra'.used reg = true)) → reg ∉ s.held →
        reg ≤ max → s.ra.max ≤ max → Good ⟨{ ra' with max := max }, s.plain, (nth, reg) :: s.temps⟩ := by
      intro reg max hreg hnew hmax hmax'
      refine ⟨fun r hr => hkept (h.reserved r hr), fun r hr => ⟨hkept (h.plain r hr).1, (h.plain r hr).2⟩, fun p hp => ?_,
        fun nth' => ?_, List.nodup_cons.mpr ⟨hnth, h.tags⟩, ?_, fun r hr => ?_⟩
      · rcases List.mem_cons.mp hp with rfl | hp
        · exact hreg
        · exact (h.temps p hp).imp_right fun ⟨hlt, hp'⟩ => ⟨hlt, hkept hp'⟩
      · show ra'.regtemps.getLsbD nth'.val = true ↔ _
        rw [hflags, List.map_cons, List.mem_cons, ← h.flags nth', getLsbD_set_flag, Bool.or_eq_true, decide_eq_true_iff,
          or_comm, eq_comm]
      · exact (List.perm_middle.nodup_iff).mpr (List.nodup_cons.mpr ⟨hnew, h.nodup⟩)
      · rcases mem_held_cons.mp hr with rfl | hr
        · exact hmax
        · exact Nat.le_trans (h.max r hr) hmax'
    simp only at htemp
    split at htemp
    · next hfar =>
      cases htemp
      refine hgood _ _ (Or.inl rfl) (fun hmem => ?_) (by split <;> omega) (by split <;> omega)
      rcases List.mem_append.mp hmem with hplain | htemps
      · have := (h.plain _ hplain).2
        simp only [RegisterAllocator.reserved, Bool.and_eq_false_iff, decide_eq_false_iff_not] at this
        omega
      · obtain ⟨p, hp, hpreg⟩ := List.mem_map.mp htemps
        rcases h.temps p hp with heq | ⟨hlt, _⟩
        · exact hnth' p hp (Fin.val_inj.mp (by omega))
        · omega
    · next hnear =>
      cases htemp
      refine hgood _ _ (Or.inr ⟨?_, ?_⟩) hheld hmax hmax'
      · simp only [RegisterAllocator.reserved, Bool.and_eq_false_iff, decide_eq_false_iff_not] at hreserved
        omega
      · rw [hused, decide_eq_true rfl, Bool.true_or]

theorem good_freetemp (h : s.Good) (hmem : (nth, reg) ∈ s.temps) :
    Good ⟨s.ra.freetemp reg nth, s.plain, s.temps.erase (nth, reg)⟩ := by
  obtain ⟨_, htemps, hdisjoint⟩ := List.nodup_append.mp h.nodup
  have hpairs : s.temps.Nodup := h.tags.of_map _
  have hsub := List.erase_sublist (a := (nth, reg)) (l := s.temps)
  have hheld : (s.plain ++ (s.temps.erase (nth, reg)).map Prod.snd).Sublist s.held := (hsub.map Prod.snd).append_left _
  have hne : ∀ p ∈ s.temps.erase (nth, reg), p.2 ≠ reg ∧ p.1 ≠ nth ∧ p ∈ s.temps := fun p hp => by
    obtain ⟨hne, hp⟩ := hpairs.mem_erase_iff.mp hp
    exact ⟨fun heq => hne (List.inj_on_of_nodup_map htemps hp hmem heq),
      fun heq => hne (List.inj_on_of_nodup_map h.tags hp hmem heq), hp⟩
  have hkept : ∀ {r}, s.ra.used r = true → (reg < 0xF0 → r ≠ reg) → (s.ra.freetemp reg nth).used r = true := by
    intro r hr hne'
    unfold RegisterAllocator.freetemp
    simp only
    split
    · next hlt =>
      have hreserved : RegisterAllocator.reserved reg = false := by
        simp only [RegisterAllocator.reserved, Bool.and_eq_false_iff, decide_eq_false_iff_not]
        omega
      have hused := h.used (List.mem_append_right _ (List.mem_map_of_mem (f := Prod.snd) hmem)) hreserved
      exact @used_of_free ⟨{ s.ra with regtemps := _ }, s.plain, s.temps⟩ reg hused hreserved r hr (hne' hlt)
    · exact hr
  have hmax : (s.ra.freetemp reg nth).max = s.ra.max := by
    unfold RegisterAllocator.freetemp
    simp only
    split <;> rfl
  have hregtemps : (s.ra.freetemp reg nth).regtemps = s.ra.regtemps &&& ~~~(1#32 <<< nth.val) := by
    unfold RegisterAllocator.freetemp
    simp only
    split <;> rfl
  refine ⟨fun r hr => hkept (h.reserved r hr) fun hlt heq => ?_,
    fun r hr => ⟨hkept (h.plain r hr).1 fun _ => ?_, (h.plain r hr).2⟩, fun p hp => ?_, fun nth' => ?_,
    h.tags.sublist (hsub.map _), h.nodup.sublist hheld, fun r hr => ?_⟩
  · simp only [RegisterAllocator.reserved, Bool.and_eq_true, decide_eq_true_iff] at hr
    omega
  · exact hdisjoint r hr reg (List.mem_map_of_mem (f := Prod.snd) hmem)
  · obtain ⟨hreg, _, hp⟩ := hne p hp
    exact (h.temps p hp).imp_right fun ⟨hlt, hp'⟩ => ⟨hlt, hkept hp' fun _ => hreg⟩
  · show (s.ra.freetemp reg nth).regtemps.getLsbD nth'.val = true ↔ _
    rw [hregtemps, getLsbD_clear_flag, Bool.and_eq_true, h.flags nth', Bool.not_eq_true', decide_eq_false_iff_not]
    constructor
    · rintro ⟨hmem', hnth⟩
      obtain ⟨p, hp, rfl⟩ := List.mem_map.mp hmem'
      refine List.mem_map_of_mem (hpairs.mem_erase_iff.mpr ⟨fun heq => hnth ?_, hp⟩)
      rw [heq]
    · intro hmem'
      obtain ⟨p, hp, rfl⟩ := List.mem_map.mp hmem'
      obtain ⟨_, hnth, hp⟩ := hne p hp
      exact ⟨List.mem_map_of_mem hp, fun heq => hnth heq.symm⟩
  · rw [hmax]
    exact h.max r (hheld.subset hr)

/-- A tag that is not in use may be cleared. -/
theorem good_clear (h : s.Good) (hnth : nth ∉ s.temps.map Prod.fst) :
    Good ⟨{ s.ra with regtemps := s.ra.regtemps &&& ~~~(1#32 <<< nth.val) }, s.plain, s.temps⟩ where
  reserved := h.reserved
  plain := h.plain
  temps := h.temps
  flags nth' := by
    show (s.ra.regtemps &&& ~~~(1#32 <<< nth.val)).getLsbD nth'.val = true ↔ _
    rw [getLsbD_clear_flag, Bool.and_eq_true, h.flags nth', Bool.not_eq_true', decide_eq_false_iff_not]
    exact ⟨And.left, fun hmem => ⟨hmem, fun heq => hnth (heq ▸ hmem)⟩⟩
  tags := h.tags
  nodup := h.nodup
  max := h.max

/-- A register that is held for good may be given back as a temporary one. -/
theorem good_freetemp_plain (h : s.Good) (hreg : reg ∈ s.plain) (hnth : nth ∉ s.temps.map Prod.fst) :
    Good ⟨s.ra.freetemp reg nth, if reg < 0xF0 then s.plain.erase reg else s.plain, s.temps⟩ := by
  have hclear := good_clear h hnth
  unfold RegisterAllocator.freetemp
  simp only
  split
  · exact good_free hclear hreg
  · exact hclear

/-- **Every call keeps it.** -/
theorem good_call (h : s.Good) (hc : s.call c = some s') : s'.Good := by
  cases c with
  | alloc =>
    cases hc
    exact good_alloc h rfl
  | free reg =>
    rw [call] at hc
    split at hc
    · next hmem =>
      cases hc
      exact good_free h hmem
    · cases hc
  | touch reg =>
    rw [call] at hc
    split at hc
    · cases hc
      exact good_touch_taken h
    · next hfree =>
      obtain ⟨hheld, hreserved⟩ := not_or.mp hfree
      split at hc
      · next hmax =>
        cases hc
        exact good_touch h hheld (Bool.eq_false_iff.mpr hreserved) hmax
      · cases hc
  | temp nth =>
    obtain ⟨⟨reg, ra⟩, htemp, hc⟩ := Option.bind_eq_some_iff.mp hc
    cases hc
    exact good_temp h htemp
  | freetemp nth reg =>
    rw [call] at hc
    split at hc
    · next hmem =>
      cases hc
      exact good_freetemp h hmem
    · split at hc
      · next hplain =>
        cases hc
        exact good_freetemp_plain h hplain.1 hplain.2
      · cases hc

/-- The calls of a run. -/
def run (s : Registers) : List Call → Option Registers
  | [] => some s
  | c :: calls => do (← s.call c).run calls

theorem good_run : ∀ {calls : List Call} {s : Registers}, s.Good → s.run calls = some s' → s'.Good
  | [], _, h, hc => by cases hc; exact h
  | c :: calls, s, h, hc => by
    obtain ⟨t, ht, hc⟩ := Option.bind_eq_some_iff.mp hc
    exact good_run (good_call h ht) hc

/-- **The registers that are held at the same time differ**, and the frame has all of them; a temporary register fits in a
byte, and one is handed out unless it is held. -/
theorem registers_distinct {calls : List Call} (h : run ⟨init, [], []⟩ calls = some s) :
    s.held.Nodup ∧ (∀ r ∈ s.held, r < s.ra.max + 1) ∧ (∀ r ∈ s.plain, ¬(0xF0 ≤ r ∧ r ≤ 0xFF)) ∧
      (∀ p ∈ s.temps, p.2 ≤ 0xFF) ∧ ∀ nth, (∃ s', s.call (.temp nth) = some s') ↔ nth ∉ s.temps.map Prod.fst := by
  have hgood := good_run good_init h
  refine ⟨hgood.nodup, fun r hr => Nat.lt_succ_of_le (hgood.max r hr), fun r hr hbounds => ?_, fun p hp => ?_, fun nth => ?_⟩
  · have := (hgood.plain r hr).2
    simp only [RegisterAllocator.reserved, Bool.and_eq_false_iff, decide_eq_false_iff_not] at this
    omega
  · have := p.1.isLt
    rcases hgood.temps p hp with heq | ⟨hlt, _⟩ <;> omega
  · rw [← hgood.temp_isSome]
    constructor
    · rintro ⟨s', hs'⟩
      obtain ⟨⟨reg, ra⟩, htemp, _⟩ := Option.bind_eq_some_iff.mp hs'
      exact ⟨reg, ra, htemp⟩
    · rintro ⟨reg, ra, htemp⟩
      exact ⟨_, by rw [call, htemp]; rfl⟩

/-- A caller that takes two registers and a temporary one, keeps the temporary one for good, touches one that it holds, and
gives the first one back. -/
theorem registers_distinct_threeCalls :
    run ⟨init, [], []⟩ [.alloc, .alloc, .temp 3, .freetemp 3 2, .touch 2, .touch 1, .free 0] =
      some ⟨⟨[6#32], 2, 0#32⟩, [2, 1], []⟩ ∧ [2, 1].Nodup :=
  have h : run ⟨init, [], []⟩ [.alloc, .alloc, .temp 3, .freetemp 3 2, .touch 2, .touch 1, .free 0] =
    some ⟨⟨[6#32], 2, 0#32⟩, [2, 1], []⟩ := rfl
  ⟨h, (registers_distinct h).1⟩

end Registers

end SwiftJanet.Bytecode

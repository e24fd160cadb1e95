import SwiftJanet.GC.Collect

/-!
# Runs with collections

What a program does between collections (`Step`): it allocates blocks and fills them, adds and removes roots, starts
fibers, and interns symbols, with nothing in its hands but references to blocks that are there. Collections may come at
any time, and a freed address may be given to another block.

Whatever it does, nothing dangles and no collection fails (`never_dangles`).
-/

namespace SwiftJanet.GC

open Lib Marking

/-! ## Roots and allocation -/

namespace Memory

/-- `janet_gcalloc`, and the block as it is filled. -/
def janetGcalloc (m : Memory) (p : Nat) (b : Block) (size : Nat) : Memory :=
  { m with
    blocks := if b.isWeak then m.blocks else (p, b) :: m.blocks
    weakBlocks := if b.isWeak then (p, b) :: m.weakBlocks else m.weakBlocks
    blockCount := m.blockCount + 1
    nextCollection := m.nextCollection + size }

/-- Fill a block. -/
def fill (m : Memory) (p : Nat) (b : Block) : Memory :=
  { m with
    blocks := m.blocks.map fun e => if e.1 = p then (p, b) else e
    weakBlocks := m.weakBlocks.map fun e => if e.1 = p then (p, b) else e }

/-- `janet_gcroot`. -/
def janetGcroot (m : Memory) (root : Janet) : Memory := { m with roots := m.roots ++ [root] }

/-- `janet_gc_idequals`. -/
def janetGcIdequals (lhs rhs : Janet) : Bool :=
  if janetType lhs ≠ janetType rhs then false
  else match janetType lhs with
    | .boolean | .nil | .number => true
    | _ => janetUnwrapPointer lhs == janetUnwrapPointer rhs

/-- `janet_gcunroot`: the last root takes the place of the first one that is the same. -/
def janetGcunroot (m : Memory) (root : Janet) : Memory :=
  match m.roots.findIdx? (janetGcIdequals root) with
  | none => m
  | some i => { m with roots := (m.roots.set i (m.roots.getLastD root)).dropLast }

/-- Memory without a block. -/
def init : Memory := ⟨[], [], 0, [], none, [], [], [], 0, 0x400000, 0⟩

/-- What a block refers to is there. -/
structure Holds (m : Memory) (b : Block) : Prop where
  refs : ∀ r ∈ b.refs, m.Resolves r
  weakRefs : ∀ x ∈ b.weakRefs, m.Resolves (.value x)
  looksAt : ∀ p, b.looksAt = some p → m.Resolves (.node (.fiber, p))
  onStack : m.Stacked b

/-- A fiber at the address would have the frames of the environments that stand on it. -/
def KeepsFrames (m : Memory) (p : Nat) (b : Block) : Prop :=
  ∀ e ∈ m.all, ∀ env f, e.2 = .funcenv env → 0 < env.offset → env.fiber = p → b = .fiber f → f.HasFrame env

end Memory

/-! ## Steps -/

/-- A step of the program, or a collection. -/
inductive Step : Memory → Memory → Prop
  | alloc {m : Memory} {p : Nat} {b : Block} {size : Nat} (hnew : p ∉ m.all.map Prod.fst)
    (hb : (m.janetGcalloc p b size).Holds b) : Step m (m.janetGcalloc p b size)
  | fill {m : Memory} {p : Nat} {b b₀ : Block} (hmem : (p, b₀) ∈ m.all) (hkind : b.kind = b₀.kind)
    (hweak : b.isWeak = b₀.isWeak) (hsymbol : b₀ = .string true → b = .string true) (hframes : m.KeepsFrames p b)
    (hb : m.Holds b) : Step m (m.fill p b)
  | gcroot {m : Memory} {x : Janet} (hx : m.Resolves (.value x)) : Step m (m.janetGcroot x)
  | gcunroot {m : Memory} {x : Janet} : Step m (m.janetGcunroot x)
  | start {m : Memory} {rootFiber : Option Nat} {spawn : List (Nat × Janet)} {timeouts : List (Nat × Option Nat)}
    (h : ∀ r ∈ { m with rootFiber, spawn, timeouts }.rootRefs, m.Resolves r) :
    Step m { m with rootFiber, spawn, timeouts }
  | intern {m : Memory} {p : Nat} (hp : (p, .string true) ∈ m.all) : Step m { m with cache := p :: m.cache }
  | suspend {m : Memory} {gcSuspend : Nat} : Step m { m with gcSuspend }
  | collect {m m' : Memory} (h : m.collect = some m') : Step m m'

section Steps

variable {m m' : Memory} {b b₀ : Block} {p size : Nat} {x : Janet} {r : Ref}

/-- What was there is there when there are more blocks. -/
theorem resolves_mono (h : m.Sound) (hn : (m'.all.map Prod.fst).Nodup)
    (hmem : ∀ e ∈ m.all, ∃ e' ∈ m'.all, e'.1 = e.1 ∧ e'.2.kind = e.2.kind) (hr : m.Resolves r) : m'.Resolves r := by
  intro a ha
  obtain ⟨b, hb⟩ := hr a ha
  obtain ⟨hb, hkind⟩ := h.load_iff.mp hb
  obtain ⟨e', he', haddress, hkind'⟩ := hmem _ hb
  refine ⟨e'.2, (find_eq_some hn).mpr ⟨?_, hkind'.trans hkind⟩⟩
  rw [show (a.2, e'.2) = e' from Prod.ext haddress.symm rfl]
  exact he'

theorem Memory.Holds.mono (hb : m.Holds b) (h : ∀ r, m.Resolves r → m'.Resolves r) (honStack : m'.Stacked b) :
    m'.Holds b :=
  ⟨fun r hr => h r (hb.refs r hr), fun x hx => h _ (hb.weakRefs x hx), fun p hp => h _ (hb.looksAt p hp), honStack⟩

theorem Memory.Sound.holds (h : m.Sound) {e : Nat × Block} (he : e ∈ m.all) : m.Holds e.2 :=
  ⟨h.refs e he, h.weakRefs e he, h.looksAt e he, h.onStack e he⟩

/-- **Nothing dangles** where all that was there is there, and a block that was not holds what is there. -/
theorem sound_of_holds (h : m.Sound) (hn : (m'.all.map Prod.fst).Nodup) (hstrong : ∀ e ∈ m'.blocks, e.2.isWeak = false)
    (hweak : ∀ e ∈ m'.weakBlocks, e.2.isWeak = true) (hcount : m'.blockCount = m'.all.length)
    (hmem : ∀ e ∈ m.all, ∃ e' ∈ m'.all, e'.1 = e.1 ∧ e'.2.kind = e.2.kind)
    (honStack : ∀ e ∈ m.all, m'.Stacked e.2) (hholds : ∀ e ∈ m'.all, e ∈ m.all ∨ m'.Holds e.2)
    (hroots : ∀ r ∈ m'.rootRefs, m.Resolves r)
    (hcache : ∀ p ∈ m'.cache, (p, .string true) ∈ m'.all) : m'.Sound := by
  have hresolves : ∀ r, m.Resolves r → m'.Resolves r := fun r hr => resolves_mono h hn hmem hr
  have hall : ∀ e ∈ m'.all, m'.Holds e.2 := by
    intro e he
    rcases hholds e he with he | he
    · exact (h.holds he).mono hresolves (honStack e he)
    · exact he
  exact ⟨hn, hstrong, hweak, hcount, fun e he => (hall e he).refs, fun e he => (hall e he).weakRefs,
    fun e he => (hall e he).looksAt, fun e he => (hall e he).onStack, fun r hr => hresolves r (hroots r hr), hcache⟩

/-- Other roots, and another cache. -/
theorem sound_roots (h : m.Sound) (hblocks : m'.blocks = m.blocks) (hweak : m'.weakBlocks = m.weakBlocks)
    (hcount : m'.blockCount = m.blockCount) (hroots : ∀ r ∈ m'.rootRefs, m.Resolves r)
    (hcache : ∀ p ∈ m'.cache, (p, .string true) ∈ m.all) : m'.Sound := by
  have hall : m'.all = m.all := by rw [Memory.all, Memory.all, hblocks, hweak]
  refine sound_of_holds h (hall ▸ h.nodup) (hblocks ▸ h.strong) (hweak ▸ h.weak) ?_ ?_ ?_ ?_ hroots ?_
  · rw [hcount, hall, h.count]
  · exact fun e he => ⟨e, hall ▸ he, rfl, rfl⟩
  · intro e he env f henv hpos hload
    rw [Memory.load, hall] at hload
    exact h.onStack e he env f henv hpos hload
  · exact fun e he => Or.inl (hall ▸ he)
  · exact fun p hp => hall ▸ hcache p hp

theorem mem_janetGcalloc {e : Nat × Block} : e ∈ (m.janetGcalloc p b size).all ↔ e = (p, b) ∨ e ∈ m.all := by
  unfold Memory.janetGcalloc Memory.all
  cases b.isWeak
  · simp only [Bool.false_eq_true, if_false, List.cons_append, List.mem_cons]
  · simp only [if_true, List.mem_append, List.mem_cons]
    exact or_left_comm

/-- **A new block leaves nothing dangling.** -/
theorem sound_alloc (h : m.Sound) (hnew : p ∉ m.all.map Prod.fst) (hb : (m.janetGcalloc p b size).Holds b) :
    (m.janetGcalloc p b size).Sound := by
  have hperm : ((m.janetGcalloc p b size).all.map Prod.fst).Perm (p :: m.all.map Prod.fst) := by
    unfold Memory.janetGcalloc Memory.all
    cases b.isWeak
    · exact List.Perm.refl _
    · simp only [if_true, List.map_append, List.map_cons]
      exact List.perm_middle
  have hn : ((m.janetGcalloc p b size).all.map Prod.fst).Nodup :=
    hperm.nodup_iff.mpr (List.nodup_cons.mpr ⟨hnew, h.nodup⟩)
  refine sound_of_holds h hn (fun e he => ?_) (fun e he => ?_) ?_ (fun e he => ?_) (fun e he env f henv hpos hload => ?_)
    (fun e he => ?_) h.roots fun q hq => mem_janetGcalloc.mpr (Or.inr (h.cache q hq))
  · unfold Memory.janetGcalloc at he
    cases hweak : b.isWeak
    · simp only [hweak, Bool.false_eq_true, if_false] at he
      rcases List.mem_cons.mp he with rfl | he
      · exact hweak
      · exact h.strong e he
    · simp only [hweak, if_true] at he
      exact h.strong e he
  · unfold Memory.janetGcalloc at he
    cases hweak : b.isWeak
    · simp only [hweak, Bool.false_eq_true, if_false] at he
      exact h.weak e he
    · simp only [hweak, if_true] at he
      rcases List.mem_cons.mp he with rfl | he
      · exact hweak
      · exact h.weak e he
  · have hlength := hperm.length_eq
    rw [List.length_map, List.length_cons, List.length_map] at hlength
    rw [hlength, ← h.count]
    rfl
  · exact ⟨e, mem_janetGcalloc.mpr (Or.inr he), rfl, rfl⟩
  · -- the fiber was there, so it is not the new block
    obtain ⟨b₀, hb₀⟩ := h.looksAt e he env.fiber (by rw [henv, Block.looksAt, if_neg (by omega)]) _ rfl
    have hmem := (h.load_iff.mp hb₀).1
    rcases mem_janetGcalloc.mp ((find_eq_some hn).mp hload).1 with heq | hfiber
    · exact absurd (List.mem_map_of_mem (f := Prod.fst) hmem) (congrArg Prod.fst heq ▸ hnew)
    · exact h.onStack e he env f henv hpos (h.load_iff.mpr ⟨hfiber, rfl⟩)
  · rcases mem_janetGcalloc.mp he with rfl | he
    · exact Or.inr hb
    · exact Or.inl he

theorem all_fill : (m.fill p b).all = m.all.map fun e => if e.1 = p then (p, b) else e := by
  rw [Memory.fill, Memory.all, Memory.all, List.map_append]

/-- **Filling a block leaves nothing dangling.** -/
theorem sound_fill (h : m.Sound) (hmem : (p, b₀) ∈ m.all) (hkind : b.kind = b₀.kind) (hweak : b.isWeak = b₀.isWeak)
    (hsymbol : b₀ = .string true → b = .string true) (hframes : m.KeepsFrames p b) (hb : m.Holds b) :
    (m.fill p b).Sound := by
  -- the block that is filled is the only one there
  have hunique : ∀ e ∈ m.all, e.1 = p → e.2 = b₀ := fun e he heq => by
    have h₁ := lookup_of_mem h.nodup he
    have h₂ := lookup_of_mem h.nodup hmem
    rw [heq] at h₁
    exact Option.some.inj (h₁.symm.trans h₂)
  have haddress : (m.fill p b).all.map Prod.fst = m.all.map Prod.fst := by
    rw [all_fill, List.map_map]
    refine List.map_congr_left fun e _ => ?_
    simp only [Function.comp_apply]
    split
    · next heq => exact heq.symm
    · rfl
  have hn : ((m.fill p b).all.map Prod.fst).Nodup := haddress ▸ h.nodup
  have hkept : ∀ e ∈ m.all, ∃ e' ∈ (m.fill p b).all, e'.1 = e.1 ∧ e'.2.kind = e.2.kind := by
    refine fun e he => ⟨_, all_fill ▸ List.mem_map_of_mem he, ?_⟩
    split
    · next heq => exact ⟨heq.symm, hkind.trans (congrArg Block.kind (hunique e he heq)).symm⟩
    · exact ⟨rfl, rfl⟩
  -- the heap of a block is that of the block it takes the place of
  have hheap : ∀ e ∈ m.all, (if e.1 = p then (p, b) else e).2.isWeak = e.2.isWeak := by
    intro e he
    split
    · next heq => rw [hunique e he heq, hweak]
    · rfl
  -- an environment on the stack of a fiber that is there has its frame, whether the fiber is filled or not
  have honStack : ∀ b' : Block, m.Stacked b' →
      (∀ env f, b' = .funcenv env → 0 < env.offset → env.fiber = p → b = .fiber f → f.HasFrame env) →
        (m.fill p b).Stacked b' := by
    intro b' hb' hfilled env f henv hpos hload
    have hmem := ((find_eq_some hn).mp hload).1
    rw [all_fill] at hmem
    obtain ⟨e, he, heq⟩ := List.mem_map.mp hmem
    split at heq
    · cases heq
      exact hfilled env f henv hpos rfl rfl
    · exact hb' env f henv hpos (h.load_iff.mpr ⟨heq ▸ he, rfl⟩)
  refine sound_of_holds h hn (fun e' he' => ?_) (fun e' he' => ?_) ?_ hkept
    (fun e he => honStack _ (h.onStack e he) (hframes e he)) (fun e' he' => ?_) h.roots fun q hq => ?_
  · obtain ⟨e, he, rfl⟩ := List.mem_map.mp he'
    exact (hheap e (List.mem_append_left _ he)).trans (h.strong e he)
  · obtain ⟨e, he, rfl⟩ := List.mem_map.mp he'
    exact (hheap e (List.mem_append_right _ he)).trans (h.weak e he)
  · rw [all_fill, List.length_map, ← h.count]
    rfl
  · rw [all_fill] at he'
    obtain ⟨e, he, rfl⟩ := List.mem_map.mp he'
    split
    · refine Or.inr (hb.mono (fun r hr => resolves_mono h hn hkept hr) (honStack b hb.onStack fun env f henv _ _ hf => ?_))
      cases henv.symm.trans hf
    · exact Or.inl he
  · have hq' := h.cache q hq
    rw [all_fill]
    refine List.mem_map.mpr ⟨_, hq', ?_⟩
    split
    · next heq => rw [hsymbol (hunique _ hq' heq).symm, ← heq]
    · rfl

/-- What is left of the roots were roots. -/
theorem mem_janetGcunroot {y : Janet} (h : y ∈ (m.janetGcunroot x).roots) : y ∈ m.roots := by
  unfold Memory.janetGcunroot at h
  cases hfind : m.roots.findIdx? (Memory.janetGcIdequals x) with
  | none =>
    rw [hfind] at h
    exact h
  | some i =>
    rw [hfind] at h
    rcases List.mem_or_eq_of_mem_set (List.mem_of_mem_dropLast h) with h | rfl
    · exact h
    · have hlt := (List.findIdx?_eq_some_iff_getElem.mp hfind).1
      rw [List.getLastD_eq_getLast?, List.getLast?_eq_some_getLast (List.ne_nil_of_length_pos (by omega)), Option.getD_some]
      exact List.getLast_mem _

/-- **Every step leaves nothing dangling.** -/
theorem sound_step (h : m.Sound) (hstep : Step m m') : m'.Sound := by
  cases hstep with
  | alloc hnew hb => exact sound_alloc h hnew hb
  | fill hmem hkind hweak hsymbol hframes hb => exact sound_fill h hmem hkind hweak hsymbol hframes hb
  | gcroot hx =>
    refine sound_roots h rfl rfl rfl (fun r hr => ?_) h.cache
    simp only [Memory.rootRefs, Memory.janetGcroot, List.map_append, List.mem_append, List.map_cons, List.map_nil,
      List.mem_singleton] at hr
    rcases hr with hr | hr | rfl
    · exact h.roots r (List.mem_append_left _ (List.mem_append.mpr hr))
    · exact h.roots r (List.mem_append_right _ hr)
    · exact hx
  | @gcunroot x =>
    have hsame : (m.janetGcunroot x).blocks = m.blocks ∧ (m.janetGcunroot x).weakBlocks = m.weakBlocks ∧
        (m.janetGcunroot x).blockCount = m.blockCount ∧ (m.janetGcunroot x).cache = m.cache ∧
        (m.janetGcunroot x).evRefs = m.evRefs ∧ (m.janetGcunroot x).rootFiber = m.rootFiber := by
      unfold Memory.janetGcunroot
      split <;> exact ⟨rfl, rfl, rfl, rfl, rfl, rfl⟩
    obtain ⟨hblocks, hweak, hcount, hcache, hev, hfiber⟩ := hsame
    refine sound_roots h hblocks hweak hcount (fun r hr => ?_) (hcache ▸ h.cache)
    rw [Memory.rootRefs, hev, hfiber] at hr
    rcases List.mem_append.mp hr with hr | hr
    · exact h.roots r (List.mem_append_left _ hr)
    · obtain ⟨y, hy, rfl⟩ := List.mem_map.mp hr
      exact h.roots _ (List.mem_append_right _ (List.mem_map_of_mem (mem_janetGcunroot hy)))
  | start hroots => exact sound_roots h rfl rfl rfl hroots h.cache
  | intern hp =>
    refine sound_roots h rfl rfl rfl h.roots fun q hq => ?_
    rcases List.mem_cons.mp hq with rfl | hq
    · exact hp
    · exact h.cache q hq
  | suspend => exact sound_roots h rfl rfl rfl h.roots h.cache
  | collect hcollect =>
    by_cases hsuspend : m.gcSuspend = 0
    · obtain ⟨marked, hmarked, hsound, _⟩ := exists_collected h hsuspend
      exact Option.some.inj (hmarked.symm.trans hcollect) ▸ hsound
    · rw [Memory.collect, if_pos hsuspend] at hcollect
      exact Option.some.inj hcollect ▸ h

theorem sound_init : Memory.init.Sound := by
  refine ⟨.nil, ?_, ?_, rfl, ?_, ?_, ?_, ?_, ?_, ?_⟩ <;> intro _ h <;> cases h

theorem sound_run (h : Relation.ReflTransGen Step Memory.init m) : m.Sound := by
  induction h with
  | refl => exact sound_init
  | tail _ hstep ih => exact sound_step ih hstep

/-- **Whatever a program does, nothing dangles**: wherever a run leads, every reference of a block that is there and of a
root leads to a block that is there and is what it is taken for, so does everything that can be reached from the roots, the
cache holds symbols that are there, the blocks are counted, and a collection does not fail. -/
theorem never_dangles (h : Relation.ReflTransGen Step Memory.init m) : m.Sound ∧
    (∀ a, Rooted target m.edges m.rootRefs a → ∃ b, m.load a = some b) ∧ ∃ m', m.collect = some m' ∧ m'.Sound := by
  have hsound := sound_run h
  refine ⟨hsound, fun a ha => reached_load hsound ha, ?_⟩
  by_cases hsuspend : m.gcSuspend = 0
  · obtain ⟨marked, hmarked, hsound', _⟩ := exists_collected hsound hsuspend
    exact ⟨_, hmarked, hsound'⟩
  · exact ⟨m, by rw [Memory.collect, if_pos hsuspend], hsound⟩

/-- Two arrays that refer to each other, and a weak one that is a root and refers to the first. -/
def twoArrays : Memory :=
  ⟨[(2, .array false [.box .array 1]), (1, .array false [.box .array 2])], [(3, .array true [.box .array 1])], 3,
    [.box .array 3], none, [], [], [], 0, 0x400000, 72⟩

theorem resolves_array {b : Block} (hp : m.load (.array, p) = some b) (hpos : 0 < p) :
    m.Resolves (.value (.box .array p)) := by
  intro a ha
  have htarget : target (.box .array p) = some (.array, p) := by
    simp only [target, janetType, janetUnwrapPointer, pointer_pos hpos, Option.getD_some]
  rw [leadsTo, htarget] at ha
  exact Option.some.inj ha ▸ ⟨b, hp⟩

/-- A run to them: the first array is filled when the second one is there. -/
theorem steps_twoArrays : Relation.ReflTransGen Step Memory.init twoArrays := by
  have holds : ∀ {m : Memory} {p : Nat} {weak : Bool} {b : Block}, 0 < p → m.load (.array, p) = some b →
      m.Holds (.array weak [.box .array p]) := fun {m p weak b} hpos hp => by
    refine ⟨fun r hr => ?_, fun x hx => ?_, fun q hq => (by cases hq), fun env f h => (by cases h)⟩
    · cases weak with
      | false => exact List.mem_singleton.mp hr ▸ resolves_array hp hpos
      | true => cases hr
    · cases weak with
      | false => cases hx
      | true => exact List.mem_singleton.mp hx ▸ resolves_array hp hpos
  have hempty : ∀ m : Memory, m.Holds (.array false []) := fun m =>
    ⟨fun r hr => (by cases hr), fun x hx => (by cases hx), fun q hq => (by cases hq),
      fun env f h => (by cases h)⟩
  refine .tail (.tail (.tail (.tail (.tail .refl
    (@Step.alloc _ 1 (.array false []) 24 (by decide) (hempty _)))
    (@Step.alloc _ 2 (.array false [.box .array 1]) 24 (by decide) (holds (by decide) rfl)))
    (.fill (p := 1) (b := .array false [.box .array 2]) (List.mem_cons_of_mem _ (List.mem_cons_self ..)) rfl rfl
      (fun h => (by cases h)) (fun _ _ _ _ _ _ _ h => (by cases h)) (holds (by decide) rfl)))
    (@Step.alloc _ 3 (.array true [.box .array 1]) 24 (by decide) (holds (by decide) rfl)))
    (.gcroot (x := .box .array 3) (resolves_array (b := .array true [.box .array 1]) rfl (by decide)))

/-- After the run nothing dangles. -/
theorem never_dangles_twoArrays : twoArrays.Sound ∧ ∃ m', twoArrays.collect = some m' ∧ m'.Sound :=
  have h := never_dangles steps_twoArrays
  ⟨h.1, h.2.2⟩

/-- A collection frees the two arrays, although they refer to each other and the weak one to them. -/
theorem collect_spec_twoArrays : ∃ m', twoArrays.collect = some m' ∧ m'.all = [(3, .array true [janetWrapNil])] ∧
    m'.Sound :=
  have ⟨m', hm', hsound, _⟩ := collect_spec (sound_run steps_twoArrays) (rfl : twoArrays.gcSuspend = 0)
  ⟨m', hm', Option.some.inj ((rfl : twoArrays.collect = some ⟨[], [(3, .array true [janetWrapNil])], 1, [.box .array 3],
    none, [], [], [], 0, 0x400000, 0⟩).symm.trans hm') ▸ rfl, hsound⟩

end Steps

end SwiftJanet.GC

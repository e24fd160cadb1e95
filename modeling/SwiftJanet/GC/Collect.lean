import SwiftJanet.GC.Memory

/-!
# Collection

`collect`: mark from the roots, clear the weak references to what is not marked, and free what is not marked.

- memory in which nothing dangles can be marked: whatever is followed is there (`edges_spec`);
- what is left refers to what it did (`load_sweep`), and nothing dangles afterwards (`sound_sweep`);
- a block is left exactly if it can be reached from the roots (`collect_spec`).
-/

namespace SwiftJanet.GC

open Lib Marking

/-! ## The sweep -/

/-- `janet_check_liveref`. -/
def checkLiveref (marked : List Address) (x : Janet) : Bool :=
  match target x with
  | none => true
  | some a => a ∈ marked

/-- The entry of a weak table is dropped. -/
def isDead (marked : List Address) (weakKeys weakValues : Bool) (kv : JanetKV) : Bool :=
  (weakKeys && !checkLiveref marked kv.key) || (weakValues && !checkLiveref marked kv.value)

/-- The loop over the weak blocks that are kept: references to what is not marked are cleared. -/
def dropDead (marked : List Address) : Block → Block
  | .array true data => .array true (data.map fun x => if checkLiveref marked x then x else janetWrapNil)
  | .table weakKeys weakValues count deleted data proto =>
    let dead := data.countP (isDead marked weakKeys weakValues)
    .table weakKeys weakValues (count - dead) (deleted + dead)
      (data.map fun kv => if isDead marked weakKeys weakValues kv then ⟨janetWrapNil, janetWrapFalse⟩ else kv) proto
  | b => b

namespace Memory

/-- The block is marked. -/
def isMarked (marked : List Address) (e : Nat × Block) : Bool := (e.2.kind, e.1) ∈ marked

/-- The block as marking leaves it. -/
def settle (m : Memory) (e : Nat × Block) : Nat × Block := (e.1, (m.settled e.1 e.2).getD e.2)

/-- `janet_sweep`, on memory whose blocks that are marked are as marking leaves them. To free a symbol takes it out of the
cache. -/
def sweep (m : Memory) (marked : List Address) : Memory :=
  let weakBlocks := m.weakBlocks.filter (isMarked marked)
  let blocks := m.blocks.filter (isMarked marked)
  let freed := m.blocks.filter fun e => !isMarked marked e
  { m with
    weakBlocks := weakBlocks.map fun e => (e.1, dropDead marked e.2)
    blocks := blocks.map m.settle
    blockCount := m.blockCount - (m.weakBlocks.countP fun e => !isMarked marked e) - freed.length
    cache := m.cache.filter fun p => !freed.any fun e => e.1 == p && e.2 matches .string true }

/-- The end of `janet_collect`. -/
def collected (m : Memory) (marked : List Address) : Memory :=
  { m.sweep marked with
    gcInterval := if m.blockCount * 8 > m.gcInterval then m.blockCount * 16 else m.gcInterval
    nextCollection := 0 }

/-- `janet_collect`. Marking makes at most one round for each reference. -/
def collect (m : Memory) : Option Memory :=
  if m.gcSuspend ≠ 0 then some m
  else do
    let nodes := m.all.map fun e => (e.2.kind, e.1)
    let rounds := m.rootRefs.length + weight m.edges nodes [] + 1
    some (m.collected (← mark target m.edges (nodes.length + 1) rounds 1024 m.rootRefs []))

/-- The block can be reached from the roots. -/
def Reached (m : Memory) (e : Nat × Block) : Prop := Rooted target m.edges m.rootRefs (e.2.kind, e.1)

end Memory

/-! ## Addresses -/

section Addresses

variable {blocks : List (Nat × Block)} {e : Nat × Block} {a : Address} {b : Block} {f : Nat × Block → Nat × Block}

theorem lookup_of_mem : ∀ {blocks : List (Nat × Block)}, (blocks.map Prod.fst).Nodup → e ∈ blocks →
    blocks.lookup e.1 = some e.2
  | [], _, he => by cases he
  | e' :: blocks, hn, he => by
    obtain ⟨hnew, hn⟩ := List.nodup_cons.mp hn
    rw [List.lookup_cons]
    rcases List.mem_cons.mp he with rfl | he
    · rw [beq_self_eq_true]
    · have hne : (e.1 == e'.1) = false := by
        rw [beq_eq_false_iff_ne]
        exact fun heq => hnew (heq ▸ List.mem_map_of_mem he)
      rw [hne]
      exact lookup_of_mem hn he

theorem mem_of_lookup : ∀ {blocks : List (Nat × Block)} {p : Nat}, blocks.lookup p = some b → (p, b) ∈ blocks
  | [], _, h => by cases h
  | e' :: blocks, p, h => by
    rw [List.lookup_cons] at h
    split at h
    · next heq =>
      obtain rfl := Option.some.inj h
      obtain rfl := eq_of_beq heq
      exact List.mem_cons_self ..
    · exact List.mem_cons_of_mem _ (mem_of_lookup h)

/-- What is found is what is there. -/
theorem find_eq_some (hn : (blocks.map Prod.fst).Nodup) : find blocks a = some b ↔ (a.2, b) ∈ blocks ∧ b.kind = a.1 := by
  unfold find
  rw [Option.filter_eq_some_iff, decide_eq_true_iff]
  exact and_congr_left fun _ => ⟨mem_of_lookup, lookup_of_mem (e := (a.2, b)) hn⟩

end Addresses

/-! ## Marking succeeds -/

section Marking

variable {m : Memory} {a : Address} {b b' : Block} {f : Fiber} {env : FuncEnv} {r : Ref} {p : Nat} {x : Janet}

theorem target_nil : target janetWrapNil = none := rfl

theorem target_false : target janetWrapFalse = none := rfl

theorem resolves_of_none (h : target x = none) : m.Resolves (.value x) := by
  intro a ha
  rw [leadsTo, h] at ha
  cases ha

/-- What is there is listed. -/
theorem Memory.Sound.load_iff (h : m.Sound) : m.load a = some b ↔ (a.2, b) ∈ m.all ∧ b.kind = a.1 := find_eq_some h.nodup

/-- The slots that are copied are those of the frame, or cleared. -/
theorem captured_spec {frame : StackFrame} {n : Nat} (hfunc : frame.func.isSome) (hlength : n ≤ frame.slots.length) :
    ∃ values, Memory.captured frame n = some values ∧ ∀ x ∈ values, x ∈ frame.slots ∨ x = janetWrapNil := by
  have hnot : ¬(frame.func.isNone ∨ frame.slots.length < n) := by
    rw [Option.isNone_eq_false_iff.mpr hfunc]
    simp [hlength]
  unfold Memory.captured
  rw [if_neg hnot]
  cases frame.closureBitset with
  | none => exact ⟨_, rfl, fun x hx => Or.inl (List.mem_of_mem_take hx)⟩
  | some bitset =>
    refine ⟨_, rfl, fun x hx => ?_⟩
    obtain ⟨i, hi, rfl⟩ := List.mem_mapIdx.mp hx
    split
    · exact Or.inl (List.mem_of_mem_take (List.getElem_mem hi))
    · exact Or.inr rfl

/-- What is copied from the stack of a fiber is what the fiber refers to. -/
theorem envDetach_spec (h : f.HasFrame env) : ∃ env', Memory.envDetach f env = some env' ∧ env'.offset = 0 ∧
    ∀ r ∈ Block.envRefs env', r ∈ (Block.fiber f).refs ∨ r = .value janetWrapNil := by
  obtain ⟨frame, hframe, hstart, hfunc, hlength⟩ := h
  have hfind : f.frames.find? (fun frame => env.offset == frame.start) = some frame := by
    obtain ⟨frame', hframe'⟩ : ∃ frame', f.frames.find? (fun frame => env.offset == frame.start) = some frame' :=
      Option.isSome_iff_exists.mp (List.find?_isSome.mpr ⟨frame, hframe, by rw [hstart, beq_self_eq_true]⟩)
    have hstart' := List.find?_some hframe'
    have heq : frame'.start = frame.start := by
      have := eq_of_beq hstart'
      omega
    rw [hframe', List.inj_on_of_nodup_map f.starts (List.mem_of_find?_eq_some hframe') hframe heq]
  obtain ⟨values, hvalues, hslots⟩ := captured_spec hfunc hlength
  refine ⟨{ env with offset := 0, values }, by rw [Memory.envDetach, hfind]; simp only [Option.bind_eq_bind,
    Option.bind_some, hvalues], rfl, fun r hr => ?_⟩
  obtain ⟨x, hx, rfl⟩ := List.mem_map.mp hr
  rcases hslots x hx with hx | rfl
  · have hmem : (.value x : Ref) ∈ f.frames.flatMap Block.frameRefs :=
      List.mem_flatMap.mpr ⟨frame, hframe, List.mem_append_right _ (List.mem_map_of_mem hx)⟩
    simp only [Block.refs, List.mem_append]
    exact Or.inl (Or.inl (Or.inl (Or.inl (Or.inl (Or.inr hmem)))))
  · exact Or.inr rfl

/-- An environment that was looked for stands on a frame of its fiber, or is empty. -/
theorem envValid_spec (hoffset : env.offset ≠ 0) (h : 0 < env.offset → f.HasFrame env) :
    (0 < (Memory.envValid f p env).offset ∧ (Memory.envValid f p env).fiber = env.fiber ∧
        f.HasFrame (Memory.envValid f p env)) ∨
      ((Memory.envValid f p env).offset = 0 ∧ (Memory.envValid f p env).values = []) := by
  unfold Memory.envValid
  by_cases hneg : env.offset < 0
  · rw [if_pos hneg]
    split
    · next hany =>
      obtain ⟨frame, hframe, hmatch⟩ := List.any_eq_true.mp hany
      simp only [Bool.and_eq_true, beq_iff_eq] at hmatch
      obtain ⟨⟨⟨hstart, _⟩, hfunc⟩, hslotcount⟩ := hmatch
      refine Or.inl ⟨by simp only; omega, rfl, frame, hframe, hstart, hfunc, ?_⟩
      rw [frame.filled hfunc, hslotcount]
    · exact Or.inr ⟨rfl, rfl⟩
  · rw [if_neg hneg]
    have hpos : 0 < env.offset := by omega
    exact Or.inl ⟨hpos, rfl, h hpos⟩

/-- **An environment is detached without a fault**, and refers to its fiber, or to what the fiber refers to. -/
theorem envMaybeDetach_spec (hoffset : env.offset ≠ 0) (h : 0 < env.offset → f.HasFrame env) :
    ∃ env', Memory.envMaybeDetach f p env = some env' ∧ 0 ≤ env'.offset ∧
      (0 < env'.offset → env'.fiber = env.fiber ∧ f.HasFrame env') ∧
      ∀ r ∈ Block.envRefs env', r = .node (.fiber, env.fiber) ∨ r ∈ (Block.fiber f).refs ∨ r = .value janetWrapNil := by
  unfold Memory.envMaybeDetach
  rcases @envValid_spec f env p hoffset h with ⟨hpos, hfiber, hframe⟩ | ⟨hzero, hvalues⟩
  · by_cases hfinished : f.status.isFinished = true
    · obtain ⟨env', henv', hzero, hrefs⟩ := envDetach_spec hframe
      refine ⟨env', (if_pos ⟨hpos, hfinished⟩).trans henv', by omega, fun hpos' => ?_, fun r hr => Or.inr (hrefs r hr)⟩
      omega
    · refine ⟨_, if_neg fun hboth => hfinished hboth.2, by omega, fun _ => ⟨hfiber, hframe⟩, fun r hr => Or.inl ?_⟩
      rw [Block.envRefs, if_pos hpos, hfiber] at hr
      exact List.mem_singleton.mp hr
  · refine ⟨_, if_neg fun hboth => ?_, by omega, fun hpos => ?_, fun r hr => ?_⟩
    · have := hboth.1
      omega
    · omega
    · rw [Block.envRefs, if_neg (by omega), hvalues] at hr
      cases hr

/-- How marking leaves a block. -/
structure Settles (m : Memory) (b b' : Block) : Prop where
  others : b' = b ∨ ∃ env env', b = .funcenv env ∧ b' = .funcenv env'
  refs : ∀ r ∈ b'.refs, m.Resolves r
  looksAt : ∀ p, b'.looksAt = some p → .node (.fiber, p) ∈ b'.refs
  onStack : m.Stacked b'

theorem Settles.kind (h : Settles m b b') : b'.kind = b.kind := by
  rcases h.others with rfl | ⟨env, env', rfl, rfl⟩ <;> rfl

theorem Settles.isWeak (h : Settles m b b') : b'.isWeak = b.isWeak := by
  rcases h.others with rfl | ⟨env, env', rfl, rfl⟩ <;> rfl

/-- **Marking does not fail at a block that is there**, and what is followed from it is there. -/
theorem settled_spec (h : m.Sound) (hmem : (p, b) ∈ m.all) : ∃ b', m.settled p b = some b' ∧ Settles m b b' := by
  cases b with
  | funcenv env =>
    by_cases hoffset : env.offset = 0
    · refine ⟨_, if_pos hoffset, Or.inl rfl, h.refs _ hmem, fun q hq => ?_, h.onStack _ hmem⟩
      rw [Block.looksAt, if_pos hoffset] at hq
      cases hq
    · obtain ⟨b₀, hb₀⟩ := h.looksAt _ hmem env.fiber (if_neg hoffset) _ rfl
      obtain ⟨hfiber, hkind⟩ := h.load_iff.mp hb₀
      cases b₀ with
      | fiber f =>
        obtain ⟨env', henv', hpos, hframe, hrefs⟩ := @envMaybeDetach_spec f env p hoffset fun hpos =>
          h.onStack _ hmem env f rfl hpos hb₀
        refine ⟨.funcenv env', by simp only [Memory.settled, if_neg hoffset, hb₀, henv', Option.map_some],
          Or.inr ⟨env, env', rfl, rfl⟩, fun r hr => ?_, fun q hq => ?_, fun env₁ f₁ heq hpos₁ hload => ?_⟩
        · rcases hrefs r hr with rfl | hr | rfl
          · exact fun a ha => Option.some.inj ha ▸ ⟨_, hb₀⟩
          · exact h.refs _ hfiber r hr
          · exact resolves_of_none target_nil
        · simp only [Block.looksAt] at hq
          split at hq
          · cases hq
          · rw [Block.refs, Block.envRefs, if_pos (by omega : env'.offset > 0), ← Option.some.inj hq]
            exact List.mem_singleton.mpr rfl
        · cases heq
          obtain ⟨hsame, hframe⟩ := hframe hpos₁
          rw [hsame, hb₀] at hload
          cases hload
          exact hframe
      | _ => cases hkind
  | _ => exact ⟨_, rfl, Or.inl rfl, h.refs _ hmem, fun q hq => (by cases hq), h.onStack _ hmem⟩

theorem edges_spec (h : m.Sound) (hb : m.load a = some b) :
    ∃ es, m.edges a = some es ∧ ∀ r ∈ es, m.Resolves r := by
  obtain ⟨b', hb', hsettles⟩ := settled_spec h (h.load_iff.mp hb).1
  exact ⟨b'.refs, by simp only [Memory.edges, hb, Option.bind_eq_bind, Option.bind_some, hb'], hsettles.refs⟩

/-- **What can be reached is there.** -/
theorem reached_load (h : m.Sound) (ha : Rooted target m.edges m.rootRefs a) : ∃ b, m.load a = some b := by
  have hclosed : Closed target m.edges fun a => ∃ b, m.load a = some b := by
    rintro a ⟨b, hb⟩
    obtain ⟨es, hes, hall⟩ := edges_spec h hb
    exact ⟨es, hes, fun r hr c hc => hall r hr c hc⟩
  exact hclosed.of_rooted (fun r hr a ha => h.roots r hr a ha) ha

/-- Marking ends, and marks what can be reached. -/
theorem mark_memory (h : m.Sound) : ∃ marked,
    mark target m.edges ((m.all.map fun e => (e.2.kind, e.1)).length + 1)
      (m.rootRefs.length + weight m.edges (m.all.map fun e => (e.2.kind, e.1)) [] + 1) 1024 m.rootRefs [] = some marked ∧
        ∀ a, a ∈ marked ↔ Rooted target m.edges m.rootRefs a := by
  refine mark_spec (fun a ha => ?_) (Nat.lt_succ_self _) (Nat.lt_succ_self _)
  obtain ⟨b, hb⟩ := reached_load h ha
  obtain ⟨hmem, hkind⟩ := h.load_iff.mp hb
  obtain ⟨es, hes, _⟩ := edges_spec h hb
  exact ⟨List.mem_map.mpr ⟨(a.2, b), hmem, by rw [hkind]⟩, es, hes⟩

end Marking

/-! ## What is left -/

section Sweep

variable {m : Memory} {marked : List Address} {e e' : Nat × Block} {a : Address} {b : Block}

/-- How a block is left. -/
structure Survives (m : Memory) (marked : List Address) (e e' : Nat × Block) : Prop where
  address : e'.1 = e.1
  kind : e'.2.kind = e.2.kind
  isWeak : e'.2.isWeak = e.2.isWeak
  refs : ∀ r ∈ e'.2.refs, (∃ b, m.settled e.1 e.2 = some b ∧ r ∈ b.refs) ∨ leadsTo target r = none
  weakRefs : ∀ x ∈ e'.2.weakRefs, ∀ a, target x = some a → a ∈ marked
  looksAt : ∀ p, e'.2.looksAt = some p → .node (.fiber, p) ∈ e'.2.refs
  onStack : m.Stacked e'.2
  fiber : ∀ f, e'.2 = .fiber f → e.2 = .fiber f
  symbol : e.2 = .string true → e'.2 = .string true

theorem checkLiveref_iff {x : Janet} : checkLiveref marked x = true ↔ ∀ a, target x = some a → a ∈ marked := by
  unfold checkLiveref
  cases target x with
  | none => simp
  | some a => simp

theorem not_isWeak_weakRefs (h : b.isWeak = false) : b.weakRefs = [] := by
  cases b with
  | array weak data =>
    obtain rfl : weak = false := h
    rfl
  | table weakKeys weakValues count deleted data proto =>
    obtain ⟨rfl, rfl⟩ := Bool.or_eq_false_iff.mp h
    rfl
  | _ => rfl

theorem survives_settle (h : m.Sound) (he : e ∈ m.blocks) : Survives m marked e (m.settle e) := by
  have hmem : (e.1, e.2) ∈ m.all := List.mem_append_left _ he
  obtain ⟨b, hb, hsettles⟩ := settled_spec h hmem
  have hsettle : m.settle e = (e.1, b) := by rw [Memory.settle, hb, Option.getD_some]
  rw [hsettle]
  refine ⟨rfl, hsettles.kind, hsettles.isWeak, fun r hr => Or.inl ⟨b, hb, hr⟩, fun x hx => ?_, hsettles.looksAt,
    hsettles.onStack, fun f hf => ?_, fun hsymbol => ?_⟩
  · rw [not_isWeak_weakRefs (hsettles.isWeak.trans (h.strong e he))] at hx
    cases hx
  · rcases hsettles.others with heq | ⟨_, _, _, heq⟩
    · exact heq ▸ hf
    · cases heq.symm.trans hf
  · rcases hsettles.others with heq | ⟨_, _, heq, _⟩
    · exact heq.trans hsymbol
    · cases hsymbol.symm.trans heq

/-- What is followed in a table is the part of an entry that is not weak. -/
theorem mem_tableRefs {weakKeys weakValues : Bool} {data : List JanetKV} {r : Ref} :
    r ∈ Block.tableRefs weakKeys weakValues data ↔
      ∃ kv ∈ data, (weakKeys = false ∧ r = .value kv.key) ∨ (weakValues = false ∧ r = .value kv.value) := by
  cases weakKeys <;> cases weakValues <;> simp [Block.tableRefs, eq_comm]

theorem mem_weakRefs_table {weakKeys weakValues : Bool} {count deleted : Int} {data : List JanetKV} {proto : Option Nat}
    {x : Janet} : x ∈ (Block.table weakKeys weakValues count deleted data proto).weakRefs ↔
      ∃ kv ∈ data, (weakKeys = true ∧ x = kv.key) ∨ (weakValues = true ∧ x = kv.value) := by
  cases weakKeys <;> cases weakValues <;> simp [Block.weakRefs, eq_comm, ← exists_or, ← and_or_left]

/-- An entry that is left is one that was there with its weak parts marked, or cleared. -/
theorem mem_dropped {weakKeys weakValues : Bool} {data : List JanetKV} {kv : JanetKV}
    (h : kv ∈ data.map fun kv => if isDead marked weakKeys weakValues kv then ⟨janetWrapNil, janetWrapFalse⟩ else kv) :
    (kv ∈ data ∧ (weakKeys = true → checkLiveref marked kv.key = true) ∧
        (weakValues = true → checkLiveref marked kv.value = true)) ∨
      (target kv.key = none ∧ target kv.value = none) := by
  obtain ⟨kv, hkv, rfl⟩ := List.mem_map.mp h
  split
  · exact Or.inr ⟨target_nil, target_false⟩
  · next halive =>
    refine Or.inl ⟨hkv, fun hkeys => ?_, fun hvalues => ?_⟩
    · simp only [isDead, hkeys, Bool.true_and, Bool.or_eq_true, Bool.not_eq_true', not_or, Bool.not_eq_false] at halive
      exact halive.1
    · simp only [isDead, hvalues, Bool.true_and, Bool.or_eq_true, Bool.not_eq_true', not_or, Bool.not_eq_false] at halive
      exact halive.2

theorem survives_dropDead (he : e.2.isWeak = true) : Survives m marked e (e.1, dropDead marked e.2) := by
  obtain ⟨p, b⟩ := e
  cases b with
  | array weak data =>
    obtain rfl : weak = true := he
    refine ⟨rfl, rfl, rfl, fun r hr => (by cases hr), fun x hx => ?_, fun p hp => (by cases hp),
      fun env f h => (by cases h), fun f h => (by cases h), fun h => (by cases h)⟩
    obtain ⟨y, _, rfl⟩ := List.mem_map.mp hx
    split
    · next hlive => exact checkLiveref_iff.mp hlive
    · rw [target_nil]
      exact fun a ha => (by cases ha)
  | table weakKeys weakValues count deleted data proto =>
    refine ⟨rfl, rfl, rfl, fun r hr => ?_, fun x hx => ?_, fun p hp => (by cases hp), fun env f h => (by cases h),
      fun f h => (by cases h), fun h => (by cases h)⟩
    · rcases List.mem_append.mp hr with hr | hr
      · obtain ⟨kv, hkv, hr⟩ := mem_tableRefs.mp hr
        rcases mem_dropped hkv with ⟨hkv, _, _⟩ | ⟨hkey, hvalue⟩
        · exact Or.inl ⟨_, rfl, List.mem_append_left _ (mem_tableRefs.mpr ⟨kv, hkv, hr⟩)⟩
        · rcases hr with ⟨_, rfl⟩ | ⟨_, rfl⟩
          · exact Or.inr hkey
          · exact Or.inr hvalue
      · exact Or.inl ⟨_, rfl, List.mem_append_right _ hr⟩
    · obtain ⟨kv, hkv, hx⟩ := mem_weakRefs_table.mp hx
      refine checkLiveref_iff.mp ?_
      rcases mem_dropped hkv with ⟨_, hkey, hvalue⟩ | ⟨hkey, hvalue⟩
      · rcases hx with ⟨hweak, rfl⟩ | ⟨hweak, rfl⟩
        · exact hkey hweak
        · exact hvalue hweak
      · rcases hx with ⟨_, rfl⟩ | ⟨_, rfl⟩
        · simp only [checkLiveref, hkey]
        · simp only [checkLiveref, hvalue]
  | _ => cases he

/-- A block of the memory that is left comes from one that is marked. -/
theorem mem_sweep (h : m.Sound) (he' : e' ∈ (m.sweep marked).all) :
    ∃ e ∈ m.all, Memory.isMarked marked e = true ∧ Survives m marked e e' := by
  rcases List.mem_append.mp he' with he' | he'
  · obtain ⟨e, he, rfl⟩ := List.mem_map.mp he'
    obtain ⟨he, hmarked⟩ := List.mem_filter.mp he
    exact ⟨e, List.mem_append_left _ he, hmarked, survives_settle h he⟩
  · obtain ⟨e, he, rfl⟩ := List.mem_map.mp he'
    obtain ⟨he, hmarked⟩ := List.mem_filter.mp he
    exact ⟨e, List.mem_append_right _ he, hmarked, survives_dropDead (h.weak e he)⟩

/-- A block that is marked is left. -/
theorem sweep_mem (h : m.Sound) (he : e ∈ m.all) (hmarked : Memory.isMarked marked e = true) :
    ∃ e' ∈ (m.sweep marked).all, Survives m marked e e' := by
  rcases List.mem_append.mp he with he | he
  · exact ⟨_, List.mem_append_left _ (List.mem_map_of_mem (List.mem_filter.mpr ⟨he, hmarked⟩)), survives_settle h he⟩
  · exact ⟨_, List.mem_append_right _ (List.mem_map.mpr ⟨e, List.mem_filter.mpr ⟨he, hmarked⟩, rfl⟩),
      survives_dropDead (h.weak e he)⟩

theorem nodup_sweep (h : m.Sound) : ((m.sweep marked).all.map Prod.fst).Nodup := by
  refine h.nodup.sublist ?_
  rw [Memory.all, Memory.all, List.map_append, List.map_append]
  refine List.Sublist.append ?_ ?_
  · simp only [Memory.sweep, List.map_map]
    exact List.Sublist.map Prod.fst List.filter_sublist
  · simp only [Memory.sweep, List.map_map]
    exact List.Sublist.map Prod.fst List.filter_sublist

/-- What is marked and there is there afterwards. -/
theorem load_sweep (h : m.Sound) (hb : m.load a = some b) (hmarked : a ∈ marked) :
    ∃ b', (m.sweep marked).load a = some b' := by
  obtain ⟨hmem, hkind⟩ := h.load_iff.mp hb
  obtain ⟨e', he', hsurvives⟩ := @sweep_mem m marked (a.2, b) h hmem
    (decide_eq_true (by rw [hkind]; exact hmarked))
  refine ⟨e'.2, (find_eq_some (nodup_sweep h)).mpr ⟨?_, hsurvives.kind.trans hkind⟩⟩
  rw [show (a.2, e'.2) = e' from Prod.ext hsurvives.address.symm rfl]
  exact he'

/-- **Nothing dangles after the sweep**, if what can be reached was marked. -/
theorem sound_sweep (h : m.Sound) (hmarked : ∀ a, a ∈ marked ↔ Rooted target m.edges m.rootRefs a) :
    (m.sweep marked).Sound := by
  have hresolves : ∀ r : Ref, (∀ a, leadsTo target r = some a → a ∈ marked) → (m.sweep marked).Resolves r := by
    intro r hr a ha
    obtain ⟨b, hb⟩ := reached_load h ((hmarked a).mp (hr a ha))
    exact load_sweep h hb (hr a ha)
  -- what is followed from a block that is marked is marked
  have hrefs : ∀ e' ∈ (m.sweep marked).all, ∀ r ∈ e'.2.refs, (m.sweep marked).Resolves r := by
    intro e' he' r hr
    obtain ⟨e, he, hkept, hsurvives⟩ := mem_sweep h he'
    refine hresolves r fun a ha => ?_
    rcases hsurvives.refs r hr with ⟨b, hb, hrb⟩ | hnone
    · obtain ⟨root, hroot, start, hstart, hpath⟩ := (hmarked _).mp (of_decide_eq_true hkept)
      have hload : m.load (e.2.kind, e.1) = some e.2 := h.load_iff.mpr ⟨he, rfl⟩
      have hedges : m.edges (e.2.kind, e.1) = some b.refs := by
        simp only [Memory.edges, hload, Option.bind_eq_bind, Option.bind_some, hb]
      exact (hmarked a).mpr ⟨root, hroot, start, hstart, hpath.tail ⟨_, hedges, r, hrb, ha⟩⟩
    · rw [hnone] at ha
      cases ha
  refine ⟨nodup_sweep h, fun e' he' => ?_, fun e' he' => ?_, ?_, hrefs, fun e' he' x hx => ?_, fun e' he' p hp => ?_,
    fun e' he' env f henv hpos hload => ?_, fun r hr => ?_, fun p hp => ?_⟩
  · obtain ⟨e, he, rfl⟩ := List.mem_map.mp he'
    obtain ⟨he, _⟩ := List.mem_filter.mp he
    exact (@survives_settle m marked e h he).isWeak.trans (h.strong e he)
  · obtain ⟨e, he, rfl⟩ := List.mem_map.mp he'
    obtain ⟨he, _⟩ := List.mem_filter.mp he
    exact (survives_dropDead (m := m) (h.weak e he)).isWeak.trans (h.weak e he)
  · have hblocks := List.length_eq_countP_add_countP (Memory.isMarked marked) (l := m.blocks)
    have hweak := List.length_eq_countP_add_countP (Memory.isMarked marked) (l := m.weakBlocks)
    have hcount := h.count
    simp only [Memory.all, Memory.sweep, List.length_append, List.length_map, ← List.countP_eq_length_filter] at *
    simp only [Bool.not_eq_true] at hblocks hweak
    simp only [Bool.decide_eq_false] at hblocks hweak
    omega
  · obtain ⟨e, he, hkept, hsurvives⟩ := mem_sweep h he'
    exact hresolves _ fun a ha => hsurvives.weakRefs x hx a ha
  · obtain ⟨e, he, hkept, hsurvives⟩ := mem_sweep h he'
    exact hrefs e' he' _ (hsurvives.looksAt p hp)
  · -- the fiber is as it was
    obtain ⟨e, he, hkept, hsurvives⟩ := mem_sweep h he'
    obtain ⟨hfiber, _⟩ := (find_eq_some (nodup_sweep h)).mp hload
    obtain ⟨e₀, he₀, _, hsurvives₀⟩ := mem_sweep h hfiber
    have hsame : e₀ = (env.fiber, .fiber f) := Prod.ext hsurvives₀.address.symm (hsurvives₀.fiber f rfl)
    exact hsurvives.onStack env f henv hpos (h.load_iff.mpr ⟨hsame ▸ he₀, rfl⟩)
  · exact hresolves r fun a ha => (hmarked a).mpr ⟨r, hr, a, ha, .refl⟩
  · -- a symbol of the cache was not freed
    obtain ⟨hp, hfreed⟩ := List.mem_filter.mp hp
    have hmem := h.cache p hp
    have hkept : Memory.isMarked marked (p, .string true) = true := by
      rcases List.mem_append.mp hmem with hmem | hmem
      · by_contra hnot
        simp only [Bool.not_eq_true', List.any_eq_false, List.mem_filter, Bool.not_eq_true] at hfreed
        have hlost := hfreed (p, .string true) ⟨hmem, by simpa using hnot⟩
        simp at hlost
      · have := h.weak _ hmem
        cases this
    obtain ⟨e', he', hsurvives⟩ := sweep_mem h hmem hkept
    have heq : e' = (p, .string true) := Prod.ext hsurvives.address (hsurvives.symbol rfl)
    exact heq ▸ he'

/-- **A collection ends**, with everything marked that can be reached. -/
theorem exists_collected (h : m.Sound) (hsuspend : m.gcSuspend = 0) : ∃ marked, m.collect = some (m.collected marked) ∧
    (m.collected marked).Sound ∧ ∀ a, a ∈ marked ↔ Rooted target m.edges m.rootRefs a := by
  obtain ⟨marked, hmark, hmarked⟩ := mark_memory h
  have hs := sound_sweep h hmarked
  refine ⟨marked, ?_, ⟨hs.nodup, hs.strong, hs.weak, hs.count, hs.refs, hs.weakRefs, hs.looksAt, hs.onStack, hs.roots,
    hs.cache⟩, hmarked⟩
  rw [Memory.collect, if_neg (not_not.mpr hsuspend)]
  simp only [hmark, Option.bind_eq_bind, Option.bind_some]

/-- **A collection frees exactly the blocks that cannot be reached from the roots, and leaves nothing dangling**: not even a
weak reference. What is left is as it was, but for weak references and for the environments of functions. -/
theorem collect_spec (h : m.Sound) (hsuspend : m.gcSuspend = 0) : ∃ m', m.collect = some m' ∧ m'.Sound ∧
    m'.rootRefs = m.rootRefs ∧ (∀ a, (∃ b, m'.load a = some b) ↔ Rooted target m.edges m.rootRefs a) ∧
      ∀ e ∈ m.all, m.Reached e → e.2.isWeak = false → e.2.kind ≠ .funcenv → e ∈ m'.all := by
  obtain ⟨marked, hcollect, hsound, hmarked⟩ := exists_collected h hsuspend
  refine ⟨_, hcollect, hsound, rfl, fun a => ⟨?_, fun ha => ?_⟩, fun e he hreached hweak henv => ?_⟩
  · rintro ⟨b', hb'⟩
    obtain ⟨hmem, hkind⟩ := hsound.load_iff.mp hb'
    obtain ⟨e, he, hkept, hsurvives⟩ := mem_sweep h hmem
    have ha : (e.2.kind, e.1) = a := Prod.ext (hsurvives.kind.symm.trans hkind) hsurvives.address.symm
    exact ha ▸ (hmarked _).mp (of_decide_eq_true hkept)
  · obtain ⟨b, hb⟩ := reached_load h ha
    exact load_sweep h hb ((hmarked a).mpr ha)
  · have hblocks : e ∈ m.blocks := by
      rcases List.mem_append.mp he with he | he
      · exact he
      · rw [h.weak e he] at hweak
        cases hweak
    refine List.mem_append_left _ (List.mem_map.mpr ⟨e, List.mem_filter.mpr ⟨hblocks, ?_⟩, ?_⟩)
    · exact decide_eq_true ((hmarked _).mpr hreached)
    · obtain ⟨p, b⟩ := e
      have hself : m.settled p b = some b := by
        cases b with
        | funcenv env => exact absurd rfl henv
        | _ => rfl
      rw [Memory.settle, hself]
      rfl

end Sweep

end SwiftJanet.GC

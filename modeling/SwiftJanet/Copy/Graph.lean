import SwiftJanet.Copy.CopyOut
import SwiftJanet.VM.Equals

/-!
# Copying as a walk

`Heap.view` shows a heap to the walk: containers are nodes, arrays and tables have identities, and the children of a
dictionary are its live keys and values in turn. `initRaw_eq_walk`: copying a value out is the walk over it.
-/

namespace SwiftJanet

open Lib

/-! ## Dictionaries as nodes -/

/-- Entries from keys and values in turn. -/
def pairUp {α : Type} : List α → List (α × α)
  | k :: v :: rest => (k, v) :: pairUp rest
  | _ => []

section View

variable [CanonicalForm]

/-- The dictionary that keys and values in turn make. -/
def buildDictionary (rs : List JanetValue) : List (JanetValue × JanetValue) :=
  Assoc.ofEntries JanetValue.equal (pairUp rs)

/-- A container, by its kind and the address of its kind. -/
inductive Container where
  | tuple (p : Nat)
  | array (p : Nat)
  | struct (p : Nat)
  | table (p : Nat)
deriving DecidableEq, Repr

/-- The address under which copying tracks the container. -/
def Container.address : Container → Option Address
  | .tuple _ | .struct _ => none
  | .array p => some (.array p)
  | .table p => some (.table p)

/-- The Swift value that the copied children make. -/
def Container.build : Container → List JanetValue → JanetValue
  | .tuple _, rs => .tuple rs
  | .array _, rs => .array rs
  | .struct _, rs => .struct (buildDictionary rs)
  | .table _, rs => .table (buildDictionary rs)

/-- The children that copying visits, in order. -/
def Heap.children (heap : Heap) : Container → List Janet
  | .tuple p => (heap.tuples.get p).data
  | .array p => (heap.arrays.get p).elements
  | .struct p => alternate (live (heap.structs.get p).data)
  | .table p => alternate (live (heap.tables.get p).cells)

/-- The block of the container is not `NULL`. -/
def Heap.hasBlock (heap : Heap) : Container → Bool
  | .tuple _ | .struct _ => true
  | .array p => (heap.arrays.get p).data.isSome
  | .table p => (heap.tables.get p).data.isSome

/-- The container as a node. -/
def Heap.node (heap : Heap) (c : Container) : View Janet Address JanetValue :=
  .node c.address (heap.hasBlock c) (heap.children c) c.build

/-- What a walk sees at a pointer: nothing behind `NULL`. -/
def behind (p : Option Nat) (see : Nat → View Janet Address JanetValue) : View Janet Address JanetValue :=
  match p with
  | none => .null
  | some p => see p

/-- What a walk sees at a raw value. -/
def Heap.view (heap : Heap) (raw : Janet) : View Janet Address JanetValue :=
  match janetType raw with
  | .nil => .leaf .nil
  | .boolean => .leaf (.boolean (janetUnwrapBoolean raw))
  | .number => .leaf (.number (janetUnwrapNumber raw))
  | .string => behind (janetUnwrapString raw) fun p => .leaf (.string (Text.decoding (heap.strings.get p)))
  | .keyword => behind (janetUnwrapKeyword raw) fun p => .leaf (.keyword (Text.decoding (heap.strings.get p)))
  | .symbol => behind (janetUnwrapSymbol raw) fun p => .leaf (.symbol (Text.decoding (heap.strings.get p)))
  | .tuple => behind (janetUnwrapTuple raw) fun p => heap.node (.tuple p)
  | .array => behind (janetUnwrapArray raw) fun p => heap.node (.array p)
  | .struct => behind (janetUnwrapStruct raw) fun p => heap.node (.struct p)
  | .table => behind (janetUnwrapTable raw) fun p => heap.node (.table p)
  | other => .leaf (.unsupported (janetTypeNames other))

/-- `raw` points to the container `c`. -/
def Container.IsAt (c : Container) (raw : Janet) : Prop :=
  match c with
  | .tuple p => janetType raw = .tuple ∧ janetUnwrapTuple raw = some p
  | .array p => janetType raw = .array ∧ janetUnwrapArray raw = some p
  | .struct p => janetType raw = .struct ∧ janetUnwrapStruct raw = some p
  | .table p => janetType raw = .table ∧ janetUnwrapTable raw = some p

/-- A raw value that points to a container is seen as its node. -/
theorem view_of_isAt {raw : Janet} {c : Container} (heap : Heap) (h : c.IsAt raw) : heap.view raw = heap.node c := by
  cases c <;> simp only [Heap.view, h.1, h.2, behind]

omit [CanonicalForm] in
/-- A raw value points to one container. -/
theorem isAt_unique {raw : Janet} {c d : Container} (hc : c.IsAt raw) (hd : d.IsAt raw) : c = d := by
  cases c <;> cases d <;> first
    | (cases Option.some.inj (hc.2.symm.trans hd.2); rfl)
    | cases hc.1.symm.trans hd.1

/-- Only containers are seen as nodes. -/
theorem view_eq_node {heap : Heap} {raw : Janet} {id : Option Address} {i : Bool} {kids : List Janet}
    {build : List JanetValue → JanetValue} (h : heap.view raw = .node id i kids build) :
    ∃ c : Container, c.IsAt raw ∧ id = c.address ∧ i = heap.hasBlock c ∧ kids = heap.children c ∧ build = c.build := by
  have close : ∀ c : Container, c.IsAt raw → ∃ c : Container, c.IsAt raw ∧ id = c.address ∧ i = heap.hasBlock c ∧
      kids = heap.children c ∧ build = c.build := by
    intro c hc
    rw [view_of_isAt heap hc] at h
    injection h with h1 h2 h3 h4
    exact ⟨c, hc, h1.symm, h2.symm, h3.symm, h4.symm⟩
  have hv := h
  rw [Heap.view] at hv
  cases ht : janetType raw with
  | tuple => rw [ht] at hv; cases hp : janetUnwrapTuple raw with
    | none => rw [hp] at hv; cases hv
    | some p => exact close (.tuple p) ⟨ht, hp⟩
  | array => rw [ht] at hv; cases hp : janetUnwrapArray raw with
    | none => rw [hp] at hv; cases hv
    | some p => exact close (.array p) ⟨ht, hp⟩
  | struct => rw [ht] at hv; cases hp : janetUnwrapStruct raw with
    | none => rw [hp] at hv; cases hv
    | some p => exact close (.struct p) ⟨ht, hp⟩
  | table => rw [ht] at hv; cases hp : janetUnwrapTable raw with
    | none => rw [hp] at hv; cases hv
    | some p => exact close (.table p) ⟨ht, hp⟩
  | string => rw [ht] at hv; cases hp : janetUnwrapString raw <;> rw [hp] at hv <;> cases hv
  | keyword => rw [ht] at hv; cases hp : janetUnwrapKeyword raw <;> rw [hp] at hv <;> cases hv
  | symbol => rw [ht] at hv; cases hp : janetUnwrapSymbol raw <;> rw [hp] at hv <;> cases hv
  | _ => rw [ht] at hv; cases hv

/-- The limit, errors and trap of copying. -/
def copyRules : Rules JanetError Trap where
  limit := maxValueNestingDepth
  tooDeep := nestedDeeper
  cycle := containsCycle
  null := .null

/-! ## The loops -/

section Loops

variable {copy : Janet → CopyPath → Result (JanetValue × CopyPath)}

omit [CanonicalForm] in
/-- The loop over elements collects what a walk over them gives. -/
theorem copyEach_eq : ∀ (elements : List Janet) (result : List JanetValue) (path : CopyPath),
    copyEach copy elements result path =
      (walkList copy elements path >>= fun (values, path) => .returns (result ++ values, path))
  | [], result, path => by simp [copyEach, walkList]
  | element :: elements, result, path => by
    rw [copyEach, walkList]
    cases h : copy element path with
    | returns p =>
      simp only [Outcome.returns_bind, copyEach_eq elements, Outcome.bind_assoc, List.append_assoc,
        List.singleton_append]
    | throws e => rfl
    | traps t => rfl
    | unfinished => rfl

omit [CanonicalForm] in
/-- Copying elements is a walk over them. -/
theorem copyElements_eq (elements : List Janet) (path : CopyPath) :
    copyElements copy (some elements) path = walkList copy elements path := by
  simp only [copyElements, copyEach_eq, List.nil_append]
  cases walkList copy elements path <;> rfl

/-- The loop over a dictionary, from the cells `rest` on, puts the live entries one after the other. -/
theorem copyEntries_eq : ∀ (n : Nat) (left rest : List JanetKV) (result : List (JanetValue × JanetValue))
    (path : CopyPath), rest.length + 1 ≤ n →
    copyEntries copy (left ++ rest) n (nextFrom rest left.length) result path =
      (walkList copy (alternate (live rest)) path >>= fun (rs, path) =>
        .returns ((pairUp rs).foldl (fun d e => Assoc.put JanetValue.equal d e.1 e.2) result, path))
  | 0, _, _, _, _, h => absurd h (by omega)
  | n + 1, left, rest, result, path, h => by
    cases hnext : nextFrom rest left.length with
    | none =>
      rw [nextFrom_eq_none hnext]
      rfl
    | some j =>
      obtain ⟨skipped, kv, right, rfl, rfl, hlive, hskip⟩ := nextFrom_eq_some hnext
      have hcell : (left ++ (skipped ++ kv :: right))[left.length + skipped.length]? = some kv := by
        rw [← List.append_assoc, ← List.length_append, List.getElem?_append_right (Nat.le_refl _)]
        simp
      have hstep : janetDictionaryNext (left ++ (skipped ++ kv :: right)) (some (left.length + skipped.length)) =
          nextFrom right (left ++ skipped ++ [kv]).length := by
        have hdrop : (left ++ (skipped ++ kv :: right)).drop (left.length + skipped.length + 1) = right := by
          rw [show left ++ (skipped ++ kv :: right) = (left ++ skipped ++ [kv]) ++ right by simp,
            show left.length + skipped.length + 1 = (left ++ skipped ++ [kv]).length by simp; omega, List.drop_left]
        rw [janetDictionaryNext]
        simp only [hdrop]
        congr 1
        simp
        omega
      have hrest : live (skipped ++ kv :: right) = kv :: live right := by
        rw [live_append, hskip, List.nil_append, live, List.filter_cons_of_pos hlive]; rfl
      have ih := fun result path => copyEntries_eq n (left ++ skipped ++ [kv]) right result path (by simp at h; omega)
      rw [show left ++ skipped ++ [kv] ++ right = left ++ (skipped ++ kv :: right) by simp] at ih
      rw [copyEntries, hcell, hrest]
      simp only [alternate, List.flatMap_cons, List.cons_append, List.nil_append, walkList, hstep, ih]
      cases hk : copy kv.key path with
      | returns p =>
        obtain ⟨key, path⟩ := p
        simp only [Outcome.returns_bind]
        cases hv : copy kv.value path with
        | returns q => simp only [Outcome.returns_bind, Outcome.bind_assoc]; rfl
        | throws e => rfl
        | traps t => rfl
        | unfinished => rfl
      | throws e => rfl
      | traps t => rfl
      | unfinished => rfl

/-- Copying a dictionary puts all its live entries. -/
theorem copyDictionary_eq (kvs : List JanetKV) (path : CopyPath) : copyDictionary copy (some kvs) path =
    (walkList copy (alternate (live kvs)) path >>= fun (rs, path) => .returns (buildDictionary rs, path)) :=
  copyEntries_eq (kvs.length + 1) [] kvs [] path (Nat.le_refl _)

end Loops

/-! ## The walk -/

omit [CanonicalForm] in
theorem enter_eq (path : CopyPath) (container : Option Address) :
    CopyPath.enter path container = Path.enter copyRules path container := by
  cases container <;> rfl

omit [CanonicalForm] in
theorem leave_eq (path : CopyPath) (container : Option Address) :
    CopyPath.leave path container = Path.leave path container := by
  cases container <;> rfl

/-- **Copying a value out is the walk over the heap from it.** -/
theorem initRaw_eq_walk (heap : Heap) : ∀ (n : Nat) (raw : Janet) (path : CopyPath),
    initRaw heap n raw path = walk copyRules heap.view n raw path
  | n, raw, path => by
    have ih : ∀ m, m < n → initRaw heap m = walk copyRules heap.view m :=
      fun m _ => funext fun raw => funext fun path => initRaw_eq_walk heap m raw path
    rw [initRaw]
    cases ht : janetType raw with
    | tuple =>
      cases hp : janetUnwrapTuple raw with
      | none => rw [walk_null (by simp only [Heap.view, ht, hp, behind])]; rfl
      | some p =>
        have hv := view_of_isAt (c := .tuple p) heap ⟨ht, hp⟩
        cases n with
        | zero => rw [walk_node_zero hv]
        | succ n =>
          simp only [walk_node hv, ih n (by omega), copyElements_eq, enter_eq, leave_eq]
          rfl
    | array =>
      cases hp : janetUnwrapArray raw with
      | none => rw [walk_null (by simp only [Heap.view, ht, hp, behind])]; rfl
      | some p =>
        have hv := view_of_isAt (c := .array p) heap ⟨ht, hp⟩
        cases n with
        | zero => rw [walk_node_zero hv]
        | succ n =>
          rw [walk_node hv]
          cases h : (heap.arrays.get p).data with
          | none => simp only [h, enter_eq, copyElements, Heap.hasBlock]; rfl
          | some data =>
            simp only [h, ih n (by omega), copyElements_eq, enter_eq, leave_eq, Heap.hasBlock, Heap.children,
              JanetArray.elements]
            rfl
    | struct =>
      cases hp : janetUnwrapStruct raw with
      | none => rw [walk_null (by simp only [Heap.view, ht, hp, behind])]; rfl
      | some p =>
        have hv := view_of_isAt (c := .struct p) heap ⟨ht, hp⟩
        cases n with
        | zero => rw [walk_node_zero hv]
        | succ n =>
          simp only [walk_node hv, ih n (by omega), copyDictionary_eq, enter_eq, leave_eq, Outcome.bind_assoc]
          rfl
    | table =>
      cases hp : janetUnwrapTable raw with
      | none => rw [walk_null (by simp only [Heap.view, ht, hp, behind])]; rfl
      | some p =>
        have hv := view_of_isAt (c := .table p) heap ⟨ht, hp⟩
        cases n with
        | zero => rw [walk_node_zero hv]
        | succ n =>
          rw [walk_node hv]
          cases h : (heap.tables.get p).data with
          | none => simp only [h, enter_eq, copyDictionary, Heap.hasBlock]; rfl
          | some kvs =>
            simp only [h, ih n (by omega), copyDictionary_eq, enter_eq, leave_eq, Heap.hasBlock, Heap.children,
              JanetTable.cells, Outcome.bind_assoc]
            rfl
    | string => rw [walk, Heap.view, ht]; cases janetUnwrapString raw <;> rfl
    | keyword => rw [walk, Heap.view, ht]; cases janetUnwrapKeyword raw <;> rfl
    | symbol => rw [walk, Heap.view, ht]; cases janetUnwrapSymbol raw <;> rfl
    | _ => rw [walk, Heap.view, ht]

end View

end SwiftJanet

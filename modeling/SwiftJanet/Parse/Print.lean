import SwiftJanet.Parse.Parser

/-!
# Printing data

`printJdn`: how the VM prints a piece of data so that it can be read again, as `%j` does. A piece of data is the tree that
a value spells, with the entries of a struct or a table in the order of their cells; prototypes are not printed.

How a number is printed is a parameter.
-/

namespace SwiftJanet.Parse

/-! ## Strings -/

/-- A digit of `janet_base64` below sixteen. -/
def hexDigit (n : UInt8) : UInt8 := if n < 10 then byte '0' + n else byte 'A' + (n - 10)

/-- How `janet_escape_string_impl` prints a byte. -/
def escapeByte (c : UInt8) : List UInt8 :=
  if c == byte '"' then [byte '\\', byte '"']
  else if c == 10 then [byte '\\', byte 'n']
  else if c == 13 then [byte '\\', byte 'r']
  else if c == 0 then [byte '\\', byte '0']
  else if c == 12 then [byte '\\', byte 'f']
  else if c == 11 then [byte '\\', byte 'v']
  else if c == 7 then [byte '\\', byte 'a']
  else if c == 8 then [byte '\\', byte 'b']
  else if c == 27 then [byte '\\', byte 'e']
  else if c == byte '\\' then [byte '\\', byte '\\']
  else if c == 9 then [byte '\\', byte 't']
  else if c < 32 || c > 126 then [byte '\\', byte 'x', hexDigit (c >>> 4 &&& 0xF), hexDigit (c &&& 0xF)]
  else [c]

/-- `janet_escape_string_impl`. -/
def escapeString (bytes : List UInt8) : List UInt8 := byte '"' :: bytes.flatMap escapeByte ++ [byte '"']

/-! ## Names -/

/-- The byte is a digit. -/
def isDigit (c : UInt8) : Bool := byte '0' ≤ c && c ≤ byte '9'

/-- `contains_bad_chars`. -/
def containsBadChars (name : List UInt8) (issym : Bool) : Bool :=
  (issym && (name.head?.map isDigit).getD false) || !janetValidUtf8 name || name.any fun c => !janetIsSymbolChar c

/-! ## Data -/

section Printing

variable (dtostr : Double → List UInt8)

/-- The number is infinite. -/
def isInfinite (d : Double) : Bool := d.bits &&& 0x7FFFFFFFFFFFFFFF#64 == 0x7FF0000000000000#64

/-- The elements one after the other, with spaces between them. -/
def spaced : List (List UInt8) → List UInt8
  | [] => []
  | [item] => item
  | item :: items => item ++ byte ' ' :: spaced items

/-- `print_jdn_one`: `none` where it gives up, at a depth of zero or before what cannot be read again. -/
def printJdn : Nat → Datum → Option (List UInt8)
  | 0, _ => none
  | depth + 1, d =>
    let inside (opening closing : String) (items : List Datum) : Option (List UInt8) := do
      .some (opening.toList.map byte ++ spaced (← items.mapM (printJdn depth)) ++ closing.toList.map byte)
    match d with
    | .nil => some ("nil".toList.map byte)
    | .boolean flag => some ((if flag then "true" else "false").toList.map byte)
    | .number d => if d.isNaN || isInfinite d then none else some (dtostr d)
    | .string bytes => some (escapeString bytes)
    | .buffer bytes => some (byte '@' :: escapeString bytes)
    | .symbol name => if containsBadChars name true then none else some name
    | .keyword name => if containsBadChars name false then none else some (byte ':' :: name)
    | .tuple bracketed _ _ items => if bracketed then inside "[" "]" items else inside "(" ")" items
    | .array items => inside "@[" "]" items
    | .table items => inside "@\x7b" "\x7d" items
    | .struct items => inside "\x7b" "\x7d" items
    | .int _ _ => none
    | .value _ => none

end Printing

/-! ## Data without places -/

mutual

/-- The data without the places of its tuples. -/
def Datum.plain : Datum → Datum
  | .tuple bracketed _ _ items => .tuple bracketed 0 0 (plainAll items)
  | .array items => .array (plainAll items)
  | .struct items => .struct (plainAll items)
  | .table items => .table (plainAll items)
  | .nil => .nil
  | .boolean flag => .boolean flag
  | .number d => .number d
  | .int signed bits => .int signed bits
  | .string bytes => .string bytes
  | .buffer bytes => .buffer bytes
  | .symbol name => .symbol name
  | .keyword name => .keyword name
  | .value x => .value x

def plainAll : List Datum → List Datum
  | [] => []
  | d :: ds => d.plain :: plainAll ds

end

/-- Entries as a struct or a table has them: each is stored, under a key of its own. Places tell no keys apart. -/
structure Separate (literals : Literals) (items : List Datum) : Prop where
  pairs : items.length % 2 = 0
  stored : ∀ e ∈ Datum.entries items, e.1.isNil = false ∧ e.2.isNil = false ∧ e.1.isNaN = false
  keys : (Datum.entries items).Pairwise fun e e' => ∀ d d' : Datum, d.plain = e.1.plain → d'.plain = e'.1.plain →
    literals.equals d d' = false

section Entries

variable {literals : Literals} {items items' : List Datum}

theorem length_plainAll : ∀ items : List Datum, (plainAll items).length = items.length
  | [] => rfl
  | _ :: items => by rw [plainAll, List.length_cons, List.length_cons, length_plainAll items]

/-- The entries of data without places. -/
theorem entries_plainAll : ∀ items : List Datum,
    Datum.entries (plainAll items) = (Datum.entries items).map fun e => (e.1.plain, e.2.plain)
  | [] => rfl
  | [d] => rfl
  | k :: v :: items => by
    rw [plainAll, plainAll, Datum.entries, Datum.entries, List.map_cons, entries_plainAll items]

theorem isNil_plain (d : Datum) : d.plain.isNil = d.isNil := by cases d <;> rfl

theorem isNaN_plain (d : Datum) : d.plain.isNaN = d.isNaN := by cases d <;> rfl

/-- Entries are separate whatever the places. -/
theorem Separate.of_plain (h : Separate literals items) (hplain : plainAll items' = plainAll items) :
    Separate literals items' := by
  have hentries := (entries_plainAll items').symm.trans (hplain ▸ entries_plainAll items)
  refine ⟨by rw [← length_plainAll, hplain, length_plainAll]; exact h.pairs, fun e he => ?_, ?_⟩
  · have hmem : (e.1.plain, e.2.plain) ∈ (Datum.entries items).map fun e => (e.1.plain, e.2.plain) :=
      hentries ▸ List.mem_map_of_mem he
    obtain ⟨e', he', heq⟩ := List.mem_map.mp hmem
    obtain ⟨hkey, hvalue⟩ := Prod.mk.inj heq
    have hstored := h.stored e' he'
    rw [← isNil_plain e'.1, ← isNil_plain e'.2, ← isNaN_plain, hkey, hvalue, isNil_plain, isNil_plain, isNaN_plain] at hstored
    exact hstored
  · let R (e e' : Datum × Datum) : Prop :=
      ∀ d d' : Datum, d.plain = e.1 → d'.plain = e'.1 → literals.equals d d' = false
    have hkeys : ((Datum.entries items).map fun e => (e.1.plain, e.2.plain)).Pairwise R := List.pairwise_map.mpr h.keys
    rw [← hentries] at hkeys
    exact List.pairwise_map.mp hkeys

theorem listed_entries : ∀ {items : List Datum}, items.length % 2 = 0 → Datum.listed (Datum.entries items) = items
  | [], _ => rfl
  | [_], h => by cases h
  | k :: v :: items, h => by
    have hrest := @listed_entries items (by simp only [List.length_cons] at h; omega)
    rw [Datum.listed] at hrest
    rw [Datum.entries, Datum.listed, List.flatMap_cons, hrest]
    rfl

/-- A key that is new goes behind the others. -/
theorem replace_new {key value : Datum} : ∀ {es : List (Datum × Datum)}, (∀ e ∈ es, literals.equals e.1 key = false) →
    literals.replace key value es = es ++ [(key, value)]
  | [], _ => rfl
  | e :: es, h => by
    rw [Literals.replace, if_neg (by simp [h e]), replace_new fun e he => h e (List.mem_cons_of_mem _ he)]
    rfl

/-- Puts that each add an entry list them all. -/
theorem foldl_put {f : List (Datum × Datum) → Datum × Datum → List (Datum × Datum)} {P : Datum × Datum → Prop}
    (hf : ∀ es e, P e → (∀ e' ∈ es, literals.equals e'.1 e.1 = false) → f es e = es ++ [e]) :
    ∀ {es acc : List (Datum × Datum)}, (∀ e ∈ es, P e) →
      (acc ++ es).Pairwise (fun e e' : Datum × Datum => literals.equals e.1 e'.1 = false) → es.foldl f acc = acc ++ es
  | [], acc, _, _ => (List.append_nil acc).symm
  | e :: es, acc, hall, hkeys => by
    have hnew := (List.pairwise_append.mp hkeys).2.2
    rw [List.foldl_cons, hf acc e (hall e (List.mem_cons_self ..)) fun e' he' => hnew e' he' e (List.mem_cons_self ..),
      foldl_put hf (fun e he => hall e (List.mem_cons_of_mem _ he)) (by rwa [List.append_assoc]), List.append_assoc]
    rfl

/-- **Separate entries are stored as they are listed.** -/
theorem Separate.literal (h : Separate literals items) :
    literals.struct items = .struct items ∧ literals.table items = .table items := by
  have hkeys : ([] ++ Datum.entries items).Pairwise (fun e e' : Datum × Datum => literals.equals e.1 e'.1 = false) :=
    h.keys.imp fun hne => hne _ _ rfl rfl
  have hstruct : (Datum.entries items).foldl literals.structPut [] = [] ++ Datum.entries items :=
    foldl_put (fun es e he hnew => by
      rw [Literals.structPut, he.1, he.2.1, he.2.2]
      exact replace_new hnew) h.stored hkeys
  have htable : (Datum.entries items).foldl literals.tablePut [] = [] ++ Datum.entries items :=
    foldl_put (fun es e he hnew => by
      rw [Literals.tablePut, he.1, he.2.1, he.2.2]
      exact replace_new hnew) h.stored hkeys
  rw [Literals.struct, Literals.table, hstruct, htable]
  exact ⟨congrArg Datum.struct (listed_entries h.pairs), congrArg Datum.table (listed_entries h.pairs)⟩

end Entries

/-- What the parser makes again of what is printed: the numbers have to be scanned as they were printed, and the symbols
must not be taken for something else. Symbols that are empty, or spelled as `nil`, a boolean, a number or a keyword, are
printed and not read again. -/
inductive Readable (literals : Literals) (dtostr : Double → List UInt8) : Datum → Prop
  | nil : Readable literals dtostr .nil
  | boolean (flag : Bool) : Readable literals dtostr (.boolean flag)
  | number {d : Double} {first : UInt8} {rest : List UInt8} (h : dtostr d = first :: rest)
      (hfirst : isDigit first = true ∨ first = byte '-') (hall : ∀ c ∈ dtostr d, janetIsSymbolChar c = true)
      (hscan : literals.scanNumber (dtostr d) = some (.number d)) : Readable literals dtostr (.number d)
  | string (bytes : List UInt8) : Readable literals dtostr (.string bytes)
  | buffer (bytes : List UInt8) : Readable literals dtostr (.buffer bytes)
  | keyword (name : List UInt8) : Readable literals dtostr (.keyword name)
  | symbol {name : List UInt8} {first : UInt8} (hfirst : name.head? = some first) (hcolon : first ≠ byte ':')
      (hscan : first = byte '-' ∨ first = byte '+' ∨ first = byte '.' → literals.scanNumber name = none)
      (hwords : name ≠ "nil".toList.map byte ∧ name ≠ "false".toList.map byte ∧ name ≠ "true".toList.map byte) :
      Readable literals dtostr (.symbol name)
  | tuple {bracketed : Bool} {line column : Int} {items : List Datum} (h : ∀ d ∈ items, Readable literals dtostr d) :
      Readable literals dtostr (.tuple bracketed line column items)
  | array {items : List Datum} (h : ∀ d ∈ items, Readable literals dtostr d) : Readable literals dtostr (.array items)
  | struct {items : List Datum} (hentries : Separate literals items) (h : ∀ d ∈ items, Readable literals dtostr d) :
      Readable literals dtostr (.struct items)
  | table {items : List Datum} (hentries : Separate literals items) (h : ∀ d ∈ items, Readable literals dtostr d) :
      Readable literals dtostr (.table items)

end SwiftJanet.Parse

import Asm6502.Assembly.Run
import Asm6502.Proofs.SymbolTable
import Mathlib.Algebra.Ring.Int.Defs
import Mathlib.Algebra.Ring.Nat

/-!
# Layouts

The output of a statement as a list of items.  An item is either settled when
the statement is reached (an opcode, a number, a string, padding), or it is a
field for a name.  The sizes of all items are known at once, so a layout tells
where each item stands before any name has a value.

A layout gives rise to bytes in two ways.  `Item.placed` uses only what was known
when the statement was reached and leaves zeros for everything else; this is
what a single pass can do.  `Item.encoded` uses a symbol table that is given
separately; with the table at the end of the source it is the second pass of an
assembler that makes two.
-/

namespace Asm6502

namespace Field

def littleEndian (width : Nat) (n : Int) : List UInt8 :=
  (List.range width).map fun i => UInt8.ofNat (n / 256 ^ i % 256).toNat

@[simp] theorem length_littleEndian (width : Nat) (n : Int) :
    (littleEndian width n).length = width := by
  simp [littleEndian]

theorem bytes_eq_littleEndian {width : Nat} (h : width = 1 ∨ width = 2)
    (n : Int) : bytes n width = littleEndian width n := by
  rcases h with rfl | rfl <;>
    simp [bytes, littleEndian, List.range_succ, UInt8.ofInt]

end Field

/-!
## Items
-/

/-- A field of the output that is given by a name. -/
structure NamedField where
  name : Text
  width : Nat
  /-- Whether the field holds the distance from the address after it. -/
  branch : Bool
  position : Position
  /-- The value of the name when the statement was reached; none if the name was
  pending then. -/
  known : Option Int
  deriving DecidableEq

namespace NamedField

def stored (f : NamedField) (address value : Int) : Int :=
  if f.branch then wrap64 (value - (address + f.width)) else value

/-- Whether a number can be stored: a distance is a signed number, and anything
else may also be an unsigned one. -/
def admits (f : NamedField) (n : Int) : Bool :=
  if f.branch then -128 ≤ n && n ≤ 127
  else -(2 ^ (8 * f.width - 1)) ≤ n && n < 2 ^ (8 * f.width)

def zeros (f : NamedField) : List UInt8 :=
  List.replicate f.width 0

def reference (f : NamedField) (address : Int) : Reference :=
  if f.branch then .relative (wrap64 (address + f.width)) else .absolute

def misfit (f : NamedField) (address value : Int) : Reference.Fault :=
  if f.branch then .tooFar (f.stored address value)
  else .tooWide value f.width

theorem admits_eq_fits {f : NamedField} (hwidth : f.width = 1 ∨ f.width = 2)
    (hbranch : f.branch = false) (n : Int) :
    f.admits n = Field.fits n f.width := by
  have hbyte : (n < 256) = (n ≤ 255) := by
    rw [eq_iff_iff]
    omega
  have hword : (n < 65536) = (n ≤ 65535) := by
    rw [eq_iff_iff]
    omega
  rcases hwidth with hw | hw
  · simp [admits, Field.fits, hbranch, hw, hbyte]
  · simp [admits, Field.fits, hbranch, hw, hword]

theorem encode_reference {f : NamedField} (hwidth : f.width = 1 ∨ f.width = 2)
    (hbranch : f.branch = true -> f.width = 1) (address value : Int) :
    (f.reference address).encode value f.width =
      if f.admits (f.stored address value) then .ok (f.stored address value)
      else .error (f.misfit address value) := by
  cases hb : f.branch with
  | true =>
      simp only [reference, admits, stored, misfit, hb, hbranch hb, if_true,
        Reference.encode, wrap64_sub_right]
      generalize wrap64 (value - (address + (1 : Nat))) = distance
      by_cases h : distance < -128 ∨ 127 < distance
      · simp [h]
        omega
      · simp [h]
        omega
  | false =>
      rw [admits_eq_fits hwidth hb]
      simp [reference, stored, misfit, hb, Reference.encode]

end NamedField

inductive Item where
  | literal (bytes : List UInt8)
  | named (field : NamedField)
  deriving DecidableEq

namespace Item

def size : Item -> Nat
  | literal bytes => bytes.length
  | named f => f.width

/-- The bytes of an item as far as they are known when it is reached. -/
def placed (address : Int) : Item -> List UInt8
  | literal bytes => bytes
  | named f =>
      match f.known with
      | some value => Field.littleEndian f.width (f.stored address value)
      | none => f.zeros

/-- The bytes of an item with the names as a table has them.  A name that was
pending and has no value, or none that the field admits, leaves zeros. -/
def encoded (table : SymbolTable) (address : Int) : Item -> List UInt8
  | literal bytes => bytes
  | named f =>
      match table.value? f.name with
      | none => f.zeros
      | some value =>
          if f.known.isNone && !f.admits (f.stored address value) then f.zeros
          else Field.littleEndian f.width (f.stored address value)

def misfit? (table : SymbolTable) (address : Int) : Item -> Option Diagnostic
  | literal _ => none
  | named f =>
      match table.value? f.name with
      | none => none
      | some value =>
          if f.known.isNone && !f.admits (f.stored address value) then
            some ⟨.range (.fixup f.name (f.misfit address value)), f.position⟩
          else none

@[simp] theorem length_placed (address : Int) (item : Item) :
    (item.placed address).length = item.size := by
  cases item with
  | literal bytes => rfl
  | named f =>
      simp only [placed, size]
      split <;> simp [NamedField.zeros]

@[simp] theorem length_encoded (table : SymbolTable) (address : Int)
    (item : Item) : (item.encoded table address).length = item.size := by
  cases item with
  | literal bytes => rfl
  | named f =>
      simp only [encoded, size]
      split
      · simp [NamedField.zeros]
      · split <;> simp [NamedField.zeros]

/-- Fields are one or two bytes wide, distances one; and a value known when the
item was reached is the one in the table and is admitted. -/
def Sound (table : SymbolTable) (address : Int) : Item -> Prop
  | literal _ => True
  | named f =>
      (f.width = 1 ∨ f.width = 2) ∧ (f.branch = true -> f.width = 1) ∧
        ∀ value, f.known = some value ->
          table.value? f.name = some value ∧
            f.admits (f.stored address value) = true

theorem Sound.grows {before after : SymbolTable} {address : Int} {item : Item}
    (h : item.Sound before address) (hgrows : before.Grows after) :
    item.Sound after address := by
  cases item with
  | literal bytes => trivial
  | named f =>
      rcases h with ⟨hwidth, hbranch, hknown⟩
      refine ⟨hwidth, hbranch, ?_⟩
      intro value hvalue
      rcases hknown value hvalue with ⟨htable, hadmits⟩
      exact ⟨hgrows.value? htable, hadmits⟩

end Item

/-!
## Lists of items

Items stand one after another from an address on.
-/

namespace Layout

def concat (piece : Int -> Item -> List UInt8) (address : Int) :
    List Item -> List UInt8
  | [] => []
  | item :: rest =>
      piece address item ++ concat piece (address + item.size) rest

def size (items : List Item) : Nat :=
  (items.map Item.size).sum

def fixups (address : Int) (place : Nat) : List Item -> List Fixup
  | [] => []
  | .literal bytes :: rest =>
      fixups (address + bytes.length) (place + bytes.length) rest
  | .named f :: rest =>
      let more := fixups (address + f.width) (place + f.width) rest
      match f.known with
      | some _ => more
      | none =>
          ⟨place, f.name, f.width, f.reference address, f.position⟩ :: more

def misfits (table : SymbolTable) (address : Int) : List Item -> List Diagnostic
  | [] => []
  | item :: rest =>
      (item.misfit? table address).toList ++
        misfits table (address + item.size) rest

def All (p : Int -> Item -> Prop) (address : Int) : List Item -> Prop
  | [] => True
  | item :: rest => p address item ∧ All p (address + item.size) rest

@[simp] theorem size_nil : size [] = 0 := rfl

@[simp] theorem size_cons (item : Item) (rest : List Item) :
    size (item :: rest) = item.size + size rest := rfl

@[simp] theorem size_append (first second : List Item) :
    size (first ++ second) = size first + size second := by
  simp [size]

theorem concat_append (piece : Int -> Item -> List UInt8) (address : Int)
    (first second : List Item) :
    concat piece address (first ++ second) =
      concat piece address first ++
        concat piece (address + size first) second := by
  induction first generalizing address with
  | nil => simp [concat]
  | cons item rest ih =>
      simp only [List.cons_append, concat, ih, size_cons, List.append_assoc,
        Int.natCast_add, Int.add_assoc]

@[simp] theorem length_concat_placed (address : Int) (items : List Item) :
    (concat Item.placed address items).length = size items := by
  induction items generalizing address with
  | nil => rfl
  | cons item rest ih => simp [concat, ih]

theorem fixups_append (address : Int) (place : Nat) (first second : List Item) :
    fixups address place (first ++ second) =
      fixups address place first ++
        fixups (address + size first) (place + size first) second := by
  induction first generalizing address place with
  | nil => simp [fixups]
  | cons item rest ih =>
      cases item with
      | literal bytes =>
          simp only [List.cons_append, fixups, ih, size_cons, Item.size,
            Int.natCast_add, Int.add_assoc, Nat.add_assoc]
      | named f =>
          simp only [List.cons_append, fixups, ih, size_cons, Item.size,
            Int.natCast_add, Int.add_assoc, Nat.add_assoc]
          cases f.known <;> simp

/-- Fixups only depend on where the output begins through their places. -/
theorem fixups_shift (address : Int) (place shift : Nat) (items : List Item) :
    (fixups address place items).map
        (fun f => { f with offset := f.offset + shift }) =
      fixups address (place + shift) items := by
  induction items generalizing address place with
  | nil => rfl
  | cons item rest ih =>
      cases item with
      | literal bytes =>
          simp only [fixups, ih]
          rw [Nat.add_right_comm]
      | named f =>
          simp only [fixups]
          cases f.known with
          | some value =>
              simp only [ih]
              rw [Nat.add_right_comm]
          | none =>
              simp only [List.map_cons, ih]
              rw [Nat.add_right_comm]

theorem All_append {p : Int -> Item -> Prop} {address : Int}
    {first second : List Item} :
    All p address (first ++ second) ↔
      All p address first ∧ All p (address + size first) second := by
  induction first generalizing address with
  | nil => simp [All]
  | cons item rest ih =>
      simp only [List.cons_append, All, ih, size_cons, Int.natCast_add,
        Int.add_assoc, and_assoc]

theorem All.imp {p q : Int -> Item -> Prop} {address : Int} {items : List Item}
    (h : All p address items)
    (hpq : ∀ address item, p address item -> q address item) :
    All q address items := by
  induction items generalizing address with
  | nil => trivial
  | cons item rest ih => exact ⟨hpq address item h.1, ih h.2⟩

end Layout

/-!
## Addresses of 64 bits

What is made of an item depends on its address only as a number of 64 bits.
-/

section

variable {a b : Int}

theorem NamedField.stored_congr (h : wrap64 a = wrap64 b) (f : NamedField) (value : Int) :
    f.stored a value = f.stored b value := by
  simp only [stored, wrap64_sub_congr (wrap64_add_congr h f.width) value]

theorem NamedField.reference_congr (h : wrap64 a = wrap64 b) (f : NamedField) :
    f.reference a = f.reference b := by
  simp only [reference, wrap64_add_congr h f.width]

theorem Item.placed_congr (h : wrap64 a = wrap64 b) (item : Item) :
    item.placed a = item.placed b := by
  cases item with
  | literal bytes => rfl
  | named f => simp only [placed, f.stored_congr h]

theorem Item.encoded_congr (h : wrap64 a = wrap64 b) (table : SymbolTable) (item : Item) :
    item.encoded table a = item.encoded table b := by
  cases item with
  | literal bytes => rfl
  | named f => simp only [encoded, f.stored_congr h]

theorem Item.misfit?_congr {table : SymbolTable} (h : wrap64 a = wrap64 b) (item : Item) :
    item.misfit? table a = item.misfit? table b := by
  cases item with
  | literal bytes => rfl
  | named f => simp only [misfit?, NamedField.misfit, f.stored_congr h]

theorem Item.Sound.congr {table : SymbolTable} (h : wrap64 a = wrap64 b) {item : Item}
    (hsound : item.Sound table a) : item.Sound table b := by
  cases item with
  | literal bytes => trivial
  | named f => simpa only [Sound, f.stored_congr h] using hsound

namespace Layout

theorem concat_congr {piece : Int -> Item -> List UInt8}
    (hpiece : ∀ {a b : Int}, wrap64 a = wrap64 b -> ∀ item, piece a item = piece b item)
    (h : wrap64 a = wrap64 b) (items : List Item) :
    concat piece a items = concat piece b items := by
  induction items generalizing a b with
  | nil => rfl
  | cons item rest ih =>
      rw [concat, concat, hpiece h, ih (wrap64_add_congr h item.size)]

theorem misfits_congr {table : SymbolTable} (h : wrap64 a = wrap64 b) (items : List Item) :
    misfits table a items = misfits table b items := by
  induction items generalizing a b with
  | nil => rfl
  | cons item rest ih =>
      rw [misfits, misfits, item.misfit?_congr h, ih (wrap64_add_congr h item.size)]

theorem fixups_congr (h : wrap64 a = wrap64 b) (place : Nat) (items : List Item) :
    fixups a place items = fixups b place items := by
  induction items generalizing a b place with
  | nil => rfl
  | cons item rest ih =>
      cases item with
      | literal bytes => exact ih (wrap64_add_congr h bytes.length) _
      | named f =>
          simp only [fixups, f.reference_congr h, ih (wrap64_add_congr h f.width)]

theorem All.congr {table : SymbolTable} (h : wrap64 a = wrap64 b) {items : List Item}
    (hall : All (Item.Sound table) a items) : All (Item.Sound table) b items := by
  induction items generalizing a b with
  | nil => trivial
  | cons item rest ih =>
      exact ⟨hall.1.congr h, ih (wrap64_add_congr h item.size) hall.2⟩

end Layout
end
end Asm6502

import Mathlib.Data.Rat.Floor

namespace ShannonNet.Library

/-- A parsed document. Numbers stand as the parser keeps them: `unsigned` without a sign, `integer`
with one, `float` with a fraction or an exponent or too large for 64 bits. -/
inductive Json
  | null
  | boolean (b : Bool)
  | unsigned (n : ℕ)
  | integer (n : ℤ)
  | float (q : ℚ)
  | string (s : List Char)
  | array (vs : List Json)
  | object (fields : List (List Char × Json))

namespace Json

/-- How a typed read ends: with a value, with an exception on a value of another type, or outside
what the language defines. -/
inductive Read (α : Type)
  | value (v : α)
  | mismatch
  | undefined

variable {α β : Type}

def Read.bind : Read α → (α → Read β) → Read β
  | value v, f => f v
  | mismatch, _ => mismatch
  | undefined, _ => undefined

def Read.HasValue : Read α → Prop
  | value _ => True
  | _ => False

/-- `find`, with `none` for `end`: only objects have fields. -/
def find (key : List Char) : Json → Option Json
  | object fields => fields.lookup key
  | _ => none

def IsString : Json → Prop
  | string _ => True
  | _ => False

def IsNumber : Json → Prop
  | boolean _ => True
  | unsigned _ => True
  | integer _ => True
  | float _ => True
  | _ => False

/-- A fraction has its integral part in the type of `w` bits. -/
def Fits (w : ℕ) : Json → Prop
  | float q => -1 < q ∧ q < 2 ^ w
  | _ => True

def asString : Json → Read (List Char)
  | string s => .value s
  | _ => .mismatch

/-- The conversion to an unsigned type of `w` bits, which truncates and converts truth values. -/
def asUnsigned (w : ℕ) : Json → Read ℕ
  | boolean b => .value b.toNat
  | unsigned n => .value (n % 2 ^ w)
  | integer n => .value (n % 2 ^ w).toNat
  | float q => if -1 < q ∧ q < 2 ^ w then .value ⌊q⌋.toNat else .undefined
  | _ => .mismatch

theorem asString_hasValue_iff {j : Json} : j.asString.HasValue ↔ j.IsString := by
  cases j <;> rfl

theorem asUnsigned_hasValue_iff {w : ℕ} {j : Json} :
    (j.asUnsigned w).HasValue ↔ j.IsNumber ∧ j.Fits w := by
  cases j with
  | float q =>
    simp only [asUnsigned, IsNumber, Fits, true_and]
    split_ifs with h
    · exact iff_of_true trivial h
    · exact iff_of_false id h
  | boolean b => exact iff_of_true trivial ⟨trivial, trivial⟩
  | unsigned n => exact iff_of_true trivial ⟨trivial, trivial⟩
  | integer n => exact iff_of_true trivial ⟨trivial, trivial⟩
  | null => exact iff_of_false id And.left
  | string s => exact iff_of_false id And.left
  | array vs => exact iff_of_false id And.left
  | object fields => exact iff_of_false id And.left

/-- A read after another one adds what it asks for, if that does not depend on the first value. -/
theorem Read.bind_hasValue_iff {r : Read α} {f : α → Read β} {P : Prop}
    (h : ∀ v, (f v).HasValue ↔ P) : (r.bind f).HasValue ↔ r.HasValue ∧ P := by
  cases r with
  | value v => exact (h v).trans (iff_of_eq (true_and P)).symm
  | mismatch => exact iff_of_false id And.left
  | undefined => exact iff_of_false id And.left

end Json

end ShannonNet.Library

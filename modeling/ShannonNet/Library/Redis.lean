import Mathlib.Data.Nat.Init
import Mathlib.Logic.Function.Basic

namespace ShannonNet.Library.Redis

/-- The value of a key: a string, a list from its head, or the scores of a sorted set. -/
inductive Value (β ε ι : Type)
  | string (s : β)
  | list (elems : List ε)
  | zset (score : ι → Option ℕ)

inductive Kind
  | string
  | list
  | zset
  deriving DecidableEq

variable {κ β ε ι ρ : Type}

def Value.kind : Value β ε ι → Kind
  | string _ => .string
  | list _ => .list
  | zset _ => .zset

/-- What a command answers and leaves of the value of its key; `none` is the error `WRONGTYPE`. -/
abbrev Command (β ε ι ρ : Type) := Option (Value β ε ι) → Option (ρ × Option (Value β ε ι))

abbrev Db (κ β ε ι : Type) := κ → Option (Value β ε ι)

def Db.run [DecidableEq κ] (db : Db κ β ε ι) (k : κ) (c : Command β ε ι ρ) :
    Option (ρ × Db κ β ε ι) :=
  (c (db k)).map fun r ↦ (r.1, Function.update db k r.2)

/-- A key that does not exist has every type. -/
def Fits (kind : Kind) (v : Option (Value β ε ι)) : Prop := ∀ w ∈ v, w.kind = kind

def stringOf : Option (Value β ε ι) → Option β
  | some (.string s) => some s
  | _ => none

def elemsOf : Option (Value β ε ι) → List ε
  | some (.list elems) => elems
  | _ => []

def scoreOf : Option (Value β ε ι) → ι → Option ℕ
  | some (.zset score) => score
  | _ => fun _ ↦ none

/-- A command that only works on values of one type. -/
def typed (kind : Kind) (f : Option (Value β ε ι) → ρ × Option (Value β ε ι)) : Command β ε ι ρ :=
  fun v ↦ if v.all fun w ↦ w.kind = kind then some (f v) else none

def get : Command β ε ι (Option β) := typed .string fun v ↦ (stringOf v, v)

/-- `SET` replaces a value of any type. -/
def set (s : β) : Command β ε ι Unit := fun _ ↦ some ((), some (.string s))

def del : Command β ε ι Unit := fun _ ↦ some ((), none)

def lpush (e : ε) : Command β ε ι ℕ :=
  typed .list fun v ↦ ((elemsOf v).length + 1, some (.list (e :: elemsOf v)))

/-- A list that loses its last element is removed. -/
def rpop : Command β ε ι (Option ε) :=
  typed .list fun v ↦ ((elemsOf v).getLast?,
    if (elemsOf v).dropLast = [] then none else some (.list (elemsOf v).dropLast))

def zscore (m : ι) : Command β ε ι (Option ℕ) := typed .zset fun v ↦ (scoreOf v m, v)

section Zset

variable [DecidableEq ι]

/-- `ZADD` answers how many members it added. -/
def zadd (m : ι) (n : ℕ) : Command β ε ι ℕ :=
  typed .zset fun v ↦ (if (scoreOf v m).isSome then 0 else 1,
    some (.zset (Function.update (scoreOf v) m (some n))))

def zincrby (m : ι) : Command β ε ι ℕ :=
  typed .zset fun v ↦ ((scoreOf v m).getD 0 + 1,
    some (.zset (Function.update (scoreOf v) m (some ((scoreOf v m).getD 0 + 1)))))

end Zset

variable {kind : Kind} {v : Option (Value β ε ι)}

theorem typed_eq {f : Option (Value β ε ι) → ρ × Option (Value β ε ι)} (h : Fits kind v) :
    typed kind f v = some (f v) := by
  rw [typed, if_pos]
  rw [Option.all_eq_true]
  intro w hw
  exact decide_eq_true (h w hw)

theorem get_eq (h : Fits .string v) : get v = some (stringOf v, v) := typed_eq h

theorem lpush_eq (e : ε) (h : Fits .list v) :
    lpush e v = some ((elemsOf v).length + 1, some (.list (e :: elemsOf v))) := typed_eq h

theorem rpop_eq (h : Fits .list v) :
    rpop v = some ((elemsOf v).getLast?,
      if (elemsOf v).dropLast = [] then none else some (.list (elemsOf v).dropLast)) := typed_eq h

theorem zscore_eq (m : ι) (h : Fits .zset v) : zscore m v = some (scoreOf v m, v) := typed_eq h

section Zset

variable [DecidableEq ι] (m : ι)

theorem zadd_eq (n : ℕ) (h : Fits .zset v) :
    zadd m n v = some (if (scoreOf v m).isSome then 0 else 1,
      some (.zset (Function.update (scoreOf v) m (some n)))) := typed_eq h

theorem zincrby_eq (h : Fits .zset v) :
    zincrby m v = some ((scoreOf v m).getD 0 + 1,
      some (.zset (Function.update (scoreOf v) m (some ((scoreOf v m).getD 0 + 1))))) := typed_eq h

end Zset

theorem fits_none : Fits (β := β) (ε := ε) (ι := ι) kind none := by
  intro w hw
  cases hw

theorem fits_some {w : Value β ε ι} : Fits w.kind (some w) := by
  intro w' hw
  cases hw
  rfl

end ShannonNet.Library.Redis

import ShannonNet.Library.Bitset
import ShannonNet.Utils.Path
import Mathlib.Logic.Function.Basic

namespace ShannonNet

open Library.Bitset Utils

/-- `SERVER_NAME` and `CLIENT_NAME`, which select a set of keys and a directory tree. -/
inductive Source
  | server
  | client
  deriving DecidableEq

abbrev Index := Str

/-- What Redis and the two directory trees hold under one index: the lock key, its members of the
zsets of creation times, of counters and of the nodes' validity, and its files. Every key and
path of the protocol is built from one index, so two indices share none of them. -/
structure Slot where
  lock : Option Str
  time : Source → Option ℕ
  count : Source → Option ℕ
  valid : ℕ → Option ℕ
  running : Source → Option Bytes
  waiting : Option Bytes
  piece : ℕ → Option Bytes
  secret : Source × ℕ → Option Bytes

def Slot.empty : Slot :=
  ⟨none, fun _ ↦ none, fun _ ↦ none, fun _ ↦ none, fun _ ↦ none, none, fun _ ↦ none, fun _ ↦ none⟩

/-- The json message of `KEY_GENERATE_SECRET_LIST`. -/
structure Message where
  source : Source
  randomNum : ℕ
  index : Index
  serverNodeId : ℕ
  clientNodeId : ℕ

structure World where
  slot : Index → Slot
  queue : List Message

def World.setSlot (w : World) (index : Index) (s : Slot) : World :=
  { w with slot := Function.update w.slot index s }

def World.lpush (w : World) (msg : Message) : World := { w with queue := msg :: w.queue }

theorem World.setSlot_slot (w : World) (index : Index) (s : Slot) (x : Index) :
    (w.setSlot index s).slot x = if x = index then s else w.slot x :=
  Function.update_apply w.slot index s x

theorem World.setSlot_eq_self_iff {w : World} {index : Index} {s : Slot} :
    w.setSlot index s = w ↔ s = w.slot index := by
  constructor
  · intro h
    have hslot := congrArg (fun w : World ↦ w.slot index) h
    simpa [World.setSlot_slot] using hslot
  · rintro rfl
    rw [World.setSlot, Function.update_eq_self]

structure Response (α : Type) where
  statusCode : ℕ
  description : String
  data : α

def serverNode : ℕ := 0

end ShannonNet

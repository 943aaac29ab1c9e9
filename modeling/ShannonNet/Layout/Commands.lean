import ShannonNet.Layout.Names
import ShannonNet.Library.Redis

namespace ShannonNet.Layout

open Library Library.Redis Library.Bitset Utils

/-- The files a slot holds. The others belong to the stages of one iteration. -/
inductive Kept
  | running (source : Source)
  | waiting
  | piece (progress : ℕ)
  | secret (source : Source) (nodeId : ℕ)
  deriving DecidableEq

def Kept.file : Kept → File
  | running source => .running source
  | waiting => .waiting
  | piece progress => .piece progress
  | secret source nodeId => .secret source nodeId

theorem Kept.file_injective : Function.Injective file := by
  intro k k' h
  cases k <;> cases k' <;> simp_all [file]

/-- Redis and the file system as the program sees them: one space of keys, one of paths. -/
structure Flat where
  redis : Db Str Str Message Index
  files : List Str → Option Bytes

namespace Flat

def command {ρ : Type} (w : Flat) (e : Entry) (c : Command Str Message Index ρ) :
    Option (ρ × Flat) :=
  (w.redis.run e.key c).map fun r ↦ (r.1, { w with redis := r.2 })

def file (w : Flat) (index : Index) (f : File) : Option Bytes := w.files (resolve (f.path index))

def setFile (w : Flat) (index : Index) (f : File) (v : Option Bytes) : Flat :=
  { w with files := Function.update w.files (resolve (f.path index)) v }

def score (w : Flat) (z : Zset) (index : Index) : Option ℕ :=
  scoreOf (w.redis (Entry.zset z).key) index

def queue (w : Flat) : List Message := elemsOf (w.redis Entry.list.key)

/-- What the two stores hold under an index. -/
def slot (w : Flat) (index : Index) : Slot where
  lock := stringOf (w.redis (Entry.lock index).key)
  time source := w.score (.time source) index
  count source := w.score (.count source) index
  valid nodeId := w.score (.valid nodeId) index
  running source := w.file index (.running source)
  waiting := w.file index .waiting
  piece progress := w.file index (.piece progress)
  secret r := w.file index (.secret r.1 r.2)

end Flat

def Entry.kind : Entry → Kind
  | lock _ => .string
  | list => .list
  | zset _ => .zset

/-- Every key of the program has the type its commands are for. -/
def Flat.Typed (w : Flat) : Prop := ∀ e : Entry, e.Proper → Fits e.kind (w.redis e.key)

def Flat.empty : Flat := ⟨fun _ ↦ none, fun _ ↦ none⟩

theorem Flat.empty_typed : Flat.empty.Typed := fun _ _ ↦ fits_none

/-- A Redis command on the keys of an index, or one access to a file of it that reads the file and
leaves `f` of what it has read. -/
inductive Cmd : Type → Type
  | get : Cmd (Option Str)
  | set (s : Str) : Cmd Unit
  | del : Cmd Unit
  | zscore (z : Zset) : Cmd (Option ℕ)
  | zadd (z : Zset) (n : ℕ) : Cmd ℕ
  | zincrby (z : Zset) : Cmd ℕ
  | file (k : Kept) (f : Option Bytes → Option Bytes) : Cmd (Option Bytes)

def Cmd.run {ρ : Type} (index : Index) (w : Flat) : Cmd ρ → Option (ρ × Flat)
  | get => w.command (.lock index) Redis.get
  | set s => w.command (.lock index) (Redis.set s)
  | del => w.command (.lock index) Redis.del
  | zscore z => w.command (.zset z) (Redis.zscore index)
  | zadd z n => w.command (.zset z) (Redis.zadd index n)
  | zincrby z => w.command (.zset z) (Redis.zincrby index)
  | file k f => some (w.file index k.file, w.setFile index k.file (f (w.file index k.file)))

section Slot

variable (s : Slot)

def score : Zset → Option ℕ
  | .time source => s.time source
  | .count source => s.count source
  | .valid nodeId => s.valid nodeId

def setScore (n : ℕ) : Zset → Slot
  | .time source => { s with time := Function.update s.time source (some n) }
  | .count source => { s with count := Function.update s.count source (some n) }
  | .valid nodeId => { s with valid := Function.update s.valid nodeId (some n) }

def keptFile : Kept → Option Bytes
  | .running source => s.running source
  | .waiting => s.waiting
  | .piece progress => s.piece progress
  | .secret source nodeId => s.secret (source, nodeId)

def setKeptFile (v : Option Bytes) : Kept → Slot
  | .running source => { s with running := Function.update s.running source v }
  | .waiting => { s with waiting := v }
  | .piece progress => { s with piece := Function.update s.piece progress v }
  | .secret source nodeId => { s with secret := Function.update s.secret (source, nodeId) v }

def Cmd.onSlot {ρ : Type} : Cmd ρ → ρ × Slot
  | get => (s.lock, s)
  | set v => ((), { s with lock := some v })
  | del => ((), { s with lock := none })
  | zscore z => (score s z, s)
  | zadd z n => (if (score s z).isSome then 0 else 1, setScore s n z)
  | zincrby z => ((score s z).getD 0 + 1, setScore s ((score s z).getD 0 + 1) z)
  | file k f => (keptFile s k, setKeptFile s (f (keptFile s k)) k)

theorem slot_ext {s t : Slot} (hlock : s.lock = t.lock) (hscore : ∀ z, score s z = score t z)
    (hfile : ∀ k, keptFile s k = keptFile t k) : s = t := by
  have htime : s.time = t.time := funext fun source ↦ hscore (.time source)
  have hcount : s.count = t.count := funext fun source ↦ hscore (.count source)
  have hvalid : s.valid = t.valid := funext fun nodeId ↦ hscore (.valid nodeId)
  have hrunning : s.running = t.running := funext fun source ↦ hfile (.running source)
  have hwaiting : s.waiting = t.waiting := hfile .waiting
  have hpiece : s.piece = t.piece := funext fun progress ↦ hfile (.piece progress)
  have hsecret : s.secret = t.secret := funext fun r ↦ hfile (.secret r.1 r.2)
  cases s
  cases t
  simp_all

theorem score_setScore (n : ℕ) (z z' : Zset) :
    score (setScore s n z) z' = if z' = z then some n else score s z' := by
  cases z <;> cases z' <;> simp [score, setScore, Function.update_apply]

theorem keptFile_setScore (n : ℕ) (z : Zset) (k : Kept) :
    keptFile (setScore s n z) k = keptFile s k := by
  cases z <;> cases k <;> rfl

theorem keptFile_setKeptFile (v : Option Bytes) (k k' : Kept) :
    keptFile (setKeptFile s v k) k' = if k' = k then v else keptFile s k' := by
  cases k <;> cases k' <;> simp [keptFile, setKeptFile, Function.update_apply]

theorem score_setKeptFile (v : Option Bytes) (k : Kept) (z : Zset) :
    score (setKeptFile s v k) z = score s z := by
  cases z <;> cases k <;> rfl

theorem lock_setScore (n : ℕ) (z : Zset) : (setScore s n z).lock = s.lock := by
  cases z <;> rfl

theorem lock_setKeptFile (v : Option Bytes) (k : Kept) :
    (setKeptFile s v k).lock = s.lock := by
  cases k <;> rfl

end Slot

namespace Flat

def setRedis (w : Flat) (e : Entry) (v : Option (Value Str Message Index)) : Flat :=
  { w with redis := Function.update w.redis e.key v }

variable {w : Flat} {x y : Index} {e : Entry} {v : Option (Value Str Message Index)}

theorem setRedis_self (w : Flat) (e : Entry) : w.setRedis e (w.redis e.key) = w := by
  rw [setRedis, Function.update_eq_self]

theorem command_eq {ρ : Type} {r : ρ} {c : Command Str Message Index ρ}
    (h : c (w.redis e.key) = some (r, v)) : w.command e c = some (r, w.setRedis e v) := by
  rw [command, Db.run, h]
  rfl

theorem setRedis_redis (he : e.Proper) {e' : Entry} (he' : e'.Proper) :
    (w.setRedis e v).redis e'.key = if e' = e then v else w.redis e'.key := by
  by_cases h : e' = e
  · subst h
    rw [if_pos rfl]
    exact Function.update_self ..
  · rw [if_neg h]
    exact Function.update_of_ne (fun hkey ↦ h (Entry.key_injective he' he hkey)) ..

theorem setFile_file (hx : IsIndex x) (hy : IsIndex y) (f g : File) (v : Option Bytes) :
    (w.setFile x f v).file y g = if y = x ∧ g = f then v else w.file y g := by
  by_cases h : y = x ∧ g = f
  · obtain ⟨rfl, rfl⟩ := h
    rw [if_pos ⟨rfl, rfl⟩]
    exact Function.update_self ..
  · rw [if_neg h]
    exact Function.update_of_ne (fun hpath ↦ h (File.path_injective hy hx hpath)) ..

theorem Typed.setRedis (h : w.Typed) (he : e.Proper) (hv : Fits e.kind v) :
    (w.setRedis e v).Typed := by
  intro e' he'
  rw [setRedis_redis he he']
  split_ifs with heq
  · subst heq
    exact hv
  · exact h e' he'

theorem score_slot (z : Zset) : Layout.score (w.slot x) z = w.score z x := by
  cases z <;> rfl

theorem keptFile_slot (k : Kept) : keptFile (w.slot x) k = w.file x k.file := by
  cases k <;> rfl

theorem lock_setRedis (he : e.Proper) (hy : IsIndex y) :
    ((w.setRedis e v).slot y).lock = if .lock y = e then stringOf v else (w.slot y).lock := by
  simp only [slot]
  rw [setRedis_redis he (show (Entry.lock y).Proper from hy)]
  split_ifs <;> rfl

theorem score_setRedis (he : e.Proper) (z : Zset) :
    (w.setRedis e v).score z y = if .zset z = e then scoreOf v y else w.score z y := by
  rw [score, setRedis_redis he (show (Entry.zset z).Proper from trivial)]
  split_ifs <;> rfl

theorem queue_setRedis (he : e.Proper) :
    (w.setRedis e v).queue = if .list = e then elemsOf v else w.queue := by
  rw [queue, setRedis_redis he (show Entry.list.Proper from trivial)]
  split_ifs <;> rfl

/-- `w'` is `w` but for the slot of `x`, which is `s`. -/
structure Wrote (w w' : Flat) (x : Index) (s : Slot) : Prop where
  typed : w'.Typed
  slot_self : w'.slot x = s
  slot_of_ne : ∀ y, IsIndex y → y ≠ x → w'.slot y = w.slot y
  queue : w'.queue = w.queue

theorem Wrote.refl (h : w.Typed) : Wrote w w x (w.slot x) := ⟨h, rfl, fun _ _ _ ↦ rfl, rfl⟩

theorem wrote_lock (h : w.Typed) (hx : IsIndex x) (hv : Fits .string v) :
    Wrote w (w.setRedis (.lock x) v) x { w.slot x with lock := stringOf v } where
  typed := h.setRedis (e := .lock x) hx hv
  slot_self := by
    apply slot_ext
    · rw [lock_setRedis (e := .lock x) hx hx, if_pos rfl]
    · intro z
      rw [score_slot, score_setRedis (e := .lock x) hx, if_neg (by simp), ← score_slot]
      cases z <;> rfl
    · intro k
      cases k <;> rfl
  slot_of_ne y hy hne := by
    apply slot_ext
    · rw [lock_setRedis (e := .lock x) hx hy, if_neg (by simpa using hne)]
    · intro z
      rw [score_slot, score_setRedis (e := .lock x) hx, if_neg (by simp), ← score_slot]
    · intro k
      cases k <;> rfl
  queue := by rw [queue_setRedis (e := .lock x) hx, if_neg (by simp)]

theorem wrote_zset (h : w.Typed) (hx : IsIndex x) (z : Zset) (n : ℕ) :
    Wrote w (w.setRedis (.zset z)
      (some (.zset (Function.update (scoreOf (w.redis (Entry.zset z).key)) x (some n))))) x
      (setScore (w.slot x) n z) where
  typed := h.setRedis (e := .zset z) trivial fits_some
  slot_self := by
    apply slot_ext
    · rw [lock_setRedis (e := .zset z) trivial hx, if_neg (by simp), lock_setScore]
    · intro z'
      rw [score_slot, score_setRedis (e := .zset z) trivial, score_setScore, score_slot]
      simp only [Entry.zset.injEq]
      split_ifs with hz
      · exact Function.update_self ..
      · rfl
    · intro k
      rw [keptFile_setScore]
      cases k <;> rfl
  slot_of_ne y hy hne := by
    apply slot_ext
    · rw [lock_setRedis (e := .zset z) trivial hy, if_neg (by simp)]
    · intro z'
      rw [score_slot, score_setRedis (e := .zset z) trivial, score_slot]
      simp only [Entry.zset.injEq]
      split_ifs with hz
      · rw [hz]
        exact Function.update_of_ne hne ..
      · rfl
    · intro k
      cases k <;> rfl
  queue := by rw [queue_setRedis (e := .zset z) trivial, if_neg (by simp)]

theorem wrote_file (h : w.Typed) (hx : IsIndex x) (k : Kept) (v : Option Bytes) :
    Wrote w (w.setFile x k.file v) x (setKeptFile (w.slot x) v k) where
  typed := h
  slot_self := by
    apply slot_ext
    · rw [lock_setKeptFile]
      rfl
    · intro z
      rw [score_setKeptFile]
      cases z <;> rfl
    · intro k'
      rw [keptFile_slot, setFile_file hx hx, keptFile_setKeptFile, keptFile_slot]
      simp only [true_and, Kept.file_injective.eq_iff]
  slot_of_ne y hy hne := by
    apply slot_ext
    · rfl
    · intro z
      cases z <;> rfl
    · intro k'
      rw [keptFile_slot, setFile_file hx hy, if_neg fun h ↦ hne h.1, keptFile_slot]
  queue := rfl

/-- The files of the stages are under nobody's slot. -/
theorem slot_setFile_of_forall_ne (hx : IsIndex x) (hy : IsIndex y) {f : File}
    (hf : ∀ k : Kept, k.file ≠ f) (v : Option Bytes) : (w.setFile x f v).slot y = w.slot y := by
  apply slot_ext
  · rfl
  · intro z
    cases z <;> rfl
  · intro k
    rw [keptFile_slot, setFile_file hx hy, if_neg fun h ↦ hf k h.2, keptFile_slot]

theorem slot_setRedis_list (hx : IsIndex x) : (w.setRedis .list v).slot x = w.slot x := by
  apply slot_ext
  · rw [lock_setRedis (e := .list) trivial hx, if_neg (by simp)]
  · intro z
    rw [score_slot, score_setRedis (e := .list) trivial, if_neg (by simp), ← score_slot]
  · intro k
    cases k <;> rfl

/-- `w'` is `w` but for the list, which is `queue`. -/
structure Queued (w w' : Flat) (queue : List Message) : Prop where
  typed : w'.Typed
  slot : ∀ x, IsIndex x → w'.slot x = w.slot x
  queue : w'.queue = queue

theorem queued_setRedis (h : w.Typed) {queue : List Message} (hv : Fits .list v)
    (hqueue : elemsOf v = queue) : Queued w (w.setRedis .list v) queue where
  typed := h.setRedis (e := .list) trivial hv
  slot _ hx := slot_setRedis_list hx
  queue := by rw [queue_setRedis (e := .list) trivial, if_pos rfl, hqueue]

theorem lpush_run (h : w.Typed) (msg : Message) :
    ∃ r w', w.command .list (lpush msg) = some (r, w') ∧ Queued w w' (msg :: w.queue) :=
  ⟨_, _, command_eq (lpush_eq msg (h .list trivial)), queued_setRedis h fits_some rfl⟩

theorem rpop_run (h : w.Typed) :
    ∃ w', w.command .list rpop = some (w.queue.getLast?, w') ∧ Queued w w' w.queue.dropLast := by
  refine ⟨_, command_eq (rpop_eq (h .list trivial)), queued_setRedis h ?_ ?_⟩
  · split_ifs
    · exact fits_none
    · exact fits_some
  · split_ifs with hnil
    · exact hnil.symm
    · rfl

end Flat

/-- A command on the flat stores does to the slot what the command on the slot does, and never
meets a key of another type. -/
theorem Cmd.run_eq {ρ : Type} {w : Flat} {x : Index} (h : w.Typed) (hx : IsIndex x) (c : Cmd ρ) :
    ∃ w', c.run x w = some ((c.onSlot (w.slot x)).1, w') ∧
      w.Wrote w' x (c.onSlot (w.slot x)).2 := by
  have hlock : Fits .string (w.redis (Entry.lock x).key) := h (.lock x) hx
  have hzset (z : Zset) : Fits .zset (w.redis (Entry.zset z).key) := h (.zset z) trivial
  cases c with
  | get =>
    refine ⟨w, ?_, .refl h⟩
    rw [run, Flat.command_eq (get_eq hlock), Flat.setRedis_self]
    rfl
  | set s => exact ⟨_, Flat.command_eq rfl, Flat.wrote_lock h hx fits_some⟩
  | del => exact ⟨_, Flat.command_eq rfl, Flat.wrote_lock h hx fits_none⟩
  | zscore z =>
    refine ⟨w, ?_, .refl h⟩
    rw [run, Flat.command_eq (zscore_eq x (hzset z)), Flat.setRedis_self, onSlot, Flat.score_slot]
    rfl
  | zadd z n =>
    refine ⟨_, ?_, Flat.wrote_zset h hx z n⟩
    rw [run, Flat.command_eq (zadd_eq x n (hzset z)), onSlot, Flat.score_slot]
    rfl
  | zincrby z =>
    refine ⟨_, ?_, Flat.wrote_zset h hx z _⟩
    rw [run, Flat.command_eq (zincrby_eq x (hzset z)), onSlot, Flat.score_slot]
    rfl
  | file k f =>
    refine ⟨_, ?_, Flat.wrote_file h hx k _⟩
    rw [run, onSlot, Flat.keptFile_slot]

/-- One step of a party: at most one command, and how it goes on from the answer. -/
inductive Prog (σ : Type) : Type 1
  | pure (r : σ)
  | command {ρ : Type} (c : Cmd ρ) (next : ρ → σ)

namespace Prog

variable {σ τ : Type}

def map (f : σ → τ) : Prog σ → Prog τ
  | pure r => pure (f r)
  | command c next => command c fun answer ↦ f (next answer)

def onSlot (s : Slot) : Prog σ → σ × Slot
  | pure r => (r, s)
  | command c next => (next (c.onSlot s).1, (c.onSlot s).2)

def run (index : Index) (w : Flat) : Prog σ → Option (σ × Flat)
  | pure r => some (r, w)
  | command c next => (c.run index w).map fun r ↦ (next r.1, r.2)

theorem onSlot_map (f : σ → τ) (p : Prog σ) (s : Slot) :
    (p.map f).onSlot s = (f (p.onSlot s).1, (p.onSlot s).2) := by
  cases p <;> rfl

theorem run_eq {w : Flat} {x : Index} (h : w.Typed) (hx : IsIndex x) (p : Prog σ) :
    ∃ w', p.run x w = some ((p.onSlot (w.slot x)).1, w') ∧
      w.Wrote w' x (p.onSlot (w.slot x)).2 := by
  cases p with
  | pure r => exact ⟨w, rfl, .refl h⟩
  | command c next =>
    obtain ⟨w', hrun, hwrote⟩ := c.run_eq h hx
    refine ⟨w', ?_, hwrote⟩
    rw [run, hrun]
    rfl

end Prog

end ShannonNet.Layout
